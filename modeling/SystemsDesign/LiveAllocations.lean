/-
# The addresses of live allocations

A client of the memory allocator keeps the addresses that `custom_malloc` has returned and that it
has not freed.  With positive requests they are the starts of the allocated blocks, so no two
allocations share one.  A request of size 0 leaves the free block where it is, and the next request
can be served from the same address.
-/
import SystemsDesign.MemoryAllocator

namespace MemoryAllocation

open OrderedMap

/-- The allocator and the addresses of the allocations that succeeded and were not freed. -/
structure Client where
  allocator : DynamicMemoryAllocator
  live : List ℤ := []

/-- A client of a new allocator. -/
def Client.start (totalMemory : ℤ) : Client := { allocator := .new totalMemory }

/-- A call: `custom_malloc` succeeds unless it returns -1, and `custom_free` of an allocated start
ends the allocation there. -/
def Client.step (s : Client) : Call → Client
  | .malloc requestedSize =>
    let address := (s.allocator.customMalloc requestedSize).1
    { allocator := (s.allocator.customMalloc requestedSize).2
      live := if address = -1 then s.live else address :: s.live }
  | .free address =>
    { allocator := s.allocator.customFree address
      live := if (lookup s.allocator.allocated address).isSome then s.live.erase address
        else s.live }

/-- The live addresses are the starts of the allocated blocks, each once. -/
structure Client.Tracks (s : Client) : Prop where
  nodup : s.live.Nodup
  mem_iff : ∀ a, a ∈ s.live ↔ (lookup s.allocator.allocated a).isSome

/-- No memory to hand out: no free block has a positive size, and nothing is allocated. -/
structure Exhausted (m : DynamicMemoryAllocator) : Prop where
  free : ∀ x s, lookup m.available x = some s → s < 1
  used : ∀ x, lookup m.allocated x = none

variable {T : ℤ} {s : Client}

/-- In a partitioned memory a positive request keeps track of the addresses. -/
theorem Client.Tracks.malloc (h : s.Tracks) (hp : Partitioned T s.allocator) (r : ℤ) :
    (s.step (.malloc r)).Tracks := by
  rcases customMalloc_spec s.allocator r with ⟨-, heq⟩ | ⟨x, size, hx, -, -, hresult, hused, -⟩
  · rw [Client.step, heq, if_pos rfl]
    exact h
  · have hbounds := hp.tiled.tiling.bounds (block_of_free hx)
    have hnone : x ∉ s.live := by
      rw [h.mem_iff, hp.tiled.disjoint hx]
      simp
    rw [Client.step, hresult, if_neg (by omega)]
    refine ⟨List.nodup_cons.mpr ⟨hnone, h.nodup⟩, fun a => ?_⟩
    rw [hused, List.mem_cons, h.mem_iff a, Function.update_apply]
    by_cases ha : a = x
    · simp [ha]
    · simp [ha]

theorem Client.Tracks.free (h : s.Tracks) (hp : Partitioned T s.allocator) (a : ℤ) :
    (s.step (.free a)).Tracks := by
  obtain ⟨-, hused⟩ := hp.customFree a
  rw [Client.step]
  split_ifs with hmem
  · refine ⟨h.nodup.erase a, fun b => ?_⟩
    rw [hused, h.nodup.mem_erase_iff, h.mem_iff b, Function.update_apply]
    by_cases hb : b = a
    · simp [hb]
    · simp [hb]
  · refine ⟨h.nodup, fun b => ?_⟩
    rw [hused, h.mem_iff b, Function.update_apply]
    by_cases hb : b = a
    · subst hb
      simpa using hmem
    · simp [hb]

/-- Where there is no memory to hand out, no positive request succeeds and nothing changes. -/
theorem Client.Tracks.exhausted (h : s.Tracks) (he : Exhausted s.allocator) {c : Call}
    (hc : ∀ n, c = .malloc n → 1 ≤ n) : (s.step c).Tracks ∧ Exhausted (s.step c).allocator := by
  cases c with
  | malloc r =>
    rcases customMalloc_spec s.allocator r with ⟨-, heq⟩ | ⟨x, size, hx, hfit, -⟩
    · rw [Client.step, heq, if_pos rfl]
      exact ⟨h, he⟩
    · have hsmall := he.free x size hx
      have hr := hc r rfl
      omega
  | free a =>
    have hnone := he.used a
    rw [Client.step, customFree_invalid hnone, hnone, if_neg (by simp)]
    exact ⟨⟨h.nodup, h.mem_iff⟩, he.free, he.used⟩

theorem tracks_start (T : ℤ) : (Client.start T).Tracks :=
  ⟨List.nodup_nil, fun _ => iff_of_false List.not_mem_nil (Bool.false_ne_true ·)⟩

theorem exhausted_new (hT : T < 1) : Exhausted (.new T) := by
  refine ⟨fun x s hx => ?_, fun x => rfl⟩
  rw [DynamicMemoryAllocator.new, lookup_insert, Function.update_apply] at hx
  split_ifs at hx
  · exact Option.some.inj hx ▸ hT
  · cases hx

/-- The client keeps track of the addresses, and the allocator meets `I`. -/
structure Client.Sound (I : DynamicMemoryAllocator → Prop) (s : Client) : Prop where
  tracks : s.Tracks
  allocator : I s.allocator

/-- What positive requests and frees keep up holds after all calls of that kind. -/
theorem sound_run {I : DynamicMemoryAllocator → Prop} (h0 : I (.new T))
    (hstep : ∀ s : Client, ∀ c, s.Sound I → (∀ n, c = .malloc n → 1 ≤ n) → (s.step c).Sound I)
    {calls : List Call} (hcalls : ∀ n, .malloc n ∈ calls → 1 ≤ n) :
    (calls.foldl Client.step (Client.start T)).Sound I := by
  refine TransitionSystem.foldl_invariant_along (P := fun _ c => c ∈ calls)
    (fun s c hs hc => hstep s c hs fun n hn => hcalls n (hn ▸ hc)) ⟨tracks_start T, h0⟩
    fun done c rest heq => ?_
  rw [heq]
  simp

/-- **Live allocations have distinct addresses** if no request is for size 0, for every size of the
memory. -/
theorem live_addresses_distinct (T : ℤ) (calls : List Call)
    (hcalls : ∀ n, .malloc n ∈ calls → 1 ≤ n) :
    (calls.foldl Client.step (Client.start T)).live.Nodup := by
  by_cases hT : 1 ≤ T
  · have hstep : ∀ s : Client, ∀ c, s.Sound (Partitioned T) → (∀ n, c = .malloc n → 1 ≤ n) →
        (s.step c).Sound (Partitioned T) := by
      intro s c hs hc
      cases c with
      | malloc r => exact ⟨hs.tracks.malloc hs.allocator r, hs.allocator.step hc⟩
      | free a => exact ⟨hs.tracks.free hs.allocator a, hs.allocator.step hc⟩
    exact (sound_run (partitioned_new hT) hstep hcalls).tracks.nodup
  · have hstep : ∀ s : Client, ∀ c, s.Sound Exhausted → (∀ n, c = .malloc n → 1 ≤ n) →
        (s.step c).Sound Exhausted := by
      intro s c hs hc
      obtain ⟨htracks, hexhausted⟩ := hs.tracks.exhausted hs.allocator hc
      exact ⟨htracks, hexhausted⟩
    exact (sound_run (exhausted_new (not_le.mp hT)) hstep hcalls).tracks.nodup

theorem live_addresses_distinct_ten :
    ([Call.malloc 3, .malloc 4, .free 0, .malloc 2].foldl Client.step
      (Client.start 10)).live.Nodup := by
  refine live_addresses_distinct 10 [.malloc 3, .malloc 4, .free 0, .malloc 2] fun n hn => ?_
  simp only [List.mem_cons, Call.malloc.injEq, reduceCtorEq, List.not_mem_nil, or_false,
    false_or] at hn
  omega

/-- A request of size 0 and one of size 10 are both served from the address 0. -/
theorem malloc_zero_shares_address :
    ([Call.malloc 0, .malloc 10].foldl Client.step (Client.start 100)).live = [0, 0] := by
  decide +kernel

end MemoryAllocation
