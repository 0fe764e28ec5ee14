/-
# The chunk store

Model of `storage/ChunkStore.cpp`.  Chunks are kept under their fingerprint with the number of
references to them and the addresses of their replicas.  Storing data that is there adds a
reference, deleting takes one away and drops the chunk with the last, and replicating adds an
address.

`std::hash` is a parameter, since nothing is known about its values.  Addresses and counts are
unbounded.

Result: where the fingerprint tells the data that occur apart, the chunk store counts references
(`RefCounting`), and no two replicas have the same address.
-/
import SystemsDesign.RefCounting
import SystemsDesign.TransitionSystem

namespace ChunkStorage

open RefCounting TransitionSystem

/-! ## The storage system -/

/-- `ChunkMetadata`. -/
structure ChunkMetadata where
  data : String
  refCount : ℤ := 1
  replicaAddresses : List ℕ := []
  deriving DecidableEq

/-- The data members of `ChunkStorageSystem`, with those of its `DedupIndex`. -/
structure ChunkStorageSystem where
  index : Finmap fun _ : String => ChunkMetadata := ∅
  nextReplicaAddress : ℕ := 1

/-- `fingerPrint`. -/
def fingerPrint (hash : String → ℕ) (chunkData : String) : String := toString (hash chunkData)

namespace ChunkStorageSystem

variable (hash : String → ℕ) (s : ChunkStorageSystem) (data : String)

/-- `storeChunk`. -/
def storeChunk : ChunkStorageSystem :=
  let chunkId := fingerPrint hash data
  match s.index.lookup chunkId with
  | some metadata =>
    { s with index := s.index.insert chunkId { metadata with refCount := metadata.refCount + 1 } }
  | none =>
    { index := s.index.insert chunkId { data, replicaAddresses := [s.nextReplicaAddress] }
      nextReplicaAddress := s.nextReplicaAddress + 1 }

/-- `lookupChunk`. -/
def lookupChunk : String :=
  match s.index.lookup (fingerPrint hash data) with
  | none => "Chunk NOT FOUND"
  | some metadata => metadata.data

/-- `replicateChunk`. -/
def replicateChunk : ChunkStorageSystem :=
  let chunkId := fingerPrint hash data
  match s.index.lookup chunkId with
  | none => s
  | some metadata =>
    { index := s.index.insert chunkId { metadata with
        replicaAddresses := metadata.replicaAddresses ++ [s.nextReplicaAddress] }
      nextReplicaAddress := s.nextReplicaAddress + 1 }

/-- `deleteChunk`. -/
def deleteChunk : ChunkStorageSystem :=
  let chunkId := fingerPrint hash data
  match s.index.lookup chunkId with
  | none => s
  | some metadata =>
    let refCount := metadata.refCount - 1
    if refCount = 0 then { s with index := s.index.erase chunkId }
    else { s with index := s.index.insert chunkId { metadata with refCount } }

end ChunkStorageSystem

/-- The calls. -/
inductive Call where
  | storeChunk (data : String)
  | lookupChunk (data : String)
  | replicateChunk (data : String)
  | deleteChunk (data : String)
  deriving DecidableEq

/-- The data that a call names. -/
def Call.data : Call → String
  | .storeChunk data | .lookupChunk data | .replicateChunk data | .deleteChunk data => data

variable (hash : String → ℕ)

/-- The system after a call. -/
def exec (s : ChunkStorageSystem) : Call → ChunkStorageSystem
  | .storeChunk data => s.storeChunk hash data
  | .lookupChunk _ => s
  | .replicateChunk data => s.replicateChunk hash data
  | .deleteChunk data => s.deleteChunk hash data

/-- The system after a sequence of calls. -/
def run (calls : List Call) : ChunkStorageSystem := calls.foldl (exec hash) {}

/-- The call is a `deleteChunk` of the data that finds an entry. -/
def Deletes (data : String) (s : ChunkStorageSystem) (c : Call) : Prop :=
  c = .deleteChunk data ∧ fingerPrint hash data ∈ s.index

instance (data : String) (s : ChunkStorageSystem) (c : Call) : Decidable (Deletes hash data s c) :=
  inferInstanceAs (Decidable (_ ∧ _))

/-- How many of the calls are `deleteChunk`s of the data that find an entry. -/
def foundDeletes (data : String) : ChunkStorageSystem → List Call → ℕ
  | _, [] => 0
  | s, c :: calls =>
    (if Deletes hash data s c then 1 else 0) + foundDeletes data (exec hash s c) calls

/-- The references to the data: the `storeChunk`s without the `deleteChunk`s that found it. -/
def references (calls : List Call) (data : String) : ℤ :=
  calls.count (.storeChunk data) - foundDeletes hash data {} calls

/-! ## References -/

/-- Metadata keep the data beside the count. -/
def counted : Counted ChunkMetadata String where
  count := ChunkMetadata.refCount
  setCount metadata n := { metadata with refCount := n }
  payload := ChunkMetadata.data
  count_setCount _ _ := rfl
  payload_setCount _ _ := rfl

section References

variable {hash} {occurs : Set String} {content : String → String} {s : ChunkStorageSystem}
  {refs : String → ℕ} {data : String}

/-- `storeChunk` adds a reference to the fingerprint, with a new entry if there was none. -/
theorem tracks_storeChunk (h : Tracks counted s.index refs content)
    (hdata : content (fingerPrint hash data) = data) :
    Tracks counted (s.storeChunk hash data).index
      (fun k => refs k + if k = fingerPrint hash data then 1 else 0) content := by
  by_cases hpos : 0 < refs (fingerPrint hash data)
  · obtain ⟨index, hretain, htracks⟩ := h.retain hpos
    obtain ⟨metadata, hm, rfl⟩ := Option.map_eq_some_iff.mp hretain
    simp only [ChunkStorageSystem.storeChunk, hm]
    exact htracks
  · have hzero : refs (fingerPrint hash data) = 0 := by omega
    have hnew := @Tracks.insert _ _ _ _ counted _ _ _ h _
      { data, replicaAddresses := [s.nextReplicaAddress] } hzero rfl
    have hsame : Function.update content (fingerPrint hash data) data = content := by
      rw [Function.update_eq_self_iff]
      exact hdata.symm
    simp only [ChunkStorageSystem.storeChunk, h.absent _ hzero]
    rw [← hsame]
    exact hnew

/-- `replicateChunk` does not change the references. -/
theorem tracks_replicateChunk (h : Tracks counted s.index refs content) (data : String) :
    Tracks counted (s.replicateChunk hash data).index refs content := by
  cases hm : s.index.lookup (fingerPrint hash data) with
  | none =>
    simp only [ChunkStorageSystem.replicateChunk, hm]
    exact h
  | some metadata =>
    simp only [ChunkStorageSystem.replicateChunk, hm]
    obtain ⟨hpos, hcount, hpayload⟩ := h.of_lookup hm
    apply h.of_ne (fun k hk => ⟨Finmap.lookup_insert_of_ne _ hk, rfl, rfl⟩)
    · intro hzero
      omega
    · intro _
      exact ⟨_, Finmap.lookup_insert _, hcount, hpayload⟩

/-- `deleteChunk` takes a reference away from a fingerprint that has an entry. -/
theorem tracks_deleteChunk (h : Tracks counted s.index refs content)
    (hmem : fingerPrint hash data ∈ s.index) :
    0 < refs (fingerPrint hash data) ∧ Tracks counted (s.deleteChunk hash data).index
      (fun k => refs k - if k = fingerPrint hash data then 1 else 0) content := by
  have hpos := (h.mem_iff _).mp hmem
  refine ⟨hpos, ?_⟩
  obtain ⟨index, hrelease, htracks⟩ := h.release hpos
  obtain ⟨metadata, hm, rfl⟩ := Option.map_eq_some_iff.mp hrelease
  simp only [ChunkStorageSystem.deleteChunk, hm]
  by_cases hlast : counted.count metadata - 1 = 0
  · rw [if_pos hlast] at htracks
    rw [if_pos (show metadata.refCount - 1 = 0 from hlast)]
    exact htracks
  · rw [if_neg hlast] at htracks
    rw [if_neg (show ¬ metadata.refCount - 1 = 0 from hlast)]
    exact htracks

theorem deleteChunk_of_notMem (hmem : fingerPrint hash data ∉ s.index) :
    s.deleteChunk hash data = s := by
  simp only [ChunkStorageSystem.deleteChunk, Finmap.lookup_eq_none.mpr hmem]

/-- **One call.**  The index keeps track of the references to the data that occur. -/
theorem tracks_exec (hinj : Set.InjOn (fingerPrint hash) occurs)
    (hcontent : ∀ d ∈ occurs, content (fingerPrint hash d) = d)
    (h : Tracks counted s.index refs content) {c : Call} (hc : c.data ∈ occurs) :
    ∃ refs', Tracks counted (exec hash s c).index refs' content ∧ ∀ d ∈ occurs,
      (refs' (fingerPrint hash d) : ℤ) = refs (fingerPrint hash d)
        + (if c = .storeChunk d then 1 else 0) - if Deletes hash d s c then 1 else 0 := by
  cases c with
  | storeChunk data =>
    refine ⟨_, tracks_storeChunk h (hcontent data hc), fun d hd => ?_⟩
    have hiff : fingerPrint hash d = fingerPrint hash data ↔ d = data := hinj.eq_iff hd hc
    by_cases heq : d = data
    · simp [heq, Deletes]
    · simp [hiff, heq, Ne.symm heq, Deletes]
  | lookupChunk data => exact ⟨refs, h, fun d _ => by simp [Deletes]⟩
  | replicateChunk data =>
    exact ⟨refs, tracks_replicateChunk h data, fun d _ => by simp [Deletes]⟩
  | deleteChunk data =>
    by_cases hmem : fingerPrint hash data ∈ s.index
    · obtain ⟨hpos, htracks⟩ := tracks_deleteChunk h hmem
      refine ⟨_, htracks, fun d hd => ?_⟩
      have hiff : fingerPrint hash d = fingerPrint hash data ↔ d = data := hinj.eq_iff hd hc
      by_cases heq : d = data
      · subst heq
        simp only [if_true, Deletes, true_and, hmem]
        rw [if_neg Call.noConfusion]
        omega
      · simp [hiff, heq, Ne.symm heq, Deletes]
    · refine ⟨refs, ?_, fun d hd => ?_⟩
      · show Tracks counted (s.deleteChunk hash data).index refs content
        rw [deleteChunk_of_notMem hmem]
        exact h
      · have hnone : ¬ Deletes hash d s (.deleteChunk data) := by
          rintro ⟨heq, hmem'⟩
          rw [Call.deleteChunk.inj heq] at hmem
          exact hmem hmem'
        rw [if_neg hnone, if_neg Call.noConfusion]
        omega

/-- **All calls.**  Each fingerprint of data that occur has as many references as the calls have
added and not taken away. -/
theorem tracks_foldl (hinj : Set.InjOn (fingerPrint hash) occurs)
    (hcontent : ∀ d ∈ occurs, content (fingerPrint hash d) = d)
    (h : Tracks counted s.index refs content) {calls : List Call}
    (hcalls : ∀ c ∈ calls, c.data ∈ occurs) :
    ∃ refs', Tracks counted (calls.foldl (exec hash) s).index refs' content ∧ ∀ d ∈ occurs,
      (refs' (fingerPrint hash d) : ℤ) = refs (fingerPrint hash d)
        + calls.count (.storeChunk d) - foundDeletes hash d s calls := by
  induction calls generalizing s refs with
  | nil => exact ⟨refs, h, fun d _ => by simp [foundDeletes]⟩
  | cons c calls ih =>
    obtain ⟨refs₁, h₁, hrefs₁⟩ := tracks_exec hinj hcontent h (hcalls c List.mem_cons_self)
    obtain ⟨refs', h', hrefs'⟩ := ih h₁ fun e he => hcalls e (List.mem_cons_of_mem c he)
    refine ⟨refs', h', fun d hd => ?_⟩
    have hcount : ((c :: calls).count (Call.storeChunk d) : ℤ)
        = calls.count (.storeChunk d) + if c = .storeChunk d then 1 else 0 := by
      rw [List.count_cons]
      by_cases heq : c = .storeChunk d
      · simp [heq]
      · simp [heq]
    have hdeletes : (foundDeletes hash d s (c :: calls) : ℤ)
        = (if Deletes hash d s c then 1 else 0) + foundDeletes hash d (exec hash s c) calls := by
      rw [foundDeletes]
      by_cases hdel : Deletes hash d s c
      · simp [hdel]
      · simp [hdel]
    rw [hrefs' d hd, hrefs₁ d hd, hcount, hdeletes]
    omega

end References

/-! ## Addresses -/

/-- The addresses of each entry are distinct, different entries share none, and all lie below the
next one. -/
structure AddressesFresh (s : ChunkStorageSystem) : Prop where
  nodup : ∀ fp metadata, s.index.lookup fp = some metadata → metadata.replicaAddresses.Nodup
  disjoint : ∀ fp fp' metadata metadata', fp ≠ fp' → s.index.lookup fp = some metadata →
    s.index.lookup fp' = some metadata' →
    metadata.replicaAddresses.Disjoint metadata'.replicaAddresses
  below : ∀ fp metadata, s.index.lookup fp = some metadata →
    ∀ a ∈ metadata.replicaAddresses, a < s.nextReplicaAddress

section Addresses

variable {hash} {s : ChunkStorageSystem} {fp : String} {metadata : ChunkMetadata}

/-- An entry may be written whose addresses are distinct and not those of other entries. -/
theorem AddressesFresh.insert (h : AddressesFresh s) {next : ℕ}
    (hnext : s.nextReplicaAddress ≤ next) (hnodup : metadata.replicaAddresses.Nodup)
    (hbelow : ∀ a ∈ metadata.replicaAddresses, a < next)
    (hother : ∀ fp' metadata', fp' ≠ fp → s.index.lookup fp' = some metadata' →
      metadata.replicaAddresses.Disjoint metadata'.replicaAddresses) :
    AddressesFresh { index := s.index.insert fp metadata, nextReplicaAddress := next } := by
  refine ⟨fun fp₁ m₁ h₁ => ?_, fun fp₁ fp₂ m₁ m₂ hne h₁ h₂ => ?_, fun fp₁ m₁ h₁ => ?_⟩
  · rcases lookup_of_insert h₁ with ⟨-, rfl⟩ | ⟨-, hold₁⟩
    · exact hnodup
    · exact h.nodup fp₁ m₁ hold₁
  · rcases lookup_of_insert h₁ with ⟨rfl, rfl⟩ | ⟨hne₁, hold₁⟩
    · rcases lookup_of_insert h₂ with ⟨rfl, -⟩ | ⟨hne₂, hold₂⟩
      · exact absurd rfl hne
      · exact hother fp₂ m₂ hne₂ hold₂
    · rcases lookup_of_insert h₂ with ⟨rfl, rfl⟩ | ⟨-, hold₂⟩
      · exact (hother fp₁ m₁ hne₁ hold₁).symm
      · exact h.disjoint fp₁ fp₂ m₁ m₂ hne hold₁ hold₂
  · rcases lookup_of_insert h₁ with ⟨-, rfl⟩ | ⟨-, hold₁⟩
    · exact hbelow
    · exact fun a ha => (h.below fp₁ m₁ hold₁ a ha).trans_le hnext

theorem AddressesFresh.setCount (h : AddressesFresh s) (hm : s.index.lookup fp = some metadata)
    (refCount : ℤ) :
    AddressesFresh { s with index := s.index.insert fp { metadata with refCount } } :=
  h.insert le_rfl (h.nodup fp metadata hm) (h.below fp metadata hm)
    fun fp' metadata' hne hm' => h.disjoint fp fp' metadata metadata' hne.symm hm hm'

theorem AddressesFresh.notMem (h : AddressesFresh s) (hm : s.index.lookup fp = some metadata) :
    s.nextReplicaAddress ∉ metadata.replicaAddresses :=
  fun hmem => lt_irrefl _ (h.below fp metadata hm _ hmem)

theorem AddressesFresh.erase (h : AddressesFresh s) (fp : String) :
    AddressesFresh { s with index := s.index.erase fp } := by
  refine ⟨fun fp₁ m₁ h₁ => h.nodup fp₁ m₁ (lookup_of_erase h₁).2,
    fun fp₁ fp₂ m₁ m₂ hne h₁ h₂ => ?_,
    fun fp₁ m₁ h₁ => h.below fp₁ m₁ (lookup_of_erase h₁).2⟩
  exact h.disjoint fp₁ fp₂ m₁ m₂ hne (lookup_of_erase h₁).2 (lookup_of_erase h₂).2

theorem AddressesFresh.storeChunk (h : AddressesFresh s) (data : String) :
    AddressesFresh (s.storeChunk hash data) := by
  cases hm : s.index.lookup (fingerPrint hash data) with
  | some metadata =>
    simp only [ChunkStorageSystem.storeChunk, hm]
    exact h.setCount hm (metadata.refCount + 1)
  | none =>
    simp only [ChunkStorageSystem.storeChunk, hm]
    apply h.insert (Nat.le_succ _)
    · exact List.nodup_singleton s.nextReplicaAddress
    · intro a ha
      rw [List.mem_singleton.mp ha]
      exact Nat.lt_succ_self _
    · intro fp' metadata' _ hm'
      exact List.singleton_disjoint.mpr (h.notMem hm')

theorem AddressesFresh.replicateChunk (h : AddressesFresh s) (data : String) :
    AddressesFresh (s.replicateChunk hash data) := by
  cases hm : s.index.lookup (fingerPrint hash data) with
  | none =>
    simp only [ChunkStorageSystem.replicateChunk, hm]
    exact h
  | some metadata =>
    simp only [ChunkStorageSystem.replicateChunk, hm]
    apply h.insert (Nat.le_succ _)
    · exact (h.nodup _ _ hm).append (List.nodup_singleton _)
        (List.disjoint_singleton.mpr (h.notMem hm))
    · intro a ha
      rcases List.mem_append.mp ha with ha | ha
      · exact Nat.lt_succ_of_lt (h.below _ _ hm a ha)
      · rw [List.mem_singleton.mp ha]
        exact Nat.lt_succ_self _
    · intro fp' metadata' hne hm'
      exact List.disjoint_append_left.mpr ⟨h.disjoint _ _ _ _ hne.symm hm hm',
        List.singleton_disjoint.mpr (h.notMem hm')⟩

theorem AddressesFresh.deleteChunk (h : AddressesFresh s) (data : String) :
    AddressesFresh (s.deleteChunk hash data) := by
  cases hm : s.index.lookup (fingerPrint hash data) with
  | none =>
    simp only [ChunkStorageSystem.deleteChunk, hm]
    exact h
  | some metadata =>
    simp only [ChunkStorageSystem.deleteChunk, hm]
    split_ifs
    · exact h.erase _
    · exact h.setCount hm (metadata.refCount - 1)

/-- **Every call keeps the addresses distinct.** -/
theorem AddressesFresh.exec (h : AddressesFresh s) (c : Call) :
    AddressesFresh (ChunkStorage.exec hash s c) := by
  cases c with
  | storeChunk data => exact h.storeChunk data
  | lookupChunk data => exact h
  | replicateChunk data => exact h.replicateChunk data
  | deleteChunk data => exact h.deleteChunk data

theorem addressesFresh_run (calls : List Call) : AddressesFresh (run hash calls) :=
  foldl_invariant (fun _ c h => h.exec c) ⟨by simp, by simp, by simp⟩ calls

end Addresses

/-! ## The result -/

/-- **The chunk store counts references.**  Let the fingerprint tell the data that occur apart.
After every sequence of calls, data have an entry if references to them are left; the entry has
their number and the data, `lookupChunk` finds the data exactly then, and all replica addresses are
distinct. -/
theorem chunkStore_counts (hash : String → ℕ) (occurs : Set String)
    (hinj : Set.InjOn (fingerPrint hash) occurs) (calls : List Call)
    (hcalls : ∀ c ∈ calls, c.data ∈ occurs) :
    (∀ d ∈ occurs,
      (fingerPrint hash d ∈ (run hash calls).index ↔ 0 < references hash calls d) ∧
      (∀ metadata, (run hash calls).index.lookup (fingerPrint hash d) = some metadata →
        metadata.refCount = references hash calls d ∧ metadata.data = d) ∧
      (run hash calls).lookupChunk hash d
        = if 0 < references hash calls d then d else "Chunk NOT FOUND") ∧
    (∀ fp metadata, (run hash calls).index.lookup fp = some metadata →
      metadata.replicaAddresses.Nodup) ∧
    ∀ fp fp' metadata metadata', fp ≠ fp' → (run hash calls).index.lookup fp = some metadata →
      (run hash calls).index.lookup fp' = some metadata' →
      metadata.replicaAddresses.Disjoint metadata'.replicaAddresses := by
  have hfresh := @addressesFresh_run hash calls
  refine ⟨fun d hd => ?_, hfresh.nodup, hfresh.disjoint⟩
  have hcontent : ∀ d ∈ occurs,
      Function.invFunOn (fingerPrint hash) occurs (fingerPrint hash d) = d :=
    fun d hd => hinj.leftInvOn_invFunOn hd
  have hstart : Tracks counted ({} : ChunkStorageSystem).index (fun _ => 0)
      (Function.invFunOn (fingerPrint hash) occurs) := Tracks.empty _
  obtain ⟨refs, htracks, hrefs⟩ := tracks_foldl hinj hcontent hstart hcalls
  have hrefs : (refs (fingerPrint hash d) : ℤ) = references hash calls d := by
    have hd' := hrefs d hd
    rw [references]
    omega
  have hmem : fingerPrint hash d ∈ (run hash calls).index ↔ 0 < references hash calls d := by
    rw [← hrefs]
    exact (htracks.mem_iff _).trans Int.natCast_pos.symm
  refine ⟨hmem, fun metadata hm => ?_, ?_⟩
  · obtain ⟨-, hcount, hpayload⟩ := htracks.of_lookup hm
    exact ⟨hcount.trans hrefs, hpayload.trans (hcontent d hd)⟩
  · unfold ChunkStorageSystem.lookupChunk
    cases hm : (run hash calls).index.lookup (fingerPrint hash d) with
    | none =>
      rw [if_neg]
      rw [← hmem]
      exact Finmap.lookup_eq_none.mp hm
    | some metadata =>
      rw [if_pos (hmem.mp (Finmap.mem_of_lookup_eq_some hm))]
      exact (htracks.of_lookup hm).2.2.trans (hcontent d hd)

theorem chunkStore_counts_deleted :
    let calls : List Call := [.storeChunk "A", .storeChunk "BB", .replicateChunk "A",
      .storeChunk "A", .deleteChunk "A", .deleteChunk "BB", .deleteChunk "BB", .storeChunk "BB"]
    references String.length calls "A" = 1 ∧ references String.length calls "BB" = 1 ∧
      (run String.length calls).lookupChunk String.length "BB" = "BB" := by
  intro calls
  have hA : references String.length calls "A" = 1 := by decide +kernel
  have hB : references String.length calls "BB" = 1 := by decide +kernel
  have hinj : Set.InjOn (fingerPrint String.length) {"A", "BB"} := by
    rintro d (rfl | rfl) d' (rfl | rfl) heq
    · rfl
    · exact absurd heq (by decide)
    · exact absurd heq (by decide)
    · rfl
  have hcalls : ∀ c ∈ calls, c.data = "A" ∨ c.data = "BB" := by decide
  obtain ⟨hcounts, -, -⟩ := chunkStore_counts String.length {"A", "BB"} hinj calls hcalls
  obtain ⟨-, -, hlookup⟩ := hcounts "BB" (by simp)
  rw [if_pos (by rw [hB]; exact one_pos)] at hlookup
  exact ⟨hA, hB, hlookup⟩

end ChunkStorage
