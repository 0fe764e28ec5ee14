/-
# The bounds of the sharded LRU cache

Calls on `caching/LRUcache_multiThreaded_sharded.cpp`, one after the other.  The cache has eight
buckets; a key belongs to the bucket of its remainder, and every bucket is an LRU cache for an
eighth of the capacity, but for at least one entry.

Two things can go wrong.  The remainder of a negative key is negative unless it is zero, and there
is no bucket for it.  And for a capacity below eight the buckets together may hold more than the
capacity: as many entries as buckets have been written to.  `sharded_bounds_iff` says that nothing
else goes wrong.
-/
import SystemsDesign.LRUcacheThreads

namespace ShardedLRUs

open LRUThreads TransitionSystem

/-! ## The calls -/

/-- The class of the file: `buckets(N_BUCKETS)`, each with the list and the map of an LRU cache. -/
structure ShardedCache where
  buckets : Fin nBuckets → LRUcache ℤ ℤ

/-- The constructor: `per_bucket_capacity` is `max(1, capacity / N_BUCKETS)`. -/
def ShardedCache.new (capacity : ℕ) : ShardedCache :=
  ⟨fun _ => { tcapacity := max 1 (capacity / nBuckets) }⟩

/-- The bucket that `getBucket` refers to; an index outside of the vector is undefined. -/
def bucketOf (key : ℤ) : Option (Fin nBuckets) :=
  (getBucket key).bind fun b => if h : b < nBuckets then some ⟨b, h⟩ else none

/-- The calls. -/
inductive Call where
  | get (key : ℤ)
  | put (key value : ℤ)
  deriving DecidableEq, Repr

/-- The key of a call. -/
def Call.key : Call → ℤ
  | .get key => key
  | .put key _ => key

/-- What a call does to its bucket. -/
def Call.onBucket (b : LRUcache ℤ ℤ) : Call → Option (LRUcache ℤ ℤ)
  | .get key => some (b.get key).2
  | .put key value => b.put key value

/-- The cache after a call. -/
def ShardedCache.step (s : ShardedCache) (c : Call) : Option ShardedCache :=
  (bucketOf c.key).bind fun i =>
    (c.onBucket (s.buckets i)).map fun b => ⟨Function.update s.buckets i b⟩

/-- The number of entries of all buckets. -/
def ShardedCache.total (s : ShardedCache) : ℕ := ∑ i, (s.buckets i).entries.length

/-- The buckets that the puts of a sequence of calls go to. -/
def putBuckets (calls : List Call) : Finset (Fin nBuckets) :=
  (calls.filterMap fun
    | .put key _ => bucketOf key
    | .get _ => none).toFinset

/-! ## The index -/

theorem tmod_lt (key : ℤ) : key.tmod nBuckets < nBuckets :=
  Int.tmod_lt_of_pos key (by decide)

/-- The index is not negative exactly for the keys that are not, and for the multiples of eight. -/
theorem tmod_nonneg_iff (key : ℤ) : 0 ≤ key.tmod nBuckets ↔ 0 ≤ key ∨ (nBuckets : ℤ) ∣ key := by
  rcases le_or_gt 0 key with hkey | hkey
  · exact iff_of_true (Int.tmod_nonneg _ hkey) (Or.inl hkey)
  · have hneg : (-key).tmod nBuckets = -(key.tmod nBuckets) := Int.neg_tmod key nBuckets
    have hnonneg : 0 ≤ (-key).tmod nBuckets := Int.tmod_nonneg _ (by omega)
    rw [Int.dvd_iff_tmod_eq_zero]
    constructor
    · exact fun h => Or.inr (by omega)
    · exact fun h => (h.resolve_left (by omega)).ge

theorem bucketOf_isSome_iff (key : ℤ) : (bucketOf key).isSome ↔ 0 ≤ key.tmod nBuckets := by
  have hlt := tmod_lt key
  rw [bucketOf, getBucket]
  split_ifs with h
  · have hlt' : (key.tmod nBuckets).toNat < nBuckets := by omega
    simp [hlt', h]
  · simp [h]

/-! ## One call -/

/-- Every bucket is a sound LRU cache of its capacity, and the ones of `filled` are not empty. -/
structure Filled (capacity : ℕ) (filled : Finset (Fin nBuckets)) (s : ShardedCache) : Prop where
  sound : ∀ i, (s.buckets i).Sound
  capacity_eq : ∀ i, (s.buckets i).tcapacity = max 1 (capacity / nBuckets)
  nonempty_iff : ∀ i, (s.buckets i).entries ≠ [] ↔ i ∈ filled

variable {capacity : ℕ} {filled : Finset (Fin nBuckets)} {s : ShardedCache}

theorem filled_new (capacity : ℕ) : Filled capacity ∅ (ShardedCache.new capacity) where
  sound _ := LRUcache.sound_new (le_max_left _ _)
  capacity_eq _ := rfl
  nonempty_iff _ := iff_of_false (fun h => h rfl) (Finset.notMem_empty _)

theorem Filled.update (h : Filled capacity filled s) (i : Fin nBuckets) {b : LRUcache ℤ ℤ}
    (hb : b.Sound) (hcap : b.tcapacity = (s.buckets i).tcapacity)
    {filled' : Finset (Fin nBuckets)} (hi : b.entries ≠ [] ↔ i ∈ filled')
    (hother : ∀ j, j ≠ i → (j ∈ filled' ↔ j ∈ filled)) :
    Filled capacity filled' ⟨Function.update s.buckets i b⟩ := by
  refine ⟨fun j => ?_, fun j => ?_, fun j => ?_⟩ <;> rcases eq_or_ne j i with rfl | hj
  · simpa using hb
  · simpa [hj] using h.sound j
  · simpa [hcap] using h.capacity_eq j
  · simpa [hj] using h.capacity_eq j
  · simpa using hi
  · simpa [hj, hother j hj] using h.nonempty_iff j

/-- A call on a key that has a bucket fills that bucket if it is a put. -/
theorem Filled.step (h : Filled capacity filled s) {c : Call} (hc : (bucketOf c.key).isSome) :
    ∃ s', s.step c = some s' ∧ Filled capacity (filled ∪ putBuckets [c]) s' := by
  obtain ⟨i, hi⟩ := Option.isSome_iff_exists.mp hc
  have hsound := h.sound i
  rw [ShardedCache.step, hi, Option.bind_some]
  cases c with
  | get key =>
    obtain ⟨-, -, hcap, hentries⟩ := hsound.valid.get key
    have hputs : filled ∪ putBuckets [.get key] = filled := Finset.union_empty filled
    rw [hputs]
    refine ⟨_, rfl, h.update i (hsound.get key) hcap ?_ fun j _ => Iff.rfl⟩
    rw [← h.nonempty_iff i, hentries, LRU.get]
    cases hfind : LRU.find (s.buckets i).entries key with
    | none => rfl
    | some e =>
      exact iff_of_true (List.cons_ne_nil _ _) (List.ne_nil_of_mem (LRU.find_eq_some hfind).1)
  | put key value =>
    have hputs : putBuckets [.put key value] = {i} := by
      have hkey : bucketOf key = some i := hi
      simp [putBuckets, hkey]
    obtain ⟨b, hb, hvalid, hcap, hentries⟩ :=
      hsound.valid.put hsound.positive hsound.bounded key value
    obtain ⟨b', hb', hsound', -⟩ := hsound.put key value
    obtain rfl := Option.some.inj (hb.symm.trans hb')
    rw [Call.onBucket, hb, Option.map_some]
    refine ⟨_, rfl, h.update i hsound' hcap ?_ fun j hj => ?_⟩
    · rw [hentries, LRU.put, hputs]
      refine iff_of_true ?_ (by simp)
      have hpos := hsound.positive
      exact List.ne_nil_of_length_pos (by rw [List.length_take, List.length_cons]; omega)
    · rw [hputs, Finset.mem_union, Finset.mem_singleton]
      exact or_iff_left hj

theorem step_eq_none {c : Call} (hc : ¬ (bucketOf c.key).isSome) : s.step c = none := by
  rw [ShardedCache.step, Option.not_isSome_iff_eq_none.mp hc, Option.bind_none]

/-! ## Runs -/

theorem putBuckets_cons (c : Call) (calls : List Call) :
    putBuckets (c :: calls) = putBuckets [c] ∪ putBuckets calls := by
  rw [putBuckets, putBuckets, putBuckets, ← List.toFinset_append, ← List.filterMap_append]
  rfl

theorem putBuckets_append_left (done rest : List Call) :
    putBuckets done ⊆ putBuckets (done ++ rest) := by
  rw [putBuckets, putBuckets, List.filterMap_append, List.toFinset_append]
  exact Finset.subset_union_left

theorem Filled.run (h : Filled capacity filled s) (calls : List Call)
    (hcalls : ∀ c ∈ calls, (bucketOf c.key).isSome) :
    ∃ s', run ShardedCache.step s calls = some s' ∧
      Filled capacity (filled ∪ putBuckets calls) s' := by
  induction calls generalizing s filled with
  | nil => exact ⟨s, rfl, by rwa [show putBuckets [] = ∅ from rfl, Finset.union_empty]⟩
  | cons c calls ih =>
    obtain ⟨t, ht, hfilled⟩ := h.step (hcalls c (List.mem_cons_self ..))
    obtain ⟨s', hs', hfilled'⟩ := ih hfilled fun c' hc' => hcalls c' (List.mem_cons_of_mem _ hc')
    refine ⟨s', by rw [run_cons, ht, Option.bind_some, hs'], ?_⟩
    rwa [putBuckets_cons, ← Finset.union_assoc]

theorem isSome_of_run {s s' : ShardedCache} {calls : List Call}
    (h : run ShardedCache.step s calls = some s') : ∀ c ∈ calls, (bucketOf c.key).isSome := by
  induction calls generalizing s with
  | nil => simp
  | cons c calls ih =>
    rw [run_cons, Option.bind_eq_some_iff] at h
    obtain ⟨t, ht, hrun⟩ := h
    intro c' hc'
    rcases List.mem_cons.mp hc' with rfl | hc'
    · by_contra hnone
      rw [step_eq_none hnone] at ht
      cases ht
    · exact ih hrun c' hc'

/-! ## The number of entries -/

/-- With a capacity of at least eight the buckets together hold no more than the capacity. -/
theorem Filled.total_le (h : Filled capacity filled s) (hc : nBuckets ≤ capacity) :
    s.total ≤ capacity := by
  have hdiv : 1 ≤ capacity / nBuckets := (Nat.one_le_div_iff (by decide)).mpr hc
  calc s.total ≤ ∑ _i : Fin nBuckets, capacity / nBuckets := by
        refine Finset.sum_le_sum fun i _ => ?_
        have hbound := (h.sound i).bounded
        rwa [h.capacity_eq i, max_eq_right hdiv] at hbound
    _ = nBuckets * (capacity / nBuckets) := by
        rw [Finset.sum_const, Finset.card_univ, Fintype.card_fin, smul_eq_mul]
    _ ≤ capacity := Nat.mul_div_le _ _

/-- With a smaller capacity there is one entry in every bucket that has been written to. -/
theorem Filled.total_eq (h : Filled capacity filled s) (hc : capacity < nBuckets) :
    s.total = filled.card := by
  have hone : ∀ i, (s.buckets i).entries.length = if i ∈ filled then 1 else 0 := by
    intro i
    have hbound := (h.sound i).bounded
    rw [h.capacity_eq i, Nat.div_eq_of_lt hc] at hbound
    by_cases hi : i ∈ filled
    · have hpos := List.length_pos_iff.mpr ((h.nonempty_iff i).mpr hi)
      rw [if_pos hi]
      omega
    · rw [if_neg hi, List.length_eq_zero_iff]
      exact not_not.mp fun hne => hi ((h.nonempty_iff i).mp hne)
  rw [ShardedCache.total, Finset.sum_congr rfl fun i _ => hone i, Finset.sum_boole]
  simp

/-- **The bounds of the sharded cache.**  For every capacity, every index of a sequence of calls is
in range and the number of entries never exceeds the capacity exactly if every key is non-negative
or a multiple of eight, and the capacity is at least eight or at least the number of buckets that
are written to. -/
theorem sharded_bounds_iff (capacity : ℕ) (calls : List Call) :
    ((∀ c ∈ calls, 0 ≤ c.key.tmod nBuckets ∧ c.key.tmod nBuckets < nBuckets) ∧
      ∀ done rest, calls = done ++ rest →
        ∃ s, run ShardedCache.step (.new capacity) done = some s ∧ s.total ≤ capacity) ↔
    (∀ c ∈ calls, 0 ≤ c.key ∨ (nBuckets : ℤ) ∣ c.key) ∧
      (nBuckets ≤ capacity ∨ (putBuckets calls).card ≤ capacity) := by
  have hindex : ∀ c : Call, (bucketOf c.key).isSome ↔ 0 ≤ c.key ∨ (nBuckets : ℤ) ∣ c.key :=
    fun c => (bucketOf_isSome_iff c.key).trans (tmod_nonneg_iff c.key)
  have hrun : ∀ done : List Call, (∀ c ∈ done, (bucketOf c.key).isSome) →
      ∃ s, run ShardedCache.step (.new capacity) done = some s ∧
        Filled capacity (putBuckets done) s := by
    intro done hdone
    obtain ⟨s, hs, hfilled⟩ := (filled_new capacity).run done hdone
    exact ⟨s, hs, by rwa [Finset.empty_union] at hfilled⟩
  constructor
  · rintro ⟨-, hbound⟩
    obtain ⟨s, hs, htotal⟩ := hbound calls [] (List.append_nil calls).symm
    have hsome := isSome_of_run hs
    refine ⟨fun c hc => (hindex c).mp (hsome c hc), ?_⟩
    by_cases hlarge : nBuckets ≤ capacity
    · exact Or.inl hlarge
    · obtain ⟨s', hs', hfilled⟩ := hrun calls hsome
      obtain rfl := Option.some.inj (hs.symm.trans hs')
      rw [hfilled.total_eq (not_le.mp hlarge)] at htotal
      exact Or.inr htotal
  · rintro ⟨hkeys, hlarge⟩
    refine ⟨fun c hc => ⟨(tmod_nonneg_iff c.key).mpr (hkeys c hc), tmod_lt c.key⟩, ?_⟩
    rintro done rest rfl
    obtain ⟨s, hs, hfilled⟩ := hrun done fun c hc =>
      (hindex c).mpr (hkeys c (List.mem_append_left _ hc))
    refine ⟨s, hs, ?_⟩
    by_cases hge : nBuckets ≤ capacity
    · exact hfilled.total_le hge
    · rw [hfilled.total_eq (not_le.mp hge)]
      exact (Finset.card_le_card (putBuckets_append_left done rest)).trans
        (hlarge.resolve_left hge)

/-- The key -1 has the index -1, and a cache of capacity 1 holds two entries after two puts. -/
theorem sharded_bounds_fail :
    (Call.get (-1)).key.tmod nBuckets = -1 ∧ ((ShardedCache.new 1).step (.get (-1))).isNone ∧
      (run ShardedCache.step (.new 1) [.put 0 7, .put 1 7]).map ShardedCache.total = some 2 := by
  decide +kernel

end ShardedLRUs
