/-
# The LRU caches that threads share

Model of `caching/LRUcache_multiThreaded.cpp` and `caching/LRUcache_multiThreaded_sharded.cpp`.
`put` is one section under the exclusive lock.  `get` has two sections: it looks the key up under
the shared lock, releases it, and then moves the entry to the front under the exclusive lock,
through the iterator of the first section.  Between the two, other threads may put, and evict the
entry.

The sharded cache is a vector of such caches, each under a lock of its own.  Its `get` also reads
the value in the second section, where the other class reads it in the first.
-/
import SystemsDesign.LRUcache
import SystemsDesign.TransitionSystem

namespace LRUThreads

open IterList TransitionSystem

/-- A `get` between its two sections: its key, the iterator it found and the value there. -/
structure Pending where
  key : ℤ
  found : ℕ
  val : ℤ
  deriving DecidableEq, Repr

/-- A cache, the `get` calls between their sections and the results of the `get` calls so far. -/
structure State where
  cache : LRUcache ℤ ℤ
  pending : List Pending := []
  results : List ℤ := []

/-- The sections of the calls; the second section of a `get` names the call by its place among the
pending ones. -/
inductive Section where
  | getFind (key : ℤ)
  | getSplice (call : ℕ)
  | put (key value : ℤ)
  deriving DecidableEq, Repr

/-- One section; `read` is what the second section of a `get` returns, unless its iterator dangles.
There is no step where the behaviour is undefined, or where there is no such pending call. -/
def stepWith (read : LRUcache ℤ ℤ → Pending → Option ℤ) (s : State) : Section → Option State
  | .getFind key =>
    match s.cache.mm.lookup key with
    | none => some { s with results := -1 :: s.results }
    | some found =>
      (s.cache.cache.get? found).map fun entry =>
        { s with pending := ⟨key, found, entry.2⟩ :: s.pending }
  | .getSplice call =>
    (s.pending[call]?).bind fun p =>
      (read s.cache p).map fun value =>
        { s with
          cache := { s.cache with cache := s.cache.cache.spliceFront p.found }
          pending := s.pending.eraseIdx call
          results := value :: s.results }
  | .put key value => (s.cache.put key value).map fun cache => { s with cache := cache }

/-- The sections of `LRUcache_multiThreaded.cpp`: the value was read in the first section. -/
def step : State → Section → Option State :=
  stepWith fun c p => if c.cache.Live p.found then some p.val else none

/-- The sections on a bucket of `LRUcache_multiThreaded_sharded.cpp`: the value is read after the
splice. -/
def bucketStep : State → Section → Option State :=
  stepWith fun c p => (c.cache.get? p.found).map Prod.snd

/-- A cache without calls. -/
def start (capacity : ℕ) : State := { cache := { tcapacity := capacity } }

/-- Every pending `get` holds an iterator to an entry that is still in the list. -/
def HoldsLive (s : State) : Prop := ∀ p ∈ s.pending, s.cache.cache.Live p.found

instance (s : State) : Decidable (HoldsLive s) :=
  inferInstanceAs (Decidable (∀ p ∈ s.pending, s.cache.cache.Live p.found))

/-- No put evicts the entry of a pending `get`. -/
def EvictsUnheld (s : State) : Section → Prop
  | .put key _ => ∀ p ∈ s.pending, ¬ s.cache.Evicts key p.found
  | _ => True

instance (s : State) : (a : Section) → Decidable (EvictsUnheld s a)
  | .put key _ => inferInstanceAs (Decidable (∀ p ∈ s.pending, ¬ s.cache.Evicts key p.found))
  | .getFind _ => isTrue trivial
  | .getSplice _ => isTrue trivial

/-! ## The sharded cache -/

/-- `N_BUCKETS`. -/
def nBuckets : ℕ := 8

/-- The buckets, each with its own lock. -/
structure Sharded where
  buckets : List State

/-- The constructor. -/
def Sharded.new (capacity : ℕ) : Sharded :=
  ⟨List.replicate nBuckets (start (max 1 (capacity / nBuckets)))⟩

/-- `getBucket`: the remainder has the sign of the key, and a negative index is undefined. -/
def getBucket (key : ℤ) : Option ℕ :=
  if 0 ≤ key.tmod nBuckets then some (key.tmod nBuckets).toNat else none

/-- The sections on the sharded cache; a pending `get` is named by its bucket and its place. -/
inductive ShardedSection where
  | getFind (key : ℤ)
  | getSplice (bucket call : ℕ)
  | put (key value : ℤ)
  deriving DecidableEq, Repr

/-- The bucket of a section and what it does there. -/
def ShardedSection.place : ShardedSection → Option (ℕ × Section)
  | .getFind key => (getBucket key).map fun b => (b, .getFind key)
  | .getSplice bucket call => some (bucket, .getSplice call)
  | .put key value => (getBucket key).map fun b => (b, .put key value)

/-- One section on the sharded cache. -/
def Sharded.step (s : Sharded) (a : ShardedSection) : Option Sharded :=
  a.place.bind fun t => (s.buckets[t.1]?).bind fun st =>
    (bucketStep st t.2).map fun st' => ⟨s.buckets.set t.1 st'⟩

/-- In every bucket the pending `get` calls hold entries that are still in the list. -/
def Sharded.HoldsLive (s : Sharded) : Prop := ∀ st ∈ s.buckets, LRUThreads.HoldsLive st

/-- No put evicts the entry of a pending `get` of its bucket. -/
def Sharded.EvictsUnheld (s : Sharded) (a : ShardedSection) : Prop :=
  ∀ t st, a.place = some t → s.buckets[t.1]? = some st → LRUThreads.EvictsUnheld st t.2

/-! ## One section -/

variable {read : LRUcache ℤ ℤ → Pending → Option ℤ} {s s' : State}

theorem put_isSome (h : s.cache.Sound) (key value : ℤ) :
    ∃ s', stepWith read s (.put key value) = some s' := by
  obtain ⟨c', hc', -⟩ := h.put key value
  exact ⟨_, by rw [stepWith, hc', Option.map_some]⟩

theorem sound_step {a : Section} (h : s.cache.Sound) (hs : stepWith read s a = some s') :
    s'.cache.Sound := by
  cases a with
  | getFind key =>
    rw [stepWith] at hs
    cases hlook : s.cache.mm.lookup key with
    | none =>
      rw [hlook] at hs
      obtain rfl := Option.some.inj hs
      exact h
    | some found =>
      rw [hlook] at hs
      obtain ⟨entry, -, rfl⟩ := Option.map_eq_some_iff.mp hs
      exact h
  | getSplice call =>
    rw [stepWith, Option.bind_eq_some_iff] at hs
    obtain ⟨p, -, hs⟩ := hs
    obtain ⟨value, -, rfl⟩ := Option.map_eq_some_iff.mp hs
    exact h.splice p.found
  | put key value =>
    obtain ⟨c', hc', hsound, -⟩ := h.put key value
    rw [stepWith, hc'] at hs
    obtain rfl := Option.some.inj hs
    exact hsound

/-- **What a section does to the held entries.**  They stay in the list exactly if the section does
not evict one of them. -/
theorem holdsLive_step_iff {a : Section} (hlive : HoldsLive s)
    (hs : stepWith read s a = some s') : HoldsLive s' ↔ EvictsUnheld s a := by
  cases a with
  | getFind key =>
    refine iff_of_true ?_ trivial
    rw [stepWith] at hs
    cases hlook : s.cache.mm.lookup key with
    | none =>
      rw [hlook] at hs
      obtain rfl := Option.some.inj hs
      exact hlive
    | some found =>
      rw [hlook] at hs
      obtain ⟨entry, hentry, rfl⟩ := Option.map_eq_some_iff.mp hs
      refine List.forall_mem_cons.mpr ⟨?_, hlive⟩
      exact live_iff.mpr ⟨entry, get?_eq_some_iff.mp hentry⟩
  | getSplice call =>
    refine iff_of_true ?_ trivial
    rw [stepWith, Option.bind_eq_some_iff] at hs
    obtain ⟨p, -, hs⟩ := hs
    obtain ⟨value, -, rfl⟩ := Option.map_eq_some_iff.mp hs
    intro q hq
    exact live_spliceFront.mpr (hlive q (List.mem_of_mem_eraseIdx hq))
  | put key value =>
    rw [stepWith] at hs
    obtain ⟨c', hc', rfl⟩ := Option.map_eq_some_iff.mp hs
    exact forall₂_congr fun p hp => LRUcache.live_put hc' (hlive p hp)

/-! ## Every interleaving -/

/-- The entries that pending calls hold stay in the list exactly as long as no put evicts one. -/
theorem always_holdsLive_iff (read : LRUcache ℤ ℤ → Pending → Option ℤ) {capacity : ℕ}
    (hpos : 1 ≤ capacity) (as : List Section) :
    Always (stepWith read) HoldsLive (start capacity) as
      ↔ Along (stepWith read) EvictsUnheld (start capacity) as := by
  refine always_iff_along (I := fun s : State => s.cache.Sound)
    (fun _ _ _ h _ _ hs => sound_step h hs)
    (fun _ _ _ _ hlive hs => holdsLive_step_iff hlive hs) (fun s a h _ hs => ?_)
    (LRUcache.sound_new hpos) (by simp [HoldsLive, start])
  cases a with
  | getFind key => trivial
  | getSplice call => trivial
  | put key value =>
    obtain ⟨s', hs'⟩ := put_isSome h key value
    rw [hs'] at hs
    cases hs

theorem Sharded.step_eq_some {s s' : Sharded} {a : ShardedSection} (hs : s.step a = some s') :
    ∃ t st st', a.place = some t ∧ s.buckets[t.1]? = some st ∧ bucketStep st t.2 = some st' ∧
      s' = ⟨s.buckets.set t.1 st'⟩ := by
  rw [Sharded.step, Option.bind_eq_some_iff] at hs
  obtain ⟨t, ht, hs⟩ := hs
  rw [Option.bind_eq_some_iff] at hs
  obtain ⟨st, hst, hs⟩ := hs
  obtain ⟨st', hst', rfl⟩ := Option.map_eq_some_iff.mp hs
  exact ⟨t, st, st', ht, hst, hst', rfl⟩

/-- The held entries of all buckets stay in their lists exactly if the section does not evict one
of its bucket. -/
theorem Sharded.holdsLive_step_iff {s s' : Sharded} {a : ShardedSection} (hlive : s.HoldsLive)
    (hs : s.step a = some s') : s'.HoldsLive ↔ s.EvictsUnheld a := by
  obtain ⟨t, st, st', ht, hst, hst', rfl⟩ := Sharded.step_eq_some hs
  have hmem : st ∈ s.buckets := List.mem_of_getElem? hst
  have hlt : t.1 < s.buckets.length := (List.getElem?_eq_some_iff.mp hst).1
  have hiff : LRUThreads.HoldsLive st' ↔ LRUThreads.EvictsUnheld st t.2 :=
    LRUThreads.holdsLive_step_iff (hlive st hmem) hst'
  have hcond : s.EvictsUnheld a ↔ LRUThreads.EvictsUnheld st t.2 := by
    constructor
    · exact fun h => h t st ht hst
    · intro h t₁ st₁ ht₁ hst₁
      obtain rfl := Option.some.inj (ht.symm.trans ht₁)
      obtain rfl := Option.some.inj (hst.symm.trans hst₁)
      exact h
  rw [hcond, ← hiff]
  constructor
  · exact fun h => h st' (List.mem_set hlt st')
  · intro h u hu
    rcases List.mem_or_eq_of_mem_set hu with hu | rfl
    · exact hlive u hu
    · exact h

/-- The same for the sharded cache: its buckets are independent of each other. -/
theorem Sharded.always_holdsLive_iff (capacity : ℕ) (as : List ShardedSection) :
    Always Sharded.step Sharded.HoldsLive (Sharded.new capacity) as
      ↔ Along Sharded.step Sharded.EvictsUnheld (Sharded.new capacity) as := by
  have hstart : ∀ st ∈ (Sharded.new capacity).buckets,
      st = start (max 1 (capacity / nBuckets)) := fun st hst => List.eq_of_mem_replicate hst
  refine always_iff_along (I := fun s : Sharded => ∀ st ∈ s.buckets, st.cache.Sound) ?_
    (fun _ _ _ _ hlive hs => Sharded.holdsLive_step_iff hlive hs) ?_ ?_ ?_
  · intro s a s' h _ _ hs u hu
    obtain ⟨t, st, st', -, hst, hst', rfl⟩ := Sharded.step_eq_some hs
    rcases List.mem_or_eq_of_mem_set hu with hu | rfl
    · exact h u hu
    · exact sound_step (h st (List.mem_of_getElem? hst)) hst'
  · -- Where no section is possible, the section is not a put.
    rintro s a h - hs ⟨b, sec⟩ st ht hst
    cases sec with
    | getFind key => trivial
    | getSplice call => trivial
    | put key value =>
      obtain ⟨st', hst'⟩ := put_isSome (h st (List.mem_of_getElem? hst)) key value
      rw [Sharded.step, ht, Option.bind_some, hst, Option.bind_some, bucketStep, hst'] at hs
      cases hs
  · intro st hst
    rw [hstart st hst]
    exact LRUcache.sound_new (le_max_left _ _)
  · intro st hst
    rw [hstart st hst]
    simp [LRUThreads.HoldsLive, start]

/-- **When `get` uses a live entry.**  For every positive capacity, the entries that pending `get`
calls hold are in the list in every state that an interleaving passes through if and only if no put
in it evicts an entry that a pending `get` holds; in the sharded cache as well. -/
theorem get_entry_live_iff (capacity : ℕ) (hpos : 1 ≤ capacity) :
    (∀ as, Always step HoldsLive (start capacity) as
      ↔ Along step EvictsUnheld (start capacity) as) ∧
    ∀ as, Always Sharded.step Sharded.HoldsLive (Sharded.new capacity) as
      ↔ Along Sharded.step Sharded.EvictsUnheld (Sharded.new capacity) as :=
  ⟨always_holdsLive_iff _ hpos, Sharded.always_holdsLive_iff capacity⟩

theorem get_entry_live_two :
    1 ≤ 2 ∧ Always step HoldsLive (start 2) [.put 1 10, .getFind 1, .put 2 20, .getSplice 0] :=
  ⟨by decide, ((get_entry_live_iff 2 (by decide)).1 _).mpr (by decide)⟩

/-- With room for one entry, a put between the two sections of a `get` evicts the entry that the
second section is about to splice. -/
theorem get_entry_evicted :
    ¬ Always step HoldsLive (start 1) [.put 1 10, .getFind 1, .put 2 20, .getSplice 0] := by
  intro h
  have hdead : (run step (start 1) [.put 1 10, .getFind 1, .put 2 20]).map
      (fun s => decide (HoldsLive s)) = some false := by decide
  obtain ⟨s, hs, hlive⟩ := Option.map_eq_some_iff.mp hdead
  exact of_decide_eq_false hlive (h _ [.getSplice 0] s rfl hs)

end LRUThreads
