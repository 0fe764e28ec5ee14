/-
# The multi-tier cache is one LRU cache

The entries of the tiers, one tier after the other, are those of a single LRU cache whose capacity
is the sum of the capacities.  A key that is removed from a middle tier leaves a hole there; the
cascade that brings the key back to the front stops at that hole, so that again a tier has entries
only if the tiers before it are full.
-/
import SystemsDesign.MultiTierCache
import SystemsDesign.TransitionSystem

namespace MultiTier

open IterList

namespace Tiers

/-! ## Capacities and entries -/

/-- The capacities of the tiers. -/
def capacities (ts : Tiers) : List ℕ := ts.map Prod.fst

/-- No tier is larger than its capacity. -/
def Bounded (ts : Tiers) : Prop := ∀ t ∈ ts, t.2.length ≤ t.1

/-- A tier has entries only if the tiers before it are full. -/
def Packed (ts : Tiers) : Prop := ts.Pairwise fun a b => b.2 ≠ [] → a.2.length = a.1

/-- After one more entry the tiers will be packed: the tiers before the hole are full, and those
after it are packed, and empty if the hole has room for more than one entry. -/
def Ready : Tiers → Prop
  | [] => True
  | (capacity, es) :: rest =>
    if es.length < capacity then
      Packed rest ∧ (es.length + 1 < capacity → ∀ t ∈ rest, t.2 = [])
    else Ready rest

variable {ts : Tiers}

@[simp] theorem entries_cons (t : ℕ × List (ℤ × ℤ)) (ts : Tiers) :
    Tiers.entries (t :: ts) = t.2 ++ Tiers.entries ts := List.flatMap_cons

theorem bounded_cons {capacity : ℕ} {es : List (ℤ × ℤ)} :
    Bounded ((capacity, es) :: ts) ↔ es.length ≤ capacity ∧ Bounded ts :=
  List.forall_mem_cons

theorem packed_cons {capacity : ℕ} {es : List (ℤ × ℤ)} :
    Packed ((capacity, es) :: ts) ↔
      (∀ t ∈ ts, t.2 ≠ [] → es.length = capacity) ∧ Packed ts :=
  List.pairwise_cons

@[simp] theorem capacities_remove (ts : Tiers) (key : ℤ) :
    (ts.remove key).capacities = ts.capacities := by
  simp [capacities, remove, Function.comp_def]

/-- Removing the key from the tiers removes it from their entries. -/
theorem entries_remove (ts : Tiers) (key : ℤ) :
    (ts.remove key).entries = without Prod.fst key ts.entries := by
  induction ts with
  | nil => rfl
  | cons t ts ih =>
    rw [entries_cons, without, List.filter_append]
    exact congrArg _ ih

/-- Nothing is removed where the key does not occur. -/
theorem remove_eq_self {key : ℤ} (h : ∀ e ∈ ts.entries, e.1 ≠ key) : ts.remove key = ts := by
  conv_rhs => rw [← List.map_id ts]
  refine List.map_congr_left fun t ht => Prod.ext rfl (without_eq_self fun e he => ?_)
  exact h e (List.mem_flatMap.mpr ⟨t, ht, he⟩)

theorem Bounded.remove (h : Bounded ts) (key : ℤ) : Bounded (ts.remove key) := by
  intro t ht
  obtain ⟨u, hu, rfl⟩ := List.mem_map.mp ht
  exact (without_sublist key u.2).length_le.trans (h u hu)

/-- The tiers hold at most as many entries as their capacities allow. -/
theorem Bounded.length_entries_le (h : Bounded ts) : ts.entries.length ≤ ts.capacities.sum := by
  induction ts with
  | nil => exact le_rfl
  | cons t ts ih =>
    obtain ⟨ht, hts⟩ := List.forall_mem_cons.mp h
    rw [entries_cons, List.length_append]
    exact Nat.add_le_add ht (ih hts)

/-! ## The cascade -/

/-- The two ways a tier takes an entry. -/
theorem cascade_cons {capacity : ℕ} {es : List (ℤ × ℤ)} (rest : Tiers) (e : ℤ × ℤ)
    (hpos : 1 ≤ capacity) (hbound : es.length ≤ capacity) :
    (es.length < capacity ∧
        cascade ((capacity, es) :: rest) e = (capacity, e :: es) :: rest) ∨
      ∃ front last, es = front ++ [last] ∧ front.length + 1 = capacity ∧
        cascade ((capacity, es) :: rest) e = (capacity, e :: front) :: cascade rest last := by
  rw [cascade]
  by_cases hroom : es.length < capacity
  · exact Or.inl ⟨hroom, if_pos hroom⟩
  · refine Or.inr ?_
    rcases List.eq_nil_or_concat' es with rfl | ⟨front, last, rfl⟩
    · rw [List.length_nil] at hroom
      omega
    · refine ⟨front, last, rfl, ?_, ?_⟩
      · rw [List.length_append, List.length_singleton] at hroom hbound
        omega
      · rw [if_neg hroom, List.getLast?_concat, List.dropLast_concat]

theorem capacities_cascade (ts : Tiers) (e : ℤ × ℤ) :
    (cascade ts e).capacities = ts.capacities := by
  induction ts generalizing e with
  | nil => rfl
  | cons t ts ih =>
    obtain ⟨capacity, es⟩ := t
    rw [cascade]
    split_ifs
    · rfl
    · cases es.getLast? with
      | none => rfl
      | some last => exact congrArg (capacity :: ·) (ih last)

/-- The cascade keeps the tiers within their capacities. -/
theorem Bounded.cascade (h : Bounded ts) (hpos : ∀ c ∈ ts.capacities, 1 ≤ c) (e : ℤ × ℤ) :
    Bounded (cascade ts e) := by
  induction ts generalizing e with
  | nil => exact h
  | cons t ts ih =>
    obtain ⟨capacity, es⟩ := t
    obtain ⟨hcap, hcaps⟩ := List.forall_mem_cons.mp hpos
    obtain ⟨hes, hts⟩ := bounded_cons.mp h
    rcases cascade_cons ts e hcap hes with ⟨hroom, heq⟩ | ⟨front, last, -, hfull, heq⟩
    · rw [heq]
      exact bounded_cons.mpr ⟨hroom, hts⟩
    · rw [heq]
      exact bounded_cons.mpr ⟨hfull.le, ih hts hcaps last⟩

/-- **The entries after a cascade**: the new entry first, and what is beyond the capacities is
dropped. -/
theorem entries_cascade (h : Bounded ts) (hpos : ∀ c ∈ ts.capacities, 1 ≤ c) (e : ℤ × ℤ) :
    (cascade ts e).entries = (e :: ts.entries).take ts.capacities.sum := by
  induction ts generalizing e with
  | nil => rfl
  | cons t ts ih =>
    obtain ⟨capacity, es⟩ := t
    obtain ⟨hcap, hcaps⟩ := List.forall_mem_cons.mp hpos
    obtain ⟨hes, hts⟩ := bounded_cons.mp h
    have hsum : Tiers.capacities ((capacity, es) :: ts) = capacity :: Tiers.capacities ts := rfl
    rw [hsum, List.sum_cons]
    rcases cascade_cons ts e hcap hes with ⟨hroom, heq⟩ | ⟨front, last, rfl, hfull, heq⟩
    · have hle := hts.length_entries_le
      rw [heq, entries_cons, entries_cons, List.take_of_length_le]
      · rfl
      · simp only [List.length_cons, List.length_append]
        omega
    · have hlen : (e :: front).length = capacity := hfull
      rw [heq, entries_cons, entries_cons, ih hts hcaps last, List.append_assoc,
        ← List.cons_append, ← hlen, List.take_length_add_append]
      rfl

/-! ## Where the hole is -/

/-- Packed tiers that lose a key, or none, are ready for an entry. -/
theorem Packed.ready_remove (h : Packed ts) (hb : Bounded ts)
    (hnodup : (ts.entries.map Prod.fst).Nodup) (key : ℤ) : Ready (ts.remove key) := by
  induction ts with
  | nil => trivial
  | cons t ts ih =>
    obtain ⟨capacity, es⟩ := t
    obtain ⟨hfirst, hrest⟩ := packed_cons.mp h
    obtain ⟨hes, hts⟩ := bounded_cons.mp hb
    rw [entries_cons, List.map_append, List.nodup_append] at hnodup
    -- Behind a tier that is not full there are no entries.
    have hempty : es.length < capacity → ∀ t ∈ ts, t.2 = [] := fun hlt t ht =>
      not_not.mp fun hne => hlt.ne (hfirst t ht hne)
    show Ready ((capacity, without Prod.fst key es) :: Tiers.remove ts key)
    rw [Ready]
    by_cases hkey : ∃ e ∈ es, e.1 = key
    · obtain ⟨e, he, rfl⟩ := hkey
      have hlen : (without Prod.fst e.1 es).length + 1 = es.length := length_without hnodup.1 he
      have hother : ∀ e' ∈ Tiers.entries ts, e'.1 ≠ e.1 := fun e' he' heq =>
        hnodup.2.2 _ (List.mem_map_of_mem he) _ (List.mem_map_of_mem he') heq.symm
      rw [if_pos (by omega), hlen, remove_eq_self hother]
      exact ⟨hrest, hempty⟩
    · have hsame : without Prod.fst key es = es :=
        without_eq_self fun e he heq => hkey ⟨e, he, heq⟩
      rw [hsame]
      split_ifs with hroom
      · have hnone : ∀ e ∈ Tiers.entries ts, e.1 ≠ key := by
          intro e he
          obtain ⟨t, ht, het⟩ := List.mem_flatMap.mp he
          rw [hempty hroom t ht] at het
          cases het
        rw [remove_eq_self hnone]
        exact ⟨hrest, fun _ => hempty hroom⟩
      · exact ih hrest hts hnodup.2.1

theorem Ready.packed_cascade (h : Ready ts) (hb : Bounded ts) (hpos : ∀ c ∈ ts.capacities, 1 ≤ c)
    (e : ℤ × ℤ) : Packed (cascade ts e) := by
  induction ts generalizing e with
  | nil => exact List.Pairwise.nil
  | cons t ts ih =>
    obtain ⟨capacity, es⟩ := t
    obtain ⟨hcap, hcaps⟩ := List.forall_mem_cons.mp hpos
    obtain ⟨hes, hts⟩ := bounded_cons.mp hb
    rw [Ready] at h
    rcases cascade_cons ts e hcap hes with ⟨hroom, heq⟩ | ⟨front, last, rfl, hfull, heq⟩
    · rw [if_pos hroom] at h
      rw [heq]
      refine packed_cons.mpr ⟨fun t ht hne => ?_, h.1⟩
      show es.length + 1 = capacity
      by_contra hlt
      exact hne (h.2 (by omega) t ht)
    · rw [if_neg (by rw [List.length_append, List.length_singleton]; omega)] at h
      rw [heq]
      exact packed_cons.mpr ⟨fun _ _ _ => hfull, ih h hts hcaps last⟩

/-! ## The tiers over a whole run -/

/-- What the calls keep up. -/
structure Tidy (capacities : List ℕ) (ts : Tiers) : Prop where
  capacities_eq : ts.capacities = capacities
  bounded : Bounded ts
  packed : Packed ts
  nodup : (ts.entries.map Prod.fst).Nodup

variable {capacities : List ℕ}

/-- **An entry comes to the front.**  Its key is taken out of the tier that has it and the entry
runs through the tiers. -/
theorem Tidy.touch (h : Tidy capacities ts) (hpos : ∀ c ∈ capacities, 1 ≤ c) (e : ℤ × ℤ) :
    Tidy capacities (cascade (ts.remove e.1) e) ∧
      (cascade (ts.remove e.1) e).entries
        = (e :: without Prod.fst e.1 ts.entries).take capacities.sum := by
  have hcaps : (ts.remove e.1).capacities = capacities :=
    (capacities_remove ts e.1).trans h.capacities_eq
  have hb := h.bounded.remove e.1
  have hpos' : ∀ c ∈ (ts.remove e.1).capacities, 1 ≤ c := hcaps ▸ hpos
  have hentries := entries_cascade hb hpos' e
  rw [entries_remove, hcaps] at hentries
  refine ⟨⟨(capacities_cascade _ _).trans hcaps, hb.cascade hpos' e, ?_, ?_⟩, hentries⟩
  · exact (h.packed.ready_remove h.bounded h.nodup e.1).packed_cascade hb hpos' e
  · rw [hentries]
    apply List.Nodup.sublist ((List.take_sublist _ _).map _)
    refine List.nodup_cons.mpr ⟨notMem_map_without _ _, ?_⟩
    exact h.nodup.sublist ((without_sublist _ _).map _)

end Tiers

/-! ## The cache and the LRU cache it stands for -/

/-- The calls of a client. -/
inductive Call where
  | put (key value : ℤ)
  | get (key : ℤ)
  deriving DecidableEq, Repr

/-- A cache and the results of the `get` calls so far, the last one first. -/
structure Session where
  cache : MultiTierCache
  results : List ℤ := []

/-- A call on the multi-tier cache. -/
def Session.call (s : Session) : Call → Option Session
  | .put key value => (s.cache.put key value).map fun m => ⟨m, s.results⟩
  | .get key => (s.cache.get key).map fun r => ⟨r.2, r.1 :: s.results⟩

/-- The entries of a single LRU cache, most recently used first, and the results so far. -/
structure Reference where
  entries : List (ℤ × ℤ) := []
  results : List ℤ := []

/-- A call on the single LRU cache. -/
def Reference.call (capacity : ℕ) (r : Reference) : Call → Reference
  | .put key value => ⟨LRU.put capacity r.entries key value, r.results⟩
  | .get key =>
    ⟨LRU.get r.entries key, ((LRU.find r.entries key).map Prod.snd).getD (-1) :: r.results⟩

/-- The cache holds the entries of the LRU cache, tier by tier. -/
structure Follows (capacities : List ℕ) (s : Session) (r : Reference) : Prop where
  valid : s.cache.Valid
  tidy : s.cache.view.Tidy capacities
  entries_eq : s.cache.view.entries = r.entries
  results_eq : s.results = r.results

variable {capacities : List ℕ}

theorem Follows.new (hpos : ∀ c ∈ capacities, 1 ≤ c) :
    Follows capacities { cache := MultiTierCache.new capacities } {} := by
  have htier : ∀ t ∈ (MultiTierCache.new capacities).tiers,
      ∃ c ∈ capacities, ({ tcapacity := c } : LRUcache ℤ ℤ) = t := fun t ht => List.mem_map.mp ht
  have hview : (MultiTierCache.new capacities).view = capacities.map fun c => (c, []) := by
    rw [MultiTierCache.view, MultiTierCache.new, List.map_map]
    rfl
  have hempty : ∀ t ∈ (MultiTierCache.new capacities).view, t.2 = [] := by
    rw [hview]
    simp
  have hentries : (MultiTierCache.new capacities).view.entries = [] :=
    List.flatMap_eq_nil_iff.mpr hempty
  refine ⟨⟨fun t ht => ?_, fun t ht => ?_, fun key level => ?_⟩, ⟨?_, fun t ht => ?_, ?_, ?_⟩,
    hentries, rfl⟩
  · obtain ⟨c, -, rfl⟩ := htier t ht
    exact LRUcache.valid_new c
  · obtain ⟨c, hc, rfl⟩ := htier t ht
    exact hpos c hc
  · apply iff_of_false (by simp [MultiTierCache.new])
    rintro ⟨t, ht, hkey⟩
    obtain ⟨c, -, rfl⟩ := htier t (List.mem_of_getElem? ht)
    cases hkey
  · rw [hview, Tiers.capacities, List.map_map]
    exact List.map_id _
  · rw [hempty t ht]
    exact Nat.zero_le _
  · exact List.pairwise_of_forall_mem_list fun a _ b hb hne => absurd (hempty b hb) hne
  · rw [hentries]
    exact List.nodup_nil

theorem Follows.call {s : Session} {r : Reference} (h : Follows capacities s r)
    (hpos : ∀ c ∈ capacities, 1 ≤ c) (c : Call) :
    ∃ s', s.call c = some s' ∧ Follows capacities s' (r.call capacities.sum c) := by
  cases c with
  | put key value =>
    obtain ⟨m', hm', hvalid, hview⟩ := h.valid.put key value
    obtain ⟨htidy, hentries⟩ := h.tidy.touch hpos (key, value)
    refine ⟨⟨m', s.results⟩, by rw [Session.call, hm', Option.map_some], hvalid, ?_, ?_,
      h.results_eq⟩
    · rw [hview]
      exact htidy
    · rw [hview, hentries, h.entries_eq]
      rfl
  | get key =>
    obtain ⟨m', hm', hvalid, hview⟩ := h.valid.get key
    refine ⟨⟨m', _⟩, by rw [Session.call, hm', Option.map_some], ?_⟩
    have hresults : ((LRU.find s.cache.view.entries key).map Prod.snd).getD (-1) :: s.results
        = (r.call capacities.sum (.get key)).results := by
      rw [h.entries_eq, h.results_eq]
      rfl
    suffices hshape : m'.view.Tidy capacities ∧ m'.view.entries = LRU.get r.entries key from
      ⟨hvalid, hshape.1, hshape.2, hresults⟩
    rw [hview, LRU.get, ← h.entries_eq]
    cases hfind : LRU.find s.cache.view.entries key with
    | none => exact ⟨h.tidy, rfl⟩
    | some e =>
      obtain ⟨he, rfl⟩ := LRU.find_eq_some hfind
      obtain ⟨htidy, hentries⟩ := h.tidy.touch hpos e
      refine ⟨htidy, hentries.trans (List.take_of_length_le ?_)⟩
      have hlen := length_without h.tidy.nodup he
      have hle := h.tidy.bounded.length_entries_le
      rw [h.tidy.capacities_eq] at hle
      rw [List.length_cons]
      omega

/-- **The multi-tier cache equals one LRU cache.**  For all positive capacities and all calls the
results and the entries are those of a single LRU cache whose capacity is the sum; the tiers, one
after the other and each from front to back, are its recency order, a tier has entries only if all
earlier tiers are full, and `key_to_tier` maps exactly the cached keys to their tiers. -/
theorem multiTier_eq_lru (capacities : List ℕ) (hpos : ∀ c ∈ capacities, 1 ≤ c)
    (calls : List Call) :
    ∃ s : Session,
      TransitionSystem.run Session.call { cache := MultiTierCache.new capacities } calls = some s ∧
      s.results = (calls.foldl (Reference.call capacities.sum) {}).results ∧
      s.cache.tiers.flatMap LRUcache.entries
        = (calls.foldl (Reference.call capacities.sum) {}).entries ∧
      s.cache.tiers.map LRUcache.tcapacity = capacities ∧
      (∀ t ∈ s.cache.tiers, t.entries.length ≤ t.tcapacity) ∧
      s.cache.tiers.Pairwise (fun t u => u.entries ≠ [] → t.entries.length = t.tcapacity) ∧
      ∀ key level, s.cache.keyToTier.lookup key = some level ↔
        ∃ tier, s.cache.tiers[level]? = some tier ∧ key ∈ tier.entries.map Prod.fst := by
  obtain ⟨s, hrun, h⟩ := TransitionSystem.run_refines (R := Follows capacities)
    (fun _ _ c h => h.call hpos c) (Follows.new hpos) calls
  have hentries := h.entries_eq
  have hcaps := h.tidy.capacities_eq
  have hpacked := h.tidy.packed
  rw [MultiTierCache.view, Tiers.entries, List.flatMap_map] at hentries
  rw [MultiTierCache.view, Tiers.capacities, List.map_map] at hcaps
  rw [MultiTierCache.view, Tiers.Packed, List.pairwise_map] at hpacked
  refine ⟨s, hrun, h.results_eq, hentries, hcaps, fun t ht => ?_, hpacked, h.valid.exact⟩
  exact h.tidy.bounded _ (List.mem_map_of_mem ht)

theorem multiTier_eq_lru_two :
    (∀ c ∈ [1, 1], 1 ≤ c) ∧ ∃ s : Session,
      TransitionSystem.run Session.call { cache := MultiTierCache.new [1, 1] }
        [.put 1 10, .put 2 20, .get 1] = some s ∧ s.results = [10] := by
  obtain ⟨s, hrun, hresults, -⟩ :=
    multiTier_eq_lru [1, 1] (by decide) [.put 1 10, .put 2 20, .get 1]
  exact ⟨by decide, s, hrun, hresults⟩

end MultiTier
