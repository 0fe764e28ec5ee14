/-
# The cache with priorities

Model of `caching/LRUcache_priority_based_eviction.cpp`: the nodes in a `std::list`, a hash map from
keys to iterators, and a `std::set` of the iterators that is ordered by the priorities and keys of
the nodes they point to.  A put of a new key into a full cache evicts the first node of the set.

The comparator of the set reads the nodes through the iterators, so the order of the set depends on
data that the cache changes.  The operations of a set are defined only while its elements are in
the order of the comparator; here they fail otherwise.  Every change of a priority is made while
the iterator is out of the set, and no call ever fails.
-/
import SystemsDesign.ComparatorSet
import SystemsDesign.IterList
import SystemsDesign.TransitionSystem

namespace PriorityCaches

open IterList

/-- A node of the cache. -/
structure Node where
  key : ℤ
  value : ℤ
  priority : ℤ
  deriving DecidableEq, Repr

/-- `Compare`, on the nodes that the iterators point to: the lower priority comes first. -/
def Node.Compare (a b : Node) : Prop :=
  if a.priority ≠ b.priority then a.priority < b.priority else a.key < b.key

instance (a b : Node) : Decidable (a.Compare b) :=
  inferInstanceAs (Decidable (if a.priority ≠ b.priority then _ else _))

/-- `Compare`, on iterators into the list. -/
def before (c : IterList Node) (i j : ℕ) : Prop :=
  ∃ a, c.get? i = some a ∧ ∃ b, c.get? j = some b ∧ a.Compare b

instance (c : IterList Node) : DecidableRel (before c) := fun i j =>
  match hi : c.get? i, hj : c.get? j with
  | some a, some b => decidable_of_iff (a.Compare b) (by simp [before, hi, hj])
  | none, _ => isFalse (by simp [before, hi])
  | some _, none => isFalse (by simp [before, hj])

/-- The fields of `PriorityCache` and the lines printed so far, the last one first. -/
structure PriorityCache where
  capacity : ℕ
  cache : IterList Node := IterList.empty
  mm : Finmap fun _ : ℤ => ℕ := ∅
  prioritySet : List ℕ := []
  printed : List String := []

namespace PriorityCache

/-- The nodes in the order of the list. -/
def entries (s : PriorityCache) : List Node := s.cache.values

/-- The nodes in the order of `priority_set`. -/
def ranking (s : PriorityCache) : List Node := s.prioritySet.filterMap s.cache.get?

/-- The set can be searched for an iterator: the comparator reads live nodes only, and the elements
are in its order. -/
def Searchable (s : PriorityCache) (i : ℕ) : Prop :=
  (∀ j ∈ i :: s.prioritySet, s.cache.Live j) ∧ ComparatorSet.Sorted (before s.cache) s.prioritySet

instance (s : PriorityCache) (i : ℕ) : Decidable (s.Searchable i) :=
  inferInstanceAs (Decidable (_ ∧ _))

/-- `priority_set.erase(node_iter)`. -/
def setErase (s : PriorityCache) (i : ℕ) : Option PriorityCache :=
  if s.Searchable i then
    some { s with prioritySet := ComparatorSet.erase (before s.cache) i s.prioritySet }
  else none

/-- `priority_set.insert(node_iter)`. -/
def setInsert (s : PriorityCache) (i : ℕ) : Option PriorityCache :=
  if s.Searchable i then
    some { s with prioritySet := ComparatorSet.insert (before s.cache) i s.prioritySet }
  else none

/-- The part that `put` and `update_priority` share: a node is taken out of the set, changed and
inserted again. -/
def rewrite (s : PriorityCache) (i : ℕ) (change : Node → Node) : Option PriorityCache :=
  (s.setErase i).bind fun s => { s with cache := s.cache.modify i change }.setInsert i

/-- `get`; to read through a dangling iterator is undefined. -/
def get (s : PriorityCache) (key : ℤ) : Option ℤ :=
  match s.mm.lookup key with
  | none => some (-1)
  | some found => (s.cache.get? found).map Node.value

/-- The eviction in `put`: the first iterator of the set leaves it, and its node the cache. -/
def evict (s : PriorityCache) (victim : ℕ) (others : List ℕ) : Option PriorityCache :=
  (s.cache.get? victim).map fun node =>
    { s with
      printed := ("Evicting key = " ++ toString node.key ++ " Priority " ++ toString node.priority
        ++ " Value " ++ toString node.value) :: s.printed
      prioritySet := others
      mm := s.mm.erase node.key
      cache := s.cache.erase victim }

/-- The end of `put`: a new node at the front of the list. -/
def insertNode (s : PriorityCache) (node : Node) : Option PriorityCache :=
  { s with
    cache := s.cache.pushFront node
    mm := s.mm.insert node.key s.cache.next }.setInsert s.cache.next

/-- `put`. -/
def put (s : PriorityCache) (key value priority : ℤ) : Option PriorityCache :=
  match s.mm.lookup key with
  | some found => s.rewrite found fun node => { node with value := value, priority := priority }
  | none =>
    if s.capacity = 0 then some s
    else
      (match s.prioritySet with
        | victim :: others => if s.mm.keys.card = s.capacity then s.evict victim others else some s
        | [] => some s).bind fun s => s.insertNode ⟨key, value, priority⟩

/-- `update_priority`. -/
def updatePriority (s : PriorityCache) (key newPriority : ℤ) : Option PriorityCache :=
  match s.mm.lookup key with
  | none => some s
  | some found => s.rewrite found fun node => { node with priority := newPriority }

/-- `erase`. -/
def erase (s : PriorityCache) (key : ℤ) : Option PriorityCache :=
  match s.mm.lookup key with
  | none => some s
  | some found =>
    (s.setErase found).map fun s =>
      { s with cache := s.cache.erase found, mm := s.mm.erase key }

end PriorityCache

/-- The calls on a cache. -/
inductive Call where
  | put (key value priority : ℤ)
  | get (key : ℤ)
  | updatePriority (key newPriority : ℤ)
  | erase (key : ℤ)
  deriving DecidableEq, Repr

/-- The cache after a call. -/
def PriorityCache.step (s : PriorityCache) : Call → Option PriorityCache
  | .put key value priority => s.put key value priority
  | .get key => (s.get key).map fun _ => s
  | .updatePriority key newPriority => s.updatePriority key newPriority
  | .erase key => s.erase key

/-- The key and value that a call puts. -/
def Call.put? : Call → Option (ℤ × ℤ)
  | .put key value _ => some (key, value)
  | _ => none

/-- A cache and the keys and values put so far, the last one first. -/
structure History where
  cache : PriorityCache
  puts : List (ℤ × ℤ)

/-- A new cache. -/
def History.start (capacity : ℕ) : History := ⟨{ capacity := capacity }, []⟩

/-- A call, recorded in the history. -/
def History.call (h : History) (c : Call) : Option History :=
  (h.cache.step c).map fun s => ⟨s, c.put?.toList ++ h.puts⟩

/-! ## The comparator -/

theorem Node.compare_iff {a b : Node} : a.Compare b ↔
    toLex (a.priority, a.key) < toLex (b.priority, b.key) := by
  rw [Node.Compare, Prod.Lex.toLex_lt_toLex]
  split_ifs with hne
  · exact ⟨Or.inl, fun h => h.resolve_right fun hr => hne hr.1⟩
  · rw [not_not] at hne
    simp [hne]

theorem Node.compare_or_compare {a b : Node} (h : a.key ≠ b.key) : a.Compare b ∨ b.Compare a := by
  rw [Node.compare_iff, Node.compare_iff]
  refine lt_or_gt_of_ne fun heq => h ?_
  exact (Prod.mk.inj (toLex.injective heq)).2

variable {c c' : IterList Node} {i j : ℕ}

instance : IsTrans ℕ (before c) where
  trans := by
    rintro i j k ⟨a, ha, b, hb, hab⟩ ⟨b', hb', d, hd, hbd⟩
    obtain rfl := Option.some.inj (hb.symm.trans hb')
    rw [Node.compare_iff] at hab hbd
    exact ⟨a, ha, d, hd, Node.compare_iff.mpr (hab.trans hbd)⟩

instance : Std.Irrefl (before c) where
  irrefl := by
    rintro i ⟨a, ha, b, hb, hab⟩
    obtain rfl := Option.some.inj (ha.symm.trans hb)
    exact lt_irrefl _ (Node.compare_iff.mp hab)

/-- The comparator sees the nodes that the two iterators point to. -/
theorem before_congr (hi : c'.get? i = c.get? i) (hj : c'.get? j = c.get? j)
    (h : before c i j) : before c' i j := by
  obtain ⟨a, ha, b, hb, hab⟩ := h
  exact ⟨a, hi.trans ha, b, hj.trans hb, hab⟩

/-! ## The set and the list -/

namespace PriorityCache

variable {s : PriorityCache} {out : Option ℕ}

/-- The map is right, and the set holds the iterators to all nodes, but for the one that is out of
it, in the order of the comparator. -/
structure Ranked (s : PriorityCache) (out : Option ℕ) : Prop where
  indexed : s.cache.Indexed Node.key s.mm
  mem_iff : ∀ i, i ∈ s.prioritySet ↔ s.cache.Live i ∧ out ≠ some i
  sorted : ComparatorSet.Sorted (before s.cache) s.prioritySet

/-- Two iterators to different nodes are comparable. -/
theorem Ranked.comparable (h : s.Ranked out) (hi : s.cache.Live i) (hj : s.cache.Live j)
    (hne : i ≠ j) : ComparatorSet.Comparable (before s.cache) i j := by
  obtain ⟨a, ha⟩ := live_iff.mp hi
  obtain ⟨b, hb⟩ := live_iff.mp hj
  have hkey : a.key ≠ b.key := by
    intro heq
    have hlook : s.mm.lookup b.key = some j := (h.indexed _ _).mpr ⟨b, hb, rfl⟩
    exact hne ((h.indexed.addr_eq_iff hlook ha).mpr heq)
  have hga := get?_eq_some_iff.mpr ha
  have hgb := get?_eq_some_iff.mpr hb
  refine (Node.compare_or_compare hkey).imp (fun hab => ?_) fun hba => ?_
  · exact ⟨a, hga, b, hgb, hab⟩
  · exact ⟨b, hgb, a, hga, hba⟩

theorem Ranked.searchable (h : s.Ranked out) (hi : s.cache.Live i) : s.Searchable i := by
  refine ⟨fun j hj => ?_, h.sorted⟩
  rcases List.mem_cons.mp hj with rfl | hj
  · exact hi
  · exact ((h.mem_iff j).mp hj).1

theorem Ranked.setErase (h : s.Ranked none) (hi : s.cache.Live i) :
    ∃ set, s.setErase i = some { s with prioritySet := set } ∧
      Ranked { s with prioritySet := set } (some i) := by
  refine ⟨_, if_pos (h.searchable hi), h.indexed, fun j => ?_, h.sorted.erase i⟩
  rw [ComparatorSet.mem_erase, h.mem_iff j]
  constructor
  · rintro ⟨⟨hj, -⟩, hcomp⟩
    refine ⟨hj, fun heq => ?_⟩
    obtain rfl := Option.some.inj heq
    exact hcomp.elim (Std.Irrefl.irrefl i) (Std.Irrefl.irrefl i)
  · rintro ⟨hj, hne⟩
    exact ⟨⟨hj, by simp⟩, h.comparable hj hi fun heq => hne (congrArg some heq.symm)⟩

theorem Ranked.setInsert (h : s.Ranked (some i)) (hi : s.cache.Live i) :
    ∃ set, s.setInsert i = some { s with prioritySet := set } ∧
      Ranked { s with prioritySet := set } none := by
  have hcomp : ∀ j ∈ s.prioritySet, ComparatorSet.Comparable (before s.cache) j i := by
    intro j hj
    obtain ⟨hlive, hne⟩ := (h.mem_iff j).mp hj
    exact h.comparable hlive hi fun heq => hne (congrArg some heq.symm)
  refine ⟨_, if_pos (h.searchable hi), h.indexed, fun j => ?_, h.sorted.insert hcomp⟩
  rw [ComparatorSet.mem_insert hcomp, h.mem_iff j]
  constructor
  · rintro (rfl | ⟨hj, -⟩)
    · exact ⟨hi, by simp⟩
    · exact ⟨hj, by simp⟩
  · rintro ⟨hj, -⟩
    by_cases heq : j = i
    · exact Or.inl heq
    · exact Or.inr ⟨hj, fun hsome => heq (Option.some.inj hsome).symm⟩

theorem Ranked.sorted_congr (h : s.Ranked out)
    (hsame : ∀ j ∈ s.prioritySet, c'.get? j = s.cache.get? j) :
    ComparatorSet.Sorted (before c') s.prioritySet :=
  h.sorted.congr fun j hj k hk hjk => before_congr (hsame j hj) (hsame k hk) hjk

/-- The node of the iterator that is out is changed, but not its key. -/
theorem Ranked.modify (h : s.Ranked (some i)) {f : Node → Node}
    (hkey : ∀ n, (f n).key = n.key) :
    Ranked { s with cache := s.cache.modify i f } (some i) := by
  refine ⟨h.indexed.modify i hkey, fun j => ?_, h.sorted_congr fun j hj => ?_⟩
  · rw [h.mem_iff j, live_modify]
  · have hne : j ≠ i := fun heq => ((h.mem_iff j).mp hj).2 (congrArg some heq.symm)
    exact get?_modify_of_ne hne

/-- The node of the iterator that is out is erased. -/
theorem Ranked.erase (h : s.Ranked (some i)) {key : ℤ} (hkey : s.mm.lookup key = some i) :
    Ranked { s with cache := s.cache.erase i, mm := s.mm.erase key } none := by
  refine ⟨h.indexed.erase hkey, fun j => ?_, h.sorted_congr fun j hj => ?_⟩
  · rw [h.mem_iff j, live_erase]
    simp [eq_comm]
  · have hne : j ≠ i := fun heq => ((h.mem_iff j).mp hj).2 (congrArg some heq.symm)
    exact get?_erase_of_ne hne

/-- A new node, whose iterator is not yet in the set. -/
theorem Ranked.pushFront (h : s.Ranked none) {node : Node} (hnone : s.mm.lookup node.key = none) :
    Ranked { s with cache := s.cache.pushFront node, mm := s.mm.insert node.key s.cache.next }
      (some s.cache.next) := by
  refine ⟨h.indexed.pushFront hnone, fun j => ?_, h.sorted_congr fun j hj => ?_⟩
  · rw [h.mem_iff j, live_pushFront]
    constructor
    · rintro ⟨hj, -⟩
      exact ⟨Or.inr hj, fun heq => hj.lt_next.ne (Option.some.inj heq).symm⟩
    · rintro ⟨rfl | hj, hne⟩
      · exact absurd rfl hne
      · exact ⟨hj, by simp⟩
  · exact get?_pushFront_of_live ((h.mem_iff j).mp hj).1

/-! ## The parts of the calls -/

theorem Ranked.rewrite (h : s.Ranked none) {key : ℤ} (hfound : s.mm.lookup key = some i)
    {f : Node → Node} (hkey : ∀ n, (f n).key = n.key) :
    ∃ s', s.rewrite i f = some s' ∧ s'.Ranked none ∧ s'.capacity = s.capacity ∧
      s'.entries = s.entries.map fun n => if n.key = key then f n else n := by
  obtain ⟨n, hmem, -⟩ := h.indexed.found hfound
  have hlive : s.cache.Live i := live_iff.mpr ⟨n, hmem⟩
  obtain ⟨set, herase, hout⟩ := h.setErase hlive
  obtain ⟨set', hinsert, hin⟩ := (hout.modify hkey).setInsert (live_modify.mpr hlive)
  refine ⟨_, ?_, hin, rfl, h.indexed.values_modify hfound f⟩
  rw [PriorityCache.rewrite, herase, Option.bind_some, hinsert]

/-- `erase` takes the key out of the three structures. -/
theorem Ranked.eraseKey (h : s.Ranked none) (key : ℤ) :
    ∃ s', s.erase key = some s' ∧ s'.Ranked none ∧ s'.capacity = s.capacity ∧
      s'.entries = without Node.key key s.entries := by
  rw [PriorityCache.erase]
  cases hfound : s.mm.lookup key with
  | none =>
    refine ⟨s, rfl, h, rfl, ?_⟩
    exact (without_eq_self (h.indexed.lookup_eq_none_iff.mp hfound)).symm
  | some i =>
    obtain ⟨n, hmem, -⟩ := h.indexed.found hfound
    obtain ⟨set, herase, hout⟩ := h.setErase (live_iff.mpr ⟨n, hmem⟩)
    refine ⟨_, ?_, hout.erase hfound, rfl, h.indexed.values_erase hfound⟩
    simp only [herase, Option.map_some]

theorem Ranked.insertNode (h : s.Ranked none) {n : Node} (hnone : s.mm.lookup n.key = none) :
    ∃ s', s.insertNode n = some s' ∧ s'.Ranked none ∧ s'.capacity = s.capacity ∧
      s'.entries = n :: s.entries := by
  obtain ⟨set, hinsert, hin⟩ := (h.pushFront hnone).setInsert (live_pushFront.mpr (Or.inl rfl))
  exact ⟨_, hinsert, hin, rfl, rfl⟩

/-- The first iterator of the set points to the node that comes before all others. -/
theorem Ranked.first_least (h : s.Ranked none) {victim : ℕ} {others : List ℕ}
    (hset : s.prioritySet = victim :: others) :
    ∃ node, (victim, node) ∈ s.cache.nodes ∧ ∀ n ∈ s.entries, n ≠ node → node.Compare n := by
  have hlive : s.cache.Live victim := ((h.mem_iff victim).mp (hset ▸ List.mem_cons_self)).1
  obtain ⟨node, hnode⟩ := live_iff.mp hlive
  refine ⟨node, hnode, fun n hn hne => ?_⟩
  obtain ⟨j, hj⟩ := mem_values.mp hn
  have hmem : j ∈ victim :: others := by
    rw [← hset]
    exact (h.mem_iff j).mpr ⟨live_iff.mpr ⟨n, hj⟩, by simp⟩
  have hjv : j ≠ victim := by
    rintro rfl
    exact hne (congrArg Prod.snd (node_unique hj hnode rfl))
  have hsorted := h.sorted
  rw [hset] at hsorted
  obtain ⟨a, ha, b, hb, hab⟩ :=
    (List.pairwise_cons.mp hsorted).1 j ((List.mem_cons.mp hmem).resolve_left hjv)
  obtain rfl := Option.some.inj (ha.symm.trans (get?_eq_some_iff.mpr hnode))
  obtain rfl := Option.some.inj (hb.symm.trans (get?_eq_some_iff.mpr hj))
  exact hab

/-- The eviction takes the first node of the set out of the three structures. -/
theorem Ranked.evict (h : s.Ranked none) {victim : ℕ} {others : List ℕ}
    (hset : s.prioritySet = victim :: others) {node : Node}
    (hnode : (victim, node) ∈ s.cache.nodes) :
    ∃ s', s.evict victim others = some s' ∧ s'.Ranked none ∧ s'.capacity = s.capacity ∧
      s'.entries = without Node.key node.key s.entries ∧ s'.mm = s.mm.erase node.key := by
  have hlook : s.mm.lookup node.key = some victim := (h.indexed _ _).mpr ⟨node, hnode, rfl⟩
  have hnodup : (victim :: others).Nodup := hset ▸ h.sorted.nodup
  have hsorted := h.sorted
  rw [hset] at hsorted
  have hout : Ranked { s with prioritySet := others } (some victim) := by
    refine ⟨h.indexed, fun j => ?_, (List.pairwise_cons.mp hsorted).2⟩
    have hmem := h.mem_iff j
    rw [hset, List.mem_cons] at hmem
    constructor
    · intro hj
      refine ⟨(hmem.mp (Or.inr hj)).1, fun heq => (List.nodup_cons.mp hnodup).1 ?_⟩
      rwa [Option.some.inj heq]
    · rintro ⟨hj, hne⟩
      exact (hmem.mpr ⟨hj, by simp⟩).resolve_left fun heq => hne (congrArg some heq.symm)
  have hin := hout.erase hlook
  rw [PriorityCache.evict, get?_eq_some_iff.mpr hnode, Option.map_some]
  exact ⟨_, rfl, ⟨hin.indexed, hin.mem_iff, hin.sorted⟩, rfl, h.indexed.values_erase hlook, rfl⟩

/-- A put of a new key into a cache with room. -/
theorem Ranked.put_room (h : s.Ranked none) {key value priority : ℤ}
    (hnone : s.mm.lookup key = none) (hroom : s.entries.length < s.capacity) :
    ∃ s', s.put key value priority = some s' ∧ s'.Ranked none ∧ s'.capacity = s.capacity ∧
      s'.entries = ⟨key, value, priority⟩ :: s.entries := by
  have hsize : s.mm.keys.card ≠ s.capacity := by
    rw [h.indexed.card_keys]
    exact hroom.ne
  obtain ⟨s', hs', hrest⟩ := h.insertNode (n := ⟨key, value, priority⟩) hnone
  refine ⟨s', ?_, hrest⟩
  simp only [put, hnone]
  rw [if_neg (by omega)]
  cases s.prioritySet with
  | nil => exact hs'
  | cons victim others => simpa [hsize] using hs'

/-- **The eviction.**  A put of a new key into a full cache takes the place of the node that comes
before all others. -/
theorem Ranked.put_full (h : s.Ranked none) {key value priority : ℤ}
    (hnone : s.mm.lookup key = none) (hfull : s.entries.length = s.capacity)
    (hc : s.capacity ≠ 0) :
    ∃ node ∈ s.entries, (∀ n ∈ s.entries, n ≠ node → node.Compare n) ∧
      ∃ s', s.put key value priority = some s' ∧ s'.Ranked none ∧ s'.capacity = s.capacity ∧
        s'.entries = ⟨key, value, priority⟩ :: without Node.key node.key s.entries := by
  have hsize : s.mm.keys.card = s.capacity := h.indexed.card_keys.trans hfull
  cases hset : s.prioritySet with
  | nil =>
    obtain ⟨n, hn⟩ := List.exists_mem_of_length_pos (l := s.entries) (by omega)
    obtain ⟨i, hi⟩ := mem_values.mp hn
    have hmem := (h.mem_iff i).mpr ⟨live_iff.mpr ⟨n, hi⟩, by simp⟩
    rw [hset] at hmem
    cases hmem
  | cons victim others =>
    obtain ⟨node, hnode, hleast⟩ := h.first_least hset
    obtain ⟨t, hevict, hranked, hcap, hentries, hmm⟩ := h.evict hset hnode
    have hnone' : t.mm.lookup key = none := by
      rw [hmm]
      exact lookup_erase_eq_none _ hnone
    obtain ⟨s', hs', hranked', hcap', hentries'⟩ :=
      hranked.insertNode (n := ⟨key, value, priority⟩) hnone'
    refine ⟨node, mem_values.mpr ⟨victim, hnode⟩, hleast, s', ?_, hranked', hcap'.trans hcap, ?_⟩
    · simp only [put, hnone]
      rw [if_neg hc, hset]
      simp only [hsize, if_true, hevict, Option.bind_some, hs']
    · rw [hentries', hentries]

/-- The set lists the nodes of the cache in the order of the comparator. -/
theorem Ranked.ranking (h : s.Ranked none) :
    s.ranking.Perm s.entries ∧ s.ranking.Pairwise Node.Compare := by
  constructor
  · have hperm : s.prioritySet.Perm (s.cache.nodes.map Prod.fst) := by
      rw [List.perm_ext_iff_of_nodup h.sorted.nodup s.cache.nodup]
      intro i
      rw [h.mem_iff i]
      exact and_iff_left (by simp)
    have hall : (s.cache.nodes.map Prod.fst).filterMap s.cache.get? = s.entries := by
      rw [List.filterMap_map, entries, values, ← List.filterMap_eq_map]
      refine List.filterMap_congr fun n hn => ?_
      exact get?_eq_some_iff.mpr hn
    rw [← hall]
    exact hperm.filterMap _
  · rw [PriorityCache.ranking, List.pairwise_filterMap]
    refine List.Pairwise.imp (fun {i j} hij a ha b hb => ?_) h.sorted
    obtain ⟨a', ha', b', hb', hab⟩ := hij
    obtain rfl := Option.some.inj (ha.symm.trans ha')
    obtain rfl := Option.some.inj (hb.symm.trans hb')
    exact hab

theorem Ranked.get_of_mem (h : s.Ranked none) {n : Node} (hn : n ∈ s.entries) :
    s.get n.key = some n.value := by
  obtain ⟨i, hi⟩ := mem_values.mp hn
  have hlook : s.mm.lookup n.key = some i := (h.indexed _ _).mpr ⟨n, hi, rfl⟩
  simp only [get, hlook, get?_eq_some_iff.mpr hi, Option.map_some]

theorem get_of_notMem {key : ℤ} (h : key ∉ s.mm) : s.get key = some (-1) := by
  simp only [get, Finmap.lookup_eq_none.mpr h]

end PriorityCache

/-! ## Runs -/

/-- What every run keeps up. -/
structure Sound (capacity : ℕ) (h : History) : Prop where
  ranked : h.cache.Ranked none
  capacity_eq : h.cache.capacity = capacity
  bounded : h.cache.entries.length ≤ capacity
  /-- Every cached value is the last one put for its key. -/
  latest : ∀ n ∈ h.cache.entries, h.puts.lookup n.key = some n.value

variable {capacity : ℕ} {h : History}

theorem sound_start (capacity : ℕ) : Sound capacity (.start capacity) := by
  refine ⟨⟨Indexed.of_empty, fun i => ?_, List.Pairwise.nil⟩, rfl, Nat.zero_le _, fun n hn => ?_⟩
  · exact iff_of_false List.not_mem_nil fun hlive => List.not_mem_nil hlive.1
  · exact absurd hn List.not_mem_nil

/-- The other keys keep the value put last when a key is put. -/
theorem Sound.lookup_cons (hs : Sound capacity h) (key value : ℤ) :
    ∀ n ∈ h.cache.entries, n.key ≠ key →
      ((key, value) :: h.puts).lookup n.key = some n.value := by
  intro n hn hne
  rw [List.lookup_cons, beq_false_of_ne hne]
  exact hs.latest n hn

theorem lookup_cons_self (key value : ℤ) (puts : List (ℤ × ℤ)) :
    ((key, value) :: puts).lookup key = some value := by
  rw [List.lookup_cons, beq_self_eq_true]

/-- A change of a cached node keeps the cache sound if the puts that are recorded tell its value. -/
theorem Sound.rewrite (hs : Sound capacity h) {key : ℤ} {i : ℕ}
    (hfound : h.cache.mm.lookup key = some i) {f : Node → Node} (hkey : ∀ n, (f n).key = n.key)
    {puts : List (ℤ × ℤ)} (hself : ∀ n ∈ h.cache.entries, n.key = key →
      puts.lookup n.key = some (f n).value)
    (hother : ∀ n ∈ h.cache.entries, n.key ≠ key → puts.lookup n.key = some n.value) :
    ∃ s', h.cache.rewrite i f = some s' ∧ Sound capacity ⟨s', puts⟩ := by
  obtain ⟨s', hs', hranked, hcap, hentries⟩ := hs.ranked.rewrite hfound hkey
  refine ⟨s', hs', hranked, hcap.trans hs.capacity_eq, ?_, fun n hn => ?_⟩
  · rw [hentries, List.length_map]
    exact hs.bounded
  · rw [hentries] at hn
    obtain ⟨m, hm, rfl⟩ := List.mem_map.mp hn
    split_ifs with heq
    · rw [hkey]
      exact hself m hm heq
    · exact hother m hm heq

theorem Sound.put_new (hs : Sound capacity h) {key : ℤ} (hnone : h.cache.mm.lookup key = none)
    (value priority : ℤ) :
    ∃ s', h.cache.put key value priority = some s' ∧
      Sound capacity ⟨s', (key, value) :: h.puts⟩ := by
  have hcap := hs.capacity_eq
  have hbound := hs.bounded
  have habs := hs.ranked.indexed.lookup_eq_none_iff.mp hnone
  -- the new node and the nodes that stay have the value put last
  have hlatest : ∀ es : List Node, es.Sublist h.cache.entries →
      ∀ n ∈ (⟨key, value, priority⟩ : Node) :: es,
        ((key, value) :: h.puts).lookup n.key = some n.value := by
    intro es hsub n hn
    rcases List.mem_cons.mp hn with rfl | hn
    · exact lookup_cons_self ..
    · exact hs.lookup_cons key value n (hsub.subset hn) (habs n (hsub.subset hn))
  by_cases hzero : h.cache.capacity = 0
  · have hput : h.cache.put key value priority = some h.cache := by
      simp only [PriorityCache.put, hnone, if_pos hzero]
    refine ⟨h.cache, hput, hs.ranked, hcap, hbound, fun n hn => ?_⟩
    have hnil : h.cache.entries = [] := List.length_eq_zero_iff.mp (by omega)
    rw [hnil] at hn
    cases hn
  by_cases hroom : h.cache.entries.length < h.cache.capacity
  · obtain ⟨s', hs', hranked, hcap', hentries⟩ := hs.ranked.put_room hnone hroom
    refine ⟨s', hs', hranked, hcap'.trans hcap, ?_, ?_⟩
    · rw [hentries, List.length_cons]
      omega
    · rw [hentries]
      exact hlatest _ (List.Sublist.refl _)
  · obtain ⟨node, hnode, -, s', hs', hranked, hcap', hentries⟩ :=
      hs.ranked.put_full hnone (by omega) hzero
    have hlen := length_without hs.ranked.indexed.keys_nodup hnode
    refine ⟨s', hs', hranked, hcap'.trans hcap, ?_, ?_⟩
    · rw [hentries, List.length_cons]
      exact hlen.trans_le hbound
    · rw [hentries]
      exact hlatest _ (without_sublist _ _)

theorem Sound.put (hs : Sound capacity h) (key value priority : ℤ) :
    ∃ s', h.cache.put key value priority = some s' ∧
      Sound capacity ⟨s', (key, value) :: h.puts⟩ := by
  cases hfound : h.cache.mm.lookup key with
  | none => exact hs.put_new hfound value priority
  | some i =>
    rw [PriorityCache.put, hfound]
    refine hs.rewrite hfound ?_ (fun n _ heq => ?_) (hs.lookup_cons key value)
    · exact fun _ => rfl
    · rw [heq]
      exact lookup_cons_self ..

/-- A change of a priority keeps the cache sound. -/
theorem Sound.updatePriority (hs : Sound capacity h) (key newPriority : ℤ) :
    ∃ s', h.cache.updatePriority key newPriority = some s' ∧ Sound capacity ⟨s', h.puts⟩ := by
  rw [PriorityCache.updatePriority]
  cases hfound : h.cache.mm.lookup key with
  | none => exact ⟨h.cache, rfl, hs⟩
  | some i =>
    refine hs.rewrite hfound ?_ (fun n hn _ => ?_) fun n hn _ => hs.latest n hn
    · exact fun _ => rfl
    · exact hs.latest n hn

theorem Sound.erase (hs : Sound capacity h) (key : ℤ) :
    ∃ s', h.cache.erase key = some s' ∧ Sound capacity ⟨s', h.puts⟩ := by
  obtain ⟨s', hs', hranked, hcap', hentries⟩ := hs.ranked.eraseKey key
  have hsub : s'.entries.Sublist h.cache.entries := hentries ▸ without_sublist _ _
  exact ⟨s', hs', hranked, hcap'.trans hs.capacity_eq, hsub.length_le.trans hs.bounded,
    fun n hn => hs.latest n (hsub.subset hn)⟩

theorem Sound.get (hs : Sound capacity h) (key : ℤ) : ∃ value, h.cache.get key = some value := by
  by_cases hmem : key ∈ h.cache.mm
  · obtain ⟨n, hn, rfl⟩ := List.mem_map.mp (hs.ranked.indexed.mem_iff.mp hmem)
    exact ⟨n.value, hs.ranked.get_of_mem hn⟩
  · exact ⟨-1, PriorityCache.get_of_notMem hmem⟩

theorem Sound.call (hs : Sound capacity h) (c : Call) :
    ∃ h', h.call c = some h' ∧ Sound capacity h' := by
  rw [History.call]
  cases c with
  | put key value priority =>
    obtain ⟨s', hs', hsound⟩ := hs.put key value priority
    exact ⟨_, by rw [PriorityCache.step, hs']; rfl, hsound⟩
  | get key =>
    obtain ⟨value, hvalue⟩ := hs.get key
    exact ⟨h, by rw [PriorityCache.step, hvalue]; rfl, hs⟩
  | updatePriority key newPriority =>
    obtain ⟨s', hs', hsound⟩ := hs.updatePriority key newPriority
    exact ⟨_, by rw [PriorityCache.step, hs']; rfl, hsound⟩
  | erase key =>
    obtain ⟨s', hs', hsound⟩ := hs.erase key
    exact ⟨_, by rw [PriorityCache.step, hs']; rfl, hsound⟩

/-- **The cache with priorities.**  After any calls, none of which fails:

* the list, the map and the set hold the same distinct keys, at most as many as the capacity, and
  the set has them in the order of their current priorities and keys;
* a put of a new key into a full cache of positive capacity takes the place of the node with the
  lowest priority and key;
* a read of a cached key gives the value put last for it, and a read of another key -1. -/
theorem priorityCache_evicts_lowest (capacity : ℕ) (calls : List Call) :
    ∃ h, TransitionSystem.run History.call (History.start capacity) calls = some h ∧
      (h.cache.entries.map Node.key).Nodup ∧
      (∀ k, k ∈ h.cache.mm ↔ k ∈ h.cache.entries.map Node.key) ∧
      (h.cache.prioritySet.Nodup ∧ ∀ i, i ∈ h.cache.prioritySet ↔ h.cache.cache.Live i) ∧
      h.cache.ranking.Perm h.cache.entries ∧
      h.cache.ranking.Pairwise (fun a b =>
        a.priority < b.priority ∨ a.priority = b.priority ∧ a.key < b.key) ∧
      h.cache.entries.length ≤ capacity ∧
      (∀ n ∈ h.cache.entries, h.cache.get n.key = some n.value ∧
        h.puts.lookup n.key = some n.value) ∧
      (∀ k, k ∉ h.cache.mm → h.cache.get k = some (-1)) ∧
      ∀ k value priority, k ∉ h.cache.mm → h.cache.entries.length = capacity → 0 < capacity →
        ∃ victim ∈ h.cache.entries,
          (∀ n ∈ h.cache.entries, n ≠ victim → victim.priority < n.priority ∨
            victim.priority = n.priority ∧ victim.key < n.key) ∧
          ∃ s', h.cache.put k value priority = some s' ∧
            s'.entries = ⟨k, value, priority⟩ :: h.cache.entries.erase victim := by
  obtain ⟨h, hrun, hs⟩ :=
    TransitionSystem.run_total (fun _ c hs => hs.call c) (sound_start capacity) calls
  have hcompare : ∀ a b : Node, a.Compare b →
      a.priority < b.priority ∨ a.priority = b.priority ∧ a.key < b.key := by
    intro a b hab
    rwa [Node.compare_iff, Prod.Lex.toLex_lt_toLex] at hab
  have hnodup := hs.ranked.indexed.keys_nodup
  refine ⟨h, hrun, hnodup, fun k => hs.ranked.indexed.mem_iff, ⟨hs.ranked.sorted.nodup,
    fun i => ?_⟩, hs.ranked.ranking.1, hs.ranked.ranking.2.imp (hcompare _ _), hs.bounded,
    fun n hn => ⟨hs.ranked.get_of_mem hn, hs.latest n hn⟩,
    fun k hk => PriorityCache.get_of_notMem hk, ?_⟩
  · rw [hs.ranked.mem_iff i]
    exact and_iff_left (by simp)
  · intro k value priority hk hfull hpos
    have hcap := hs.capacity_eq
    obtain ⟨victim, hvictim, hleast, s', hs', -, -, hentries⟩ :=
      hs.ranked.put_full (Finmap.lookup_eq_none.mpr hk) (by omega) (by omega)
    refine ⟨victim, hvictim, fun n hn hne => hcompare _ _ (hleast n hn hne), s', hs', ?_⟩
    rw [hentries]
    exact congrArg _ (without_eq_erase hnodup hvictim)

end PriorityCaches
