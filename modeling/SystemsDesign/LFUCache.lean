/-
# The LFU cache

Model of `caching/LFUcache.cpp`: for every frequency a `std::list` of the nodes that were used so
often, the most recently used first, a map from keys to iterators, and the least frequency, which is
never computed anew but kept up to date.

The nodes of the lists stand in a heap; an iterator is the address of its node.  The reference is
the LFU policy on a bare list of entries.
-/
import SystemsDesign.IterList
import SystemsDesign.PointerHeap

namespace LFU

open IterList PointerHeap

/-- An entry with the number of its uses. -/
structure Node where
  key : ℤ
  value : ℤ
  freq : ℤ
  deriving DecidableEq, Repr

/-- The fields of `LFUCache`.  The capacity is the number `mm.size()` is compared with. -/
structure LFUCache where
  tcapacity : ℕ
  nodes : Heap Node := ⟨fun _ => none, 0⟩
  sameFreq : Finmap fun _ : ℤ => List Addr := ∅
  mm : Finmap fun _ : ℤ => Addr := ∅
  minFrequency : ℤ := 0

namespace LFUCache

/-- `same_freq[freq]`, which is empty when it is missing. -/
def bucket (c : LFUCache) (freq : ℤ) : List Addr := (c.sameFreq.lookup freq).getD []

/-- The map after a node was taken out of the list of its frequency: an empty list is erased. -/
def shrink (c : LFUCache) (freq : ℤ) (l : List Addr) : Finmap fun _ : ℤ => List Addr :=
  if l = [] then c.sameFreq.erase freq else c.sameFreq.insert freq l

/-- `same_freq[node.freq].push_front(node); mm[node.key] = same_freq[node.freq].begin()`. -/
def pushFront (c : LFUCache) (node : Node) : LFUCache :=
  { c with
    nodes := c.nodes.alloc node
    sameFreq := c.sameFreq.insert node.freq (c.nodes.next :: c.bucket node.freq)
    mm := c.mm.insert node.key c.nodes.next }

/-- `updateFreq`; a key that is missing, or an iterator that dangles, is undefined. -/
def updateFreq (c : LFUCache) (key : ℤ) : Option LFUCache :=
  match c.mm.lookup key with
  | none => none
  | some it =>
    match c.nodes.cell it with
    | none => none
    | some node =>
      let l := (c.bucket node.freq).erase it
      let minFrequency :=
        if l = [] ∧ c.minFrequency = node.freq then c.minFrequency + 1 else c.minFrequency
      let c := { c with
        nodes := c.nodes.free it, sameFreq := c.shrink node.freq l, minFrequency := minFrequency }
      some (c.pushFront ⟨key, node.value, node.freq + 1⟩)

/-- `get`: the value, or `-1`. -/
def get (c : LFUCache) (key : ℤ) : Option (ℤ × LFUCache) :=
  match c.mm.lookup key with
  | none => some (-1, c)
  | some it =>
    match c.nodes.cell it with
    | none => none
    | some node => (c.updateFreq key).map fun c => (node.value, c)

/-- The eviction in `put`; `back()` of an empty list is undefined. -/
def evict (c : LFUCache) : Option LFUCache :=
  match (c.bucket c.minFrequency).getLast? with
  | none => none
  | some it =>
    match c.nodes.cell it with
    | none => none
    | some victim =>
      some { c with
        nodes := c.nodes.free it
        sameFreq := c.shrink c.minFrequency (c.bucket c.minFrequency).dropLast
        mm := c.mm.erase victim.key }

/-- The end of `put`: a new key has been used once. -/
def insertNew (c : LFUCache) (key value : ℤ) : LFUCache :=
  { c with minFrequency := 1 }.pushFront ⟨key, value, 1⟩

/-- `put`. -/
def put (c : LFUCache) (key value : ℤ) : Option LFUCache :=
  if c.tcapacity = 0 then some c
  else match c.mm.lookup key with
    | some it =>
      match c.nodes.cell it with
      | none => none
      | some node =>
        updateFreq { c with nodes := c.nodes.store it { node with value := value } } key
    | none =>
      if c.mm.keys.card = c.tcapacity then c.evict.map fun c => c.insertNew key value
      else some (c.insertNew key value)

end LFUCache

/-! ## The reference

The entries of the cache, the most recently used first. -/

namespace Policy

/-- The entry of a key. -/
def find (es : List Node) (key : ℤ) : Option Node := es.find? fun e => e.key = key

/-- The entries that were used least often. -/
def leastUsed (es : List Node) : List Node := es.filter fun e => ∀ e' ∈ es, e.freq ≤ e'.freq

/-- The entry to evict: of those used least often the one whose last use is the least recent. -/
def victim (es : List Node) : Option Node := (leastUsed es).getLast?

/-- The entries without the victim. -/
def evict (es : List Node) : List Node :=
  match victim es with
  | none => es
  | some v => without Node.key v.key es

/-- A `get` returns the value of a cached key and counts as a use. -/
def get (es : List Node) (key : ℤ) : ℤ × List Node :=
  match find es key with
  | none => (-1, es)
  | some e => (e.value, { e with freq := e.freq + 1 } :: without Node.key key es)

/-- A `put` overwrites the value of a cached key, which counts as a use; a new key takes the place
of the victim if the cache is full. -/
def put (capacity : ℕ) (es : List Node) (key value : ℤ) : List Node :=
  if capacity = 0 then es
  else match find es key with
    | some e => ⟨key, value, e.freq + 1⟩ :: without Node.key key es
    | none => ⟨key, value, 1⟩ :: if es.length = capacity then evict es else es

end Policy

/-- The calls of a client. -/
inductive Call where
  | get (key : ℤ)
  | put (key value : ℤ)
  deriving DecidableEq, Repr

/-- A cache and the results of the `get` calls so far, the last one first. -/
structure Session where
  cache : LFUCache
  results : List ℤ := []

/-- A call on the cache. -/
def Session.call (s : Session) : Call → Option Session
  | .get key => (s.cache.get key).map fun r => ⟨r.2, r.1 :: s.results⟩
  | .put key value => (s.cache.put key value).map fun c => ⟨c, s.results⟩

/-- The reference cache and its results so far. -/
structure Reference where
  entries : List Node := []
  results : List ℤ := []

/-- A call on the reference cache. -/
def Reference.call (capacity : ℕ) (r : Reference) : Call → Reference
  | .get key => ⟨(Policy.get r.entries key).2, (Policy.get r.entries key).1 :: r.results⟩
  | .put key value => ⟨Policy.put capacity r.entries key value, r.results⟩

/-! ## The lists of the frequencies as one list -/

namespace LFUCache

/-- The nodes of the lists, put together in the order of their last use: the heap holds exactly
these nodes, the map leads the keys to them, and the list of a frequency is the part with that
frequency. -/
structure Represents (c : LFUCache) (all : IterList Node) : Prop where
  next_eq : c.nodes.next = all.next
  cell_iff : ∀ a v, c.nodes.cell a = some v ↔ (a, v) ∈ all.nodes
  indexed : all.Indexed Node.key c.mm
  lists : ∀ f, c.bucket f = (all.nodes.filter fun n => n.2.freq = f).map Prod.fst

variable {c : LFUCache} {all : IterList Node}

theorem represents_new (capacity : ℕ) : Represents { tcapacity := capacity } IterList.empty :=
  ⟨rfl, fun a v => by simp, Indexed.of_empty, fun f => by simp [bucket]⟩

theorem bucket_shrink (c : LFUCache) (freq : ℤ) (l : List Addr) (f : ℤ) :
    ((c.shrink freq l).lookup f).getD [] = if f = freq then l else c.bucket f := by
  rw [shrink]
  by_cases hf : f = freq
  · subst hf
    rw [if_pos rfl]
    split_ifs with hl
    · rw [Finmap.lookup_erase, hl, Option.getD_none]
    · rw [Finmap.lookup_insert, Option.getD_some]
  · rw [if_neg hf]
    split_ifs
    · rw [Finmap.lookup_erase_ne hf, bucket]
    · rw [Finmap.lookup_insert_of_ne _ hf, bucket]

theorem Represents.bucket_nodup (h : c.Represents all) (f : ℤ) : (c.bucket f).Nodup := by
  rw [h.lists]
  exact all.nodup.sublist ((List.filter_sublist).map _)

theorem Represents.mem_bucket (h : c.Represents all) {f : ℤ} {it : Addr} :
    it ∈ c.bucket f ↔ ∃ node, (it, node) ∈ all.nodes ∧ node.freq = f := by
  rw [h.lists]
  simp

theorem Represents.cell_of_lookup (h : c.Represents all) {key : ℤ} {it : Addr}
    (hlook : c.mm.lookup key = some it) :
    ∃ node, c.nodes.cell it = some node ∧ (it, node) ∈ all.nodes ∧ node.key = key := by
  obtain ⟨node, hmem, hkey⟩ := h.indexed.found hlook
  exact ⟨node, (h.cell_iff it node).mpr hmem, hmem, hkey⟩

/-- A node is taken out of the list of its frequency and out of the map. -/
theorem Represents.remove (h : c.Represents all) {it : Addr} {node : Node}
    (hmem : (it, node) ∈ all.nodes) {c' : LFUCache} (hnodes : c'.nodes = c.nodes.free it)
    (hlists : c'.sameFreq = c.shrink node.freq ((c.bucket node.freq).erase it))
    (hmm : c'.mm = c.mm.erase node.key) : c'.Represents (all.erase it) where
  next_eq := by
    rw [hnodes]
    exact h.next_eq
  cell_iff a v := by
    rw [hnodes, mem_erase]
    by_cases ha : a = it
    · subst ha
      simp [Heap.free]
    · rw [Heap.cell_free_of_ne ha, h.cell_iff]
      exact (and_iff_left ha).symm
  indexed := by
    rw [hmm]
    exact h.indexed.erase ((h.indexed _ _).mpr ⟨node, hmem, rfl⟩)
  lists f := by
    -- Erasing the address from the list of another frequency would change nothing.
    have hbucket : c'.bucket f = (c.bucket f).erase it := by
      rw [bucket, hlists, bucket_shrink]
      split_ifs with hf
      · rw [hf]
      · refine (List.erase_of_not_mem fun hit => hf ?_).symm
        obtain ⟨node', hmem', rfl⟩ := h.mem_bucket.mp hit
        rw [(Prod.mk.inj (node_unique hmem' hmem rfl)).2]
    rw [hbucket, (h.bucket_nodup f).erase_eq_filter, h.lists, List.filter_map]
    simp only [IterList.erase, List.filter_filter, Function.comp_def]
    refine congrArg _ (List.filter_congr fun n _ => ?_)
    rw [Bool.and_comm, Bool.eq_iff_iff]
    simp

/-- A node with a new key is put in front of the list of its frequency. -/
theorem Represents.push (h : c.Represents all) (node : Node)
    (hnone : c.mm.lookup node.key = none) :
    (c.pushFront node).Represents (all.pushFront node) where
  next_eq := congrArg (· + 1) h.next_eq
  cell_iff a v := by
    rw [pushFront, nodes_pushFront, List.mem_cons]
    dsimp only
    by_cases ha : a = c.nodes.next
    · have hold : (a, v) ∉ all.nodes := fun hmem =>
        (all.fresh _ hmem).ne (ha.trans h.next_eq)
      rw [ha, Heap.cell_alloc_next, ← h.next_eq]
      simp only [← ha, hold, or_false, Prod.mk.injEq, true_and, Option.some.injEq]
      exact eq_comm
    · have hne : (a, v) ≠ (all.next, node) := fun heq =>
        ha ((Prod.mk.inj heq).1.trans h.next_eq.symm)
      rw [Heap.cell_alloc_of_ne ha, h.cell_iff]
      exact (or_iff_right hne).symm
  indexed := by
    have hpush := h.indexed.pushFront hnone
    rwa [← h.next_eq] at hpush
  lists f := by
    rw [bucket, pushFront, nodes_pushFront, List.filter_cons, h.next_eq]
    dsimp only
    by_cases hf : f = node.freq
    · rw [hf, Finmap.lookup_insert, Option.getD_some, if_pos (by simp), List.map_cons, h.lists]
    · have hf' : node.freq ≠ f := fun heq => hf heq.symm
      rw [Finmap.lookup_insert_of_ne _ hf, if_neg (by simpa using hf')]
      exact h.lists f

end LFUCache

end LFU
