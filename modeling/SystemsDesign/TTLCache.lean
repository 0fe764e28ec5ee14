/-
# The cache with expiring entries

Model of `caching/RedisCache_withTTLexpiration.cpp`: a list of nodes, most recently used first, a
hash map from keys to iterators, and a time in every node up to which it may be read.  There is no
thread that removes expired nodes: an expired node is removed by the `get` that finds it, by a
`put` of its key, or as the oldest node of a full cache.

The times are ticks of the clock, and every call comes with the time at which it reads the clock.
The cache is compared with `TimedLRU`, which keeps the bare list of nodes, and with the history of
the calls: which keys were used, and what was put last for each.
-/
import SystemsDesign.IterList
import SystemsDesign.TransitionSystem

namespace TTLCaches

open IterList

/-- A node of the cache. -/
structure Node where
  key : String
  value : String
  expiryTime : ℤ
  deriving DecidableEq, Repr

/-- The ticks of `steady_clock` in a second. -/
def ticksPerSecond : ℤ := 1000000000

/-- The node that `put` inserts at the time `now`. -/
def Node.expiring (now : ℤ) (key value : String) (ttlSeconds : ℤ) : Node :=
  ⟨key, value, now + ticksPerSecond * ttlSeconds⟩

/-- The fields of `RedisCache_withTTL` and the lines printed so far, the last one first.  The
capacity is the number `cache.size()` is compared with. -/
structure RedisCacheWithTTL where
  tcapacity : ℕ
  cache : IterList Node := IterList.empty
  mm : Finmap fun _ : String => ℕ := ∅
  printed : List String := []

namespace RedisCacheWithTTL

/-- The nodes from the most to the least recently used. -/
def entries (s : RedisCacheWithTTL) : List Node := s.cache.values

/-- Print a line. -/
def print (s : RedisCacheWithTTL) (line : String) : RedisCacheWithTTL :=
  { s with printed := line :: s.printed }

/-- `get`; to read through a dangling iterator is undefined. -/
def get (s : RedisCacheWithTTL) (now : ℤ) (key : String) : Option (String × RedisCacheWithTTL) :=
  match s.mm.lookup key with
  | none => some ("Key NOT FOUND in Cache!", s)
  | some found =>
    (s.cache.get? found).map fun node =>
      -- lazy expiration, at the time of the read
      if node.expiryTime < now then
        ("LAZYily EXPIRED Key!", { s with cache := s.cache.erase found, mm := s.mm.erase key })
      else (node.value, { s with cache := s.cache.spliceFront found })

/-- The first part of `put`: an older entry of the key is removed. -/
def removeOld (s : RedisCacheWithTTL) (key : String) : RedisCacheWithTTL :=
  match s.mm.lookup key with
  | none => s
  | some found => { s with cache := s.cache.erase found, mm := s.mm.erase key }

/-- The second part of `put`, in a full cache; `cache.back()` of an empty list is undefined. -/
def evictBack (s : RedisCacheWithTTL) : Option RedisCacheWithTTL :=
  s.cache.back?.map fun victim =>
    { s.print ("Evicting Key : " ++ victim.2.key) with
      cache := s.cache.popBack
      mm := s.mm.erase victim.2.key }

/-- The last part of `put`. -/
def insertNode (s : RedisCacheWithTTL) (node : Node) : RedisCacheWithTTL :=
  { s.print ("Inserted Key : " ++ node.key) with
    cache := s.cache.pushFront node
    mm := s.mm.insert node.key s.cache.next }

/-- `put`. -/
def put (s : RedisCacheWithTTL) (now : ℤ) (key value : String) (ttlSeconds : ℤ) :
    Option RedisCacheWithTTL :=
  let s := s.removeOld key
  (if s.tcapacity ≤ s.cache.nodes.length then s.evictBack else some s).map fun s =>
    s.insertNode (.expiring now key value ttlSeconds)

end RedisCacheWithTTL

/-- The calls on a cache, each with the time at which it reads the clock. -/
inductive Call where
  | put (now : ℤ) (key value : String) (ttlSeconds : ℤ)
  | get (now : ℤ) (key : String)
  deriving DecidableEq, Repr

/-- The cache after a call. -/
def RedisCacheWithTTL.step (s : RedisCacheWithTTL) : Call → Option RedisCacheWithTTL
  | .put now key value ttlSeconds => s.put now key value ttlSeconds
  | .get now key => (s.get now key).map Prod.snd

/-- The key that a call uses: a put uses its key, and so does a get that finds it in time. -/
def RedisCacheWithTTL.used (s : RedisCacheWithTTL) : Call → Option String
  | .put _ key _ _ => some key
  | .get now key =>
    ((s.mm.lookup key).bind s.cache.get?).bind fun node =>
      if node.expiryTime < now then none else some key

/-- The node that a call puts. -/
def Call.node? : Call → Option Node
  | .put now key value ttlSeconds => some (.expiring now key value ttlSeconds)
  | .get _ _ => none

/-- A cache, the keys used so far and the nodes put so far, the last one first. -/
structure History where
  cache : RedisCacheWithTTL
  uses : List String
  puts : List Node

/-- A new cache. -/
def History.start (capacity : ℕ) : History := ⟨{ tcapacity := capacity }, [], []⟩

/-- A call, recorded in the history. -/
def History.call (h : History) (c : Call) : Option History :=
  (h.cache.step c).map fun s =>
    ⟨s, (h.cache.used c).toList ++ h.uses, c.node?.toList ++ h.puts⟩

/-! ## Timed LRU

What the cache is for, on the bare list of its nodes. -/

namespace TimedLRU

/-- The node of a key. -/
def find (es : List Node) (key : String) : Option Node := es.find? fun n => n.key = key

/-- The answer to a read and the nodes after it: a node that is read in time moves to the front, an
expired one is removed. -/
def get (es : List Node) (now : ℤ) (key : String) : String × List Node :=
  match find es key with
  | none => ("Key NOT FOUND in Cache!", es)
  | some n =>
    if n.expiryTime < now then ("LAZYily EXPIRED Key!", without Node.key key es)
    else (n.value, n :: without Node.key key es)

/-- The nodes after a write: the new node comes first, and the oldest goes if there is no room. -/
def put (capacity : ℕ) (es : List Node) (n : Node) : List Node :=
  n :: if (without Node.key n.key es).length < capacity then without Node.key n.key es
    else (without Node.key n.key es).dropLast

/-- The nodes after a call. -/
def step (capacity : ℕ) (es : List Node) : Call → List Node
  | .put now key value ttlSeconds => put capacity es (.expiring now key value ttlSeconds)
  | .get now key => (get es now key).2

/-- The key that a call uses. -/
def used (es : List Node) : Call → Option String
  | .put _ key _ _ => some key
  | .get now key => (find es key).bind fun n => if n.expiryTime < now then none else some key

/-- The nodes and the history so far. -/
structure State where
  entries : List Node
  uses : List String
  puts : List Node

/-- A call, recorded in the history. -/
def State.call (capacity : ℕ) (t : State) (c : Call) : State :=
  ⟨step capacity t.entries c, (used t.entries c).toList ++ t.uses, c.node?.toList ++ t.puts⟩

end TimedLRU

/-! ## The cache is a timed LRU -/

namespace RedisCacheWithTTL

/-- The cache holds these nodes, and its map is right. -/
structure Represents (s : RedisCacheWithTTL) (capacity : ℕ) (es : List Node) : Prop where
  capacity_eq : s.tcapacity = capacity
  indexed : s.cache.Indexed Node.key s.mm
  entries_eq : s.entries = es

variable {s : RedisCacheWithTTL} {capacity : ℕ} {es : List Node}

theorem Represents.find_eq (h : s.Represents capacity es) (key : String) :
    TimedLRU.find es key = (s.mm.lookup key).bind s.cache.get? := by
  rw [← h.entries_eq]
  exact h.indexed.find?_eq key

/-- `get` answers what a timed LRU answers and leaves the same nodes. -/
theorem Represents.get (h : s.Represents capacity es) (now : ℤ) (key : String) :
    ∃ s', s.get now key = some ((TimedLRU.get es now key).1, s') ∧
      s'.Represents capacity (TimedLRU.get es now key).2 := by
  have hfind := h.find_eq key
  rw [RedisCacheWithTTL.get]
  cases hi : s.mm.lookup key with
  | none =>
    rw [hi, Option.bind_none] at hfind
    rw [TimedLRU.get, hfind]
    exact ⟨s, rfl, h⟩
  | some i =>
    obtain ⟨n, hmem, -⟩ := h.indexed.found hi
    have hget := get?_eq_some_iff.mpr hmem
    rw [hi, Option.bind_some, hget] at hfind
    dsimp only
    rw [TimedLRU.get, hfind, hget, Option.map_some]
    dsimp only
    by_cases hlate : n.expiryTime < now
    · rw [if_pos hlate, if_pos hlate]
      refine ⟨_, rfl, h.capacity_eq, h.indexed.erase hi, ?_⟩
      rw [← h.entries_eq]
      exact h.indexed.values_erase hi
    · rw [if_neg hlate, if_neg hlate]
      refine ⟨_, rfl, h.capacity_eq, h.indexed.spliceFront i, ?_⟩
      rw [← h.entries_eq]
      exact h.indexed.values_spliceFront hi hmem

/-- Without the older entry of a key. -/
theorem Represents.removeOld (h : s.Represents capacity es) (key : String) :
    (s.removeOld key).Represents capacity (without Node.key key es) ∧
      (s.removeOld key).mm.lookup key = none := by
  rw [RedisCacheWithTTL.removeOld]
  cases hi : s.mm.lookup key with
  | none =>
    have habs := h.indexed.lookup_eq_none_iff.mp hi
    refine ⟨⟨h.capacity_eq, h.indexed, ?_⟩, hi⟩
    rw [← h.entries_eq]
    exact (without_eq_self habs).symm
  | some i =>
    refine ⟨⟨h.capacity_eq, h.indexed.erase hi, ?_⟩, Finmap.lookup_erase ..⟩
    rw [← h.entries_eq]
    exact h.indexed.values_erase hi

theorem Represents.evictBack (h : s.Represents capacity es) (hne : es ≠ []) :
    ∃ s', s.evictBack = some s' ∧ s'.Represents capacity es.dropLast ∧
      ∀ key, s.mm.lookup key = none → s'.mm.lookup key = none := by
  cases hback : s.cache.back? with
  | none =>
    have hnil := back?_eq_none_iff.mp hback
    exact absurd (h.entries_eq.symm.trans hnil) hne
  | some victim =>
    rw [RedisCacheWithTTL.evictBack, hback, Option.map_some]
    refine ⟨_, rfl, ⟨h.capacity_eq, h.indexed.popBack hback, ?_⟩, fun key hkey => ?_⟩
    · rw [← h.entries_eq]
      exact List.map_dropLast ..
    · exact lookup_erase_eq_none _ hkey

theorem Represents.insertNode (h : s.Represents capacity es) {n : Node}
    (hnone : s.mm.lookup n.key = none) : (s.insertNode n).Represents capacity (n :: es) := by
  refine ⟨h.capacity_eq, h.indexed.pushFront hnone, ?_⟩
  rw [← h.entries_eq]
  rfl

/-- `put` leaves the nodes that a timed LRU leaves; with a positive capacity it never evicts from
an empty list. -/
theorem Represents.put (h : s.Represents capacity es) (hc : 1 ≤ capacity) (now : ℤ)
    (key value : String) (ttlSeconds : ℤ) :
    ∃ s', s.put now key value ttlSeconds = some s' ∧
      s'.Represents capacity (TimedLRU.put capacity es (.expiring now key value ttlSeconds)) := by
  obtain ⟨hrest, hnone⟩ := h.removeOld key
  have hlen : (s.removeOld key).cache.nodes.length = (without Node.key key es).length := by
    rw [← hrest.entries_eq, entries, values, List.length_map]
  have hkey : (Node.expiring now key value ttlSeconds).key = key := rfl
  simp only [RedisCacheWithTTL.put, TimedLRU.put, hkey, hrest.capacity_eq, hlen]
  by_cases hroom : (without Node.key key es).length < capacity
  · rw [if_neg (by omega), if_pos hroom]
    exact ⟨_, rfl, hrest.insertNode hnone⟩
  · have hne : without Node.key key es ≠ [] := by
      intro hnil
      rw [hnil, List.length_nil] at hroom
      omega
    obtain ⟨s', hs', hrep, hkeeps⟩ := hrest.evictBack hne
    rw [if_pos (by omega), if_neg hroom, hs']
    exact ⟨_, rfl, hrep.insertNode (hkeeps key hnone)⟩

/-- **The cache is a timed LRU**, call by call. -/
theorem Represents.step (h : s.Represents capacity es) (hc : 1 ≤ capacity) (c : Call) :
    ∃ s', s.step c = some s' ∧ s'.Represents capacity (TimedLRU.step capacity es c) := by
  cases c with
  | put now key value ttlSeconds => exact h.put hc now key value ttlSeconds
  | get now key =>
    obtain ⟨s', hs', hrep⟩ := h.get now key
    exact ⟨s', by rw [RedisCacheWithTTL.step, hs', Option.map_some], hrep⟩

/-- The cache and the timed LRU agree on what a call uses. -/
theorem Represents.used_eq (h : s.Represents capacity es) (c : Call) :
    s.used c = TimedLRU.used es c := by
  cases c with
  | put now key value ttlSeconds => rfl
  | get now key => rw [used, TimedLRU.used, h.find_eq]

end RedisCacheWithTTL

/-- **The history of a cache is that of a timed LRU.** -/
theorem history_follows {capacity : ℕ} (hc : 1 ≤ capacity) (calls : List Call) :
    ∃ h, TransitionSystem.run History.call (History.start capacity) calls = some h ∧
      h.cache.Represents capacity
        (calls.foldl (TimedLRU.State.call capacity) ⟨[], [], []⟩).entries ∧
      h.uses = (calls.foldl (TimedLRU.State.call capacity) ⟨[], [], []⟩).uses ∧
      h.puts = (calls.foldl (TimedLRU.State.call capacity) ⟨[], [], []⟩).puts := by
  have hstart : (History.start capacity).cache.Represents capacity [] :=
    ⟨rfl, Indexed.of_empty, rfl⟩
  refine TransitionSystem.run_refines (R := fun (h : History) (t : TimedLRU.State) =>
    h.cache.Represents capacity t.entries ∧ h.uses = t.uses ∧ h.puts = t.puts) ?_
    ⟨hstart, rfl, rfl⟩ calls
  -- one call of both, from a cache that holds the nodes of the timed LRU
  rintro h t c ⟨hrep, huses, hputs⟩
  obtain ⟨s', hs', hrep'⟩ := hrep.step hc c
  refine ⟨⟨s', (h.cache.used c).toList ++ h.uses, c.node?.toList ++ h.puts⟩, ?_, hrep', ?_, ?_⟩
  · rw [History.call, hs', Option.map_some]
  · rw [hrep.used_eq, huses]
    rfl
  · rw [hputs]
    rfl

/-! ## The order of use and the last puts -/

namespace TimedLRU

/-- The last node put for a key. -/
def lastPut (puts : List Node) (key : String) : Option Node := puts.find? fun n => n.key = key

/-- What a timed LRU keeps up: distinct keys, at most `capacity` nodes in the order of their last
use, and every node the last one put for its key. -/
structure Ordered (capacity : ℕ) (t : State) : Prop where
  nodup : (t.entries.map Node.key).Nodup
  bounded : t.entries.length ≤ capacity
  recency : RecencyOrdered t.uses (t.entries.map Node.key)
  recorded : ∀ k ∈ t.entries.map Node.key, k ∈ t.uses
  latest : ∀ n ∈ t.entries, lastPut t.puts n.key = some n

variable {capacity : ℕ} {t : State} {es : List Node}

theorem find_eq_some {n : Node} {key : String} (h : find es key = some n) :
    n ∈ es ∧ n.key = key :=
  ⟨List.mem_of_find?_eq_some h, by simpa using List.find?_some h⟩

theorem get_of_mem (hnodup : (es.map Node.key).Nodup) {n : Node} (hn : n ∈ es) (now : ℤ) :
    get es now n.key = if n.expiryTime < now then ("LAZYily EXPIRED Key!", es.erase n)
      else (n.value, n :: es.erase n) := by
  have hfind : find es n.key = some n := find?_key_eq hnodup hn
  rw [get, hfind, without_eq_erase hnodup hn]

theorem Ordered.init : Ordered capacity ⟨[], [], []⟩ :=
  ⟨List.nodup_nil, Nat.zero_le _, List.Pairwise.nil, by simp, by simp⟩

theorem Ordered.sublist (h : Ordered capacity t) (hsub : es.Sublist t.entries) :
    Ordered capacity ⟨es, t.uses, t.puts⟩ where
  nodup := h.nodup.sublist (hsub.map _)
  bounded := hsub.length_le.trans h.bounded
  recency := h.recency.sublist (hsub.map _)
  recorded k hk := h.recorded k ((hsub.map _).subset hk)
  latest n hn := h.latest n (hsub.subset hn)

/-- A node that is used comes to the front; there must be room for it. -/
theorem Ordered.use (h : Ordered capacity t) {n : Node} (habs : n.key ∉ t.entries.map Node.key)
    (hroom : t.entries.length < capacity) (hlast : lastPut t.puts n.key = some n) :
    Ordered capacity ⟨n :: t.entries, n.key :: t.uses, t.puts⟩ where
  nodup := List.nodup_cons.mpr ⟨habs, h.nodup⟩
  bounded := hroom
  recency := h.recency.use habs
  recorded := List.forall_mem_cons.mpr
    ⟨List.mem_cons_self, fun k hk => List.mem_cons_of_mem _ (h.recorded k hk)⟩
  latest := List.forall_mem_cons.mpr ⟨hlast, h.latest⟩

theorem Ordered.record (h : Ordered capacity t) {n : Node}
    (habs : n.key ∉ t.entries.map Node.key) :
    Ordered capacity ⟨t.entries, t.uses, n :: t.puts⟩ where
  nodup := h.nodup
  bounded := h.bounded
  recency := h.recency
  recorded := h.recorded
  latest := by
    intro m hm
    have hne : n.key ≠ m.key := fun heq => habs (heq ▸ List.mem_map_of_mem hm)
    show (n :: t.puts).find? (fun p => p.key = m.key) = some m
    rw [List.find?_cons_of_neg (by simpa using hne)]
    exact h.latest m hm

theorem lastPut_self (n : Node) (puts : List Node) : lastPut (n :: puts) n.key = some n := by
  rw [lastPut, List.find?_cons_of_pos (by simp)]

theorem Ordered.call (h : Ordered capacity t) (hc : 1 ≤ capacity) (c : Call) :
    Ordered capacity (t.call capacity c) := by
  cases c with
  | put now key value ttlSeconds =>
    set n : Node := .expiring now key value ttlSeconds
    have hsub : (without Node.key n.key t.entries).Sublist t.entries := without_sublist _ _
    show Ordered capacity ⟨put capacity t.entries n, n.key :: t.uses, n :: t.puts⟩
    rw [put]
    split_ifs with hroom
    · have habs : n.key ∉ (without Node.key n.key t.entries).map Node.key := notMem_map_without _ _
      exact ((h.sublist hsub).record habs).use habs hroom (lastPut_self n _)
    · have hdrop := (List.dropLast_sublist (without Node.key n.key t.entries))
      have habs : n.key ∉ ((without Node.key n.key t.entries).dropLast).map Node.key :=
        fun hmem => notMem_map_without _ _ ((hdrop.map _).subset hmem)
      have hlen := hsub.length_le.trans h.bounded
      refine ((h.sublist (hdrop.trans hsub)).record habs).use habs ?_ (lastPut_self n _)
      show (without Node.key n.key t.entries).dropLast.length < capacity
      rw [List.length_dropLast]
      omega
  | get now key =>
    rw [State.call, step, used, get]
    cases hfind : find t.entries key with
    | none => exact h
    | some n =>
      obtain ⟨hn, rfl⟩ := find_eq_some hfind
      have hsub : (without Node.key n.key t.entries).Sublist t.entries := without_sublist _ _
      rw [Option.bind_some]
      dsimp only
      split_ifs with hlate
      · exact h.sublist hsub
      · have hlen := length_without h.nodup hn
        have hbound := h.bounded
        refine (h.sublist hsub).use (notMem_map_without _ _) ?_ (h.latest n hn)
        show (without Node.key n.key t.entries).length < capacity
        omega

theorem ordered_run (hc : 1 ≤ capacity) (calls : List Call) :
    Ordered capacity (calls.foldl (State.call capacity) ⟨[], [], []⟩) :=
  TransitionSystem.foldl_invariant (fun _ c h => h.call hc c) Ordered.init calls

theorem Ordered.last_oldest (h : Ordered capacity t) {n : Node}
    (heq : t.entries = t.entries.dropLast ++ [n]) :
    ∀ m ∈ t.entries.dropLast, t.uses.idxOf m.key < t.uses.idxOf n.key := by
  have hrecency := h.recency
  rw [heq, List.map_append, RecencyOrdered, List.pairwise_append] at hrecency
  exact fun m hm => hrecency.2.2 _ (List.mem_map_of_mem hm) _ (by simp)

theorem Ordered.put_of_room (h : Ordered capacity t) {n : Node}
    (hroom : n.key ∈ t.entries.map Node.key ∨ t.entries.length < capacity) :
    put capacity t.entries n = n :: without Node.key n.key t.entries := by
  have hlt : (without Node.key n.key t.entries).length < capacity := by
    rcases hroom with hmem | hroom
    · obtain ⟨m, hm, hkey⟩ := List.mem_map.mp hmem
      have hlen := length_without h.nodup hm
      have hbound := h.bounded
      rw [← hkey]
      omega
    · exact (without_sublist n.key t.entries).length_le.trans_lt hroom
  rw [put, if_pos hlt]

/-- A write of a new key into a full cache evicts the last node, which was used before every other
one. -/
theorem Ordered.put_of_full (h : Ordered capacity t) (hc : 1 ≤ capacity) {n : Node}
    (habs : n.key ∉ t.entries.map Node.key) (hfull : t.entries.length = capacity) :
    ∃ victim, t.entries = t.entries.dropLast ++ [victim] ∧
      (∀ m ∈ t.entries.dropLast, t.uses.idxOf m.key < t.uses.idxOf victim.key) ∧
      put capacity t.entries n = n :: t.entries.dropLast := by
  have hne : t.entries ≠ [] := by
    intro hnil
    rw [hnil, List.length_nil] at hfull
    omega
  have heq := (List.dropLast_append_getLast hne).symm
  have hsame : without Node.key n.key t.entries = t.entries :=
    without_eq_self fun m hm hkey => habs (hkey ▸ List.mem_map_of_mem hm)
  refine ⟨_, heq, h.last_oldest heq, ?_⟩
  rw [put, hsame, if_neg (by omega)]

end TimedLRU

/-- **The cache with expiring entries is a timed LRU.**  After any calls on a cache of positive
capacity, at any times:

* the list and the map hold the same distinct keys, at most as many as the capacity;
* a read in time of a cached key gives the value of the last put of it and moves it to the front,
  a late one gives the text for an expired key and removes it, and a read of another key gives the
  other text and changes nothing;
* a put of a key that is cached, or into a cache with room, evicts nothing, and a put of another
  key into a full cache evicts the key whose last put or successful get is oldest. -/
theorem redisCache_timed_lru (capacity : ℕ) (hc : 1 ≤ capacity) (calls : List Call) :
    ∃ h, TransitionSystem.run History.call (History.start capacity) calls = some h ∧
      (h.cache.entries.map Node.key).Nodup ∧
      (∀ k, k ∈ h.cache.mm ↔ k ∈ h.cache.entries.map Node.key) ∧
      h.cache.entries.length ≤ capacity ∧
      (∀ n ∈ h.cache.entries, TimedLRU.lastPut h.puts n.key = some n ∧ n.key ∈ h.uses) ∧
      (∀ now, ∀ n ∈ h.cache.entries, now ≤ n.expiryTime →
        ∃ s', h.cache.get now n.key = some (n.value, s') ∧
          s'.entries = n :: h.cache.entries.erase n) ∧
      (∀ now, ∀ n ∈ h.cache.entries, n.expiryTime < now →
        ∃ s', h.cache.get now n.key = some ("LAZYily EXPIRED Key!", s') ∧
          s'.entries = h.cache.entries.erase n ∧ n.key ∉ s'.mm) ∧
      (∀ now k, k ∉ h.cache.mm →
        h.cache.get now k = some ("Key NOT FOUND in Cache!", h.cache)) ∧
      ∀ now k value ttlSeconds, ∃ s', h.cache.put now k value ttlSeconds = some s' ∧
        (k ∈ h.cache.mm ∨ h.cache.entries.length < capacity →
          s'.entries = .expiring now k value ttlSeconds :: without Node.key k h.cache.entries) ∧
        (k ∉ h.cache.mm → h.cache.entries.length = capacity →
          ∃ victim, h.cache.entries = h.cache.entries.dropLast ++ [victim] ∧
            (∀ n ∈ h.cache.entries.dropLast,
              h.uses.idxOf n.key < h.uses.idxOf victim.key) ∧
            s'.entries = .expiring now k value ttlSeconds :: h.cache.entries.dropLast) := by
  obtain ⟨h, hrun, hrep, huses, hputs⟩ := history_follows hc calls
  have hordered := TimedLRU.ordered_run hc calls
  set t := calls.foldl (TimedLRU.State.call capacity) ⟨[], [], []⟩
  have hentries := hrep.entries_eq
  have hmm : ∀ k, k ∈ h.cache.mm ↔ k ∈ t.entries.map Node.key := fun k => by
    rw [← hentries]
    exact hrep.indexed.mem_iff
  refine ⟨h, hrun, ?_⟩
  rw [hentries, huses, hputs]
  refine ⟨hordered.nodup, hmm, hordered.bounded, fun n hn => ⟨hordered.latest n hn,
    hordered.recorded _ (List.mem_map_of_mem hn)⟩, ?_, ?_, ?_, ?_⟩
  · intro now n hn hnow
    obtain ⟨s', hs', hrep'⟩ := hrep.get now n.key
    rw [TimedLRU.get_of_mem hordered.nodup hn, if_neg (by omega)] at hs' hrep'
    exact ⟨s', hs', hrep'.entries_eq⟩
  · intro now n hn hlate
    obtain ⟨s', hs', hrep'⟩ := hrep.get now n.key
    rw [TimedLRU.get_of_mem hordered.nodup hn, if_pos hlate] at hs' hrep'
    refine ⟨s', hs', hrep'.entries_eq, fun hmem => ?_⟩
    rw [hrep'.indexed.mem_iff, ← RedisCacheWithTTL.entries, hrep'.entries_eq] at hmem
    rw [← without_eq_erase hordered.nodup hn] at hmem
    exact notMem_map_without _ _ hmem
  · intro now k hk
    rw [RedisCacheWithTTL.get, Finmap.lookup_eq_none.mpr hk]
  · intro now k value ttlSeconds
    obtain ⟨s', hs', hrep'⟩ := hrep.put hc now k value ttlSeconds
    refine ⟨s', hs', fun hroom => ?_, fun hk hfull => ?_⟩
    · rw [hrep'.entries_eq]
      exact hordered.put_of_room (hroom.imp_left (hmm k).mp)
    · rw [hrep'.entries_eq]
      exact hordered.put_of_full hc (fun hmem => hk ((hmm k).mpr hmem)) hfull

/-- The puts of `main`: the fourth key evicts the one that was not read. -/
theorem redisCache_timed_lru_three :
    1 ≤ 3 ∧ ∃ h, TransitionSystem.run History.call (History.start 3)
        [.put 0 "A" "Apple" 5, .put 1 "B" "Banana" 5, .put 2 "C" "Cat" 5, .get 3 "A",
          .put 4 "D" "Dog" 5] = some h ∧ h.cache.entries.length ≤ 3 := by
  obtain ⟨h, hrun, -, -, hlen, -⟩ := redisCache_timed_lru 3 (by decide)
    [.put 0 "A" "Apple" 5, .put 1 "B" "Banana" 5, .put 2 "C" "Cat" 5, .get 3 "A",
      .put 4 "D" "Dog" 5]
  exact ⟨by decide, h, hrun, hlen⟩

end TTLCaches
