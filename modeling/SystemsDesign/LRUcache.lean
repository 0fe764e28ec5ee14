/-
# The class `LRUcache`

The list of entries, most recently used first, and the map from keys to iterators that
`caching/LRUcache_multi-tier_RAM-SSD-HDD.cpp`, `caching/LRUcache_multiThreaded.cpp`, its sharded
variant (one per bucket) and `storage/Metadata_Store.cpp` keep.  Each of these files has the class
with the methods it needs; a method that two of them have is the same code over the types of the
keys and values.

`LRU` is the cache that the class stands for, on the bare list of entries.
-/
import SystemsDesign.IterList

open IterList

/-- The fields of `LRUcache`.  The capacity is the number `mm.size()` is compared with. -/
structure LRUcache (κ ν : Type*) where
  tcapacity : ℕ
  cache : IterList (κ × ν) := IterList.empty
  mm : Finmap fun _ : κ => ℕ := ∅

namespace LRUcache

variable {κ ν : Type*} [DecidableEq κ]

/-- The entries from the most to the least recently used. -/
def entries (c : LRUcache κ ν) : List (κ × ν) := c.cache.values

/-- `mm.size()`. -/
def size (c : LRUcache κ ν) : ℕ := c.mm.keys.card

/-- `full`. -/
def full (c : LRUcache κ ν) : Bool := c.tcapacity ≤ c.size

/-- `get`: the value, if the key is found; its entry moves to the front. -/
def get (c : LRUcache κ ν) (key : κ) : Option ν × LRUcache κ ν :=
  match c.mm.lookup key with
  | none => (none, c)
  | some found =>
    ((c.cache.get? found).map Prod.snd, { c with cache := c.cache.spliceFront found })

/-- `insert`. -/
def insert (c : LRUcache κ ν) (key : κ) (value : ν) : LRUcache κ ν :=
  { c with cache := c.cache.pushFront (key, value), mm := c.mm.insert key c.cache.next }

/-- `erase`. -/
def erase (c : LRUcache κ ν) (key : κ) : LRUcache κ ν :=
  match c.mm.lookup key with
  | none => c
  | some found => { c with cache := c.cache.erase found, mm := c.mm.erase key }

/-- `evictLRU`; `cache.back()` of an empty list is undefined. -/
def evictLRU (c : LRUcache κ ν) : Option ((κ × ν) × LRUcache κ ν) :=
  match c.cache.back? with
  | none => none
  | some victim =>
    some (victim.2, { c with cache := c.cache.popBack, mm := c.mm.erase victim.2.1 })

/-- `remove_and_extract_value`. -/
def removeAndExtractValue (c : LRUcache κ ν) (key : κ) : Option ν × LRUcache κ ν :=
  match c.mm.lookup key with
  | none => (none, c)
  | some found =>
    ((c.cache.get? found).map Prod.snd,
      { c with cache := c.cache.erase found, mm := c.mm.erase key })

/-- `put`; the entry of a key that is found is moved and then written, a new key takes the place of
the last entry of a full cache. -/
def put (c : LRUcache κ ν) (key : κ) (value : ν) : Option (LRUcache κ ν) :=
  match c.mm.lookup key with
  | some found =>
    some { c with
      cache := (c.cache.spliceFront found).modify found fun entry => (entry.1, value) }
  | none =>
    if c.size = c.tcapacity then c.evictLRU.map fun evicted => evicted.2.insert key value
    else some (c.insert key value)

end LRUcache

/-! ## The cache as a list -/

namespace LRU

variable {κ ν : Type*} [DecidableEq κ]

/-- The entry of a key. -/
def find (es : List (κ × ν)) (key : κ) : Option (κ × ν) := es.find? fun e => e.1 = key

/-- A key that is read moves to the front. -/
def get (es : List (κ × ν)) (key : κ) : List (κ × ν) :=
  match find es key with
  | none => es
  | some e => e :: without Prod.fst key es

/-- A key that is written moves to the front, and the entries beyond the capacity are dropped. -/
def put (capacity : ℕ) (es : List (κ × ν)) (key : κ) (value : ν) : List (κ × ν) :=
  ((key, value) :: without Prod.fst key es).take capacity

variable {es : List (κ × ν)} {key : κ}

theorem find_eq_none : find es key = none ↔ ∀ e ∈ es, e.1 ≠ key := by
  simp [find]

theorem find_eq_some {e : κ × ν} (h : find es key = some e) : e ∈ es ∧ e.1 = key :=
  ⟨List.mem_of_find?_eq_some h, by simpa using List.find?_some h⟩

/-- A read changes the order of the entries only. -/
theorem mem_get {e : κ × ν} (h : e ∈ get es key) : e ∈ es := by
  rw [get] at h
  cases hfind : find es key with
  | none => rwa [hfind] at h
  | some e' =>
    rw [hfind] at h
    rcases List.mem_cons.mp h with rfl | h
    · exact (find_eq_some hfind).1
    · exact (mem_without.mp h).1

/-- What is cached after a write was cached before under another key, or was written. -/
theorem mem_put {capacity : ℕ} {value : ν} {e : κ × ν} (h : e ∈ put capacity es key value) :
    e = (key, value) ∨ e ∈ es ∧ e.1 ≠ key :=
  (List.mem_cons.mp (List.mem_of_mem_take h)).imp id mem_without.mp

/-- In a cache with distinct keys, an entry is found by its key. -/
theorem find_iff (hnodup : (es.map Prod.fst).Nodup) {e : κ × ν} :
    find es key = some e ↔ e ∈ es ∧ e.1 = key := by
  refine ⟨find_eq_some, ?_⟩
  rintro ⟨he, rfl⟩
  exact find?_key_eq hnodup he

end LRU

namespace LRUcache

variable {κ ν : Type*} [DecidableEq κ] {c : LRUcache κ ν}

/-- The map leads from the keys of the list to their entries. -/
def Valid (c : LRUcache κ ν) : Prop := c.cache.Indexed Prod.fst c.mm

theorem valid_new (capacity : ℕ) : ({ tcapacity := capacity } : LRUcache κ ν).Valid :=
  Indexed.of_empty

theorem Valid.nodup (h : c.Valid) : (c.entries.map Prod.fst).Nodup :=
  Indexed.keys_nodup h

theorem Valid.lookup_eq_none_iff (h : c.Valid) {key : κ} :
    c.mm.lookup key = none ↔ ∀ e ∈ c.entries, e.1 ≠ key :=
  Indexed.lookup_eq_none_iff h

theorem Valid.size_eq (h : c.Valid) : c.size = c.entries.length :=
  Indexed.card_keys h

theorem Valid.full_iff (h : c.Valid) : c.full ↔ c.tcapacity ≤ c.entries.length := by
  rw [full, h.size_eq, decide_eq_true_iff]

theorem Valid.find_eq (h : c.Valid) (key : κ) :
    LRU.find c.entries key = (c.mm.lookup key).bind c.cache.get? :=
  Indexed.find?_eq h key

/-- `get` reads the value of the key and moves its entry to the front. -/
theorem Valid.get (h : c.Valid) (key : κ) :
    (c.get key).1 = (LRU.find c.entries key).map Prod.snd ∧ (c.get key).2.Valid ∧
      (c.get key).2.tcapacity = c.tcapacity ∧ (c.get key).2.entries = LRU.get c.entries key := by
  rw [LRUcache.get, LRU.get, h.find_eq]
  cases hi : c.mm.lookup key with
  | none => exact ⟨rfl, h, rfl, rfl⟩
  | some i =>
    obtain ⟨e, hmem, -⟩ := Indexed.found h hi
    have hget : c.cache.get? i = some e := get?_eq_some_iff.mpr hmem
    rw [Option.bind_some, hget]
    refine ⟨?_, Indexed.spliceFront h i, rfl, Indexed.values_spliceFront h hi hmem⟩
    rw [← hget]

theorem Valid.insert (h : c.Valid) {key : κ} (value : ν) (habs : ∀ e ∈ c.entries, e.1 ≠ key) :
    (c.insert key value).Valid ∧ (c.insert key value).entries = (key, value) :: c.entries :=
  ⟨Indexed.pushFront h (v := (key, value)) (h.lookup_eq_none_iff.mpr habs), rfl⟩

theorem Valid.erase (h : c.Valid) (key : κ) :
    (c.erase key).Valid ∧ (c.erase key).tcapacity = c.tcapacity ∧
      (c.erase key).entries = without Prod.fst key c.entries := by
  rw [LRUcache.erase]
  cases hi : c.mm.lookup key with
  | none => exact ⟨h, rfl, (without_eq_self (h.lookup_eq_none_iff.mp hi)).symm⟩
  | some i => exact ⟨Indexed.erase h hi, rfl, Indexed.values_erase h hi⟩

theorem Valid.removeAndExtractValue (h : c.Valid) (key : κ) :
    c.removeAndExtractValue key = ((LRU.find c.entries key).map Prod.snd, c.erase key) := by
  rw [LRUcache.removeAndExtractValue, LRUcache.erase, h.find_eq]
  cases c.mm.lookup key with
  | none => rfl
  | some i => rfl

theorem Valid.evictLRU (h : c.Valid) (hne : c.entries ≠ []) :
    ∃ victim c', c.evictLRU = some (victim, c') ∧ c'.Valid ∧ c'.tcapacity = c.tcapacity ∧
      c.entries = c'.entries ++ [victim] := by
  cases hback : c.cache.back? with
  | none => exact absurd (back?_eq_none_iff.mp hback) hne
  | some n =>
    rw [LRUcache.evictLRU, hback]
    refine ⟨_, _, rfl, Indexed.popBack h hback, rfl, ?_⟩
    have hnodes := congrArg (List.map Prod.snd) (back?_eq_some hback)
    rw [List.map_append] at hnodes
    exact hnodes

/-- **`put` is the put of the LRU cache**, in a cache that is not larger than its positive
capacity. -/
theorem Valid.put (h : c.Valid) (hpos : 1 ≤ c.tcapacity) (hbound : c.entries.length ≤ c.tcapacity)
    (key : κ) (value : ν) :
    ∃ c', c.put key value = some c' ∧ c'.Valid ∧ c'.tcapacity = c.tcapacity ∧
      c'.entries = LRU.put c.tcapacity c.entries key value := by
  rw [LRUcache.put, LRU.put]
  cases hi : c.mm.lookup key with
  | some i =>
    obtain ⟨hvalid, e, he, -, rfl, hvalues⟩ :=
      Indexed.touch h hi (f := fun entry => (entry.1, value)) fun _ => rfl
    refine ⟨_, rfl, hvalid, rfl, hvalues.trans (List.take_of_length_le ?_).symm⟩
    have hlen := length_without h.nodup he
    show (without Prod.fst e.1 c.entries).length + 1 ≤ c.tcapacity
    exact hlen.trans_le hbound
  | none =>
    have habs := h.lookup_eq_none_iff.mp hi
    rw [without_eq_self habs, h.size_eq]
    dsimp only
    split_ifs with hfull
    · have hne : c.entries ≠ [] := by
        intro hnil
        rw [hnil, List.length_nil] at hfull
        omega
      obtain ⟨victim, c₁, hevict, hvalid, hcap, hentries⟩ := h.evictLRU hne
      rw [hevict]
      have habs' : ∀ e ∈ c₁.entries, e.1 ≠ key := fun e he =>
        habs e (hentries ▸ List.mem_append_left _ he)
      obtain ⟨hvalid', hentries'⟩ := hvalid.insert value habs'
      refine ⟨_, rfl, hvalid', hcap, hentries'.trans ?_⟩
      have hlen : ((key, value) :: c₁.entries).length = c.tcapacity := by
        rw [← hfull, hentries]
        simp
      rw [hentries, ← List.cons_append, List.take_left' hlen]
    · obtain ⟨hvalid', hentries'⟩ := h.insert value habs
      refine ⟨_, rfl, hvalid', rfl, hentries'.trans (List.take_of_length_le ?_).symm⟩
      rw [List.length_cons]
      omega

/-- The map is right, and the cache is not larger than its positive capacity. -/
structure Sound (c : LRUcache κ ν) : Prop where
  valid : c.Valid
  positive : 1 ≤ c.tcapacity
  bounded : c.entries.length ≤ c.tcapacity

theorem sound_new {capacity : ℕ} (hpos : 1 ≤ capacity) :
    ({ tcapacity := capacity } : LRUcache κ ν).Sound :=
  ⟨valid_new capacity, hpos, Nat.zero_le _⟩

theorem Sound.splice (h : c.Sound) (i : ℕ) :
    ({ c with cache := c.cache.spliceFront i } : LRUcache κ ν).Sound :=
  ⟨Indexed.spliceFront h.valid i, h.positive, (length_values_spliceFront _ _).trans_le h.bounded⟩

theorem Sound.get (h : c.Sound) (key : κ) : (c.get key).2.Sound := by
  rw [LRUcache.get]
  cases c.mm.lookup key with
  | none => exact h
  | some i => exact h.splice i

theorem Sound.erase (h : c.Sound) (key : κ) : (c.erase key).Sound := by
  obtain ⟨hvalid, hcap, hentries⟩ := h.valid.erase key
  refine ⟨hvalid, h.positive.trans_eq hcap.symm, ?_⟩
  rw [hentries, hcap]
  exact (without_sublist _ _).length_le.trans h.bounded

theorem Sound.put (h : c.Sound) (key : κ) (value : ν) :
    ∃ c', c.put key value = some c' ∧ c'.Sound ∧
      c'.entries = LRU.put c.tcapacity c.entries key value := by
  obtain ⟨c', hc', hvalid, hcap, hentries⟩ := h.valid.put h.positive h.bounded key value
  refine ⟨c', hc', ⟨hvalid, h.positive.trans_eq hcap.symm, ?_⟩, hentries⟩
  rw [hentries, hcap]
  exact List.length_take_le _ _

/-- A put of the key evicts the entry: the key is new, the cache is full and the entry is the last
one. -/
def Evicts (c : LRUcache κ ν) (key : κ) (i : ℕ) : Prop :=
  c.mm.lookup key = none ∧ c.size = c.tcapacity ∧ c.cache.back?.map Prod.fst = some i

instance (c : LRUcache κ ν) (key : κ) (i : ℕ) : Decidable (c.Evicts key i) :=
  inferInstanceAs (Decidable (_ ∧ _ ∧ _))

theorem live_put {c' : LRUcache κ ν} {key : κ} {value : ν} (hput : c.put key value = some c')
    {i : ℕ} (hi : c.cache.Live i) : c'.cache.Live i ↔ ¬ c.Evicts key i := by
  rw [LRUcache.put] at hput
  cases hlook : c.mm.lookup key with
  | some found =>
    rw [hlook] at hput
    obtain rfl := Option.some.inj hput
    apply iff_of_true (live_modify.mpr (live_spliceFront.mpr hi))
    intro hev
    rw [hev.1] at hlook
    cases hlook
  | none =>
    rw [hlook] at hput
    dsimp only at hput
    split_ifs at hput with hfull
    · cases hback : c.cache.back? with
      | none =>
        rw [LRUcache.evictLRU, hback] at hput
        cases hput
      | some n =>
        rw [LRUcache.evictLRU, hback] at hput
        obtain rfl := Option.some.inj hput
        have hiff : c.Evicts key i ↔ i = n.1 := by
          rw [Evicts, hback]
          constructor
          · exact fun hev => (Option.some.inj hev.2.2).symm
          · exact fun heq => ⟨hlook, hfull, congrArg some heq.symm⟩
        have hlive :
            (c.cache.popBack.pushFront (key, value)).Live i ↔ c.cache.Live i ∧ i ≠ n.1 := by
          rw [live_pushFront, popBack_eq_erase hback, live_erase]
          exact or_iff_right hi.lt_next.ne
        rw [hiff]
        exact hlive.trans (and_iff_right hi)
    · obtain rfl := Option.some.inj hput
      exact iff_of_true (live_pushFront.mpr (Or.inr hi)) fun hev => hfull hev.2.1

end LRUcache
