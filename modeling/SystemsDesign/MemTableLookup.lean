/-
# Lookups in MemTable and SSTables

Model of `caching/MemTable_SSTable_Lookup.cpp`.  The engine is the store of `LSMStore` without its
log and with a flush threshold that the caller chooses; `SSTable`, the flush and `readKey` are the
same code in both.

A failed search of a table is reported as the text `NOT FOUND!`.  A table that holds this text as a
value is passed over like one without the key, and the search goes on to older tables.

Result: `readKey` returns the last value that was inserted, unless this value is `NOT FOUND!`, was
flushed, and an older table holds another value of the key.
-/
import SystemsDesign.LSMRecovery

namespace LSMStore

open WhitespaceTokens

/-! ## The engine -/

/-- The data members of `LSMstorageEngine`. -/
structure LSMstorageEngine extends KVstore where
  memTableFlushThreshold : ℤ

namespace LSMstorageEngine

/-- The constructor. -/
def ofThreshold (flushThreshold : ℤ) : LSMstorageEngine :=
  { KVstore.empty with memTableFlushThreshold := flushThreshold }

/-- `flush_memTable_toDisk`. -/
def flushMemTableToDisk (e : LSMstorageEngine) : LSMstorageEngine :=
  { e with toKVstore := e.toKVstore.flushMemTableToDisk }

/-- `insertKeyValue`. -/
def insertKeyValue (e : LSMstorageEngine) (key value : Text) : LSMstorageEngine :=
  let e := { e with memTable := e.memTable.insert key value }
  -- the comparison with `size()` converts the `int` to `size_t`
  if (e.memTable.size : ℤ) ≥ e.memTableFlushThreshold % 2 ^ 64 then e.flushMemTableToDisk else e

/-- `readKey`. -/
def readKey (e : LSMstorageEngine) (key : Text) : Text := e.toKVstore.readKey key

/-- The engine after a sequence of `insertKeyValue` calls. -/
def run (flushThreshold : ℤ) (inserts : List (Text × Text)) : LSMstorageEngine :=
  inserts.foldl (fun e kv => e.insertKeyValue kv.1 kv.2) (ofThreshold flushThreshold)

/-- The key is not in the MemTable, and a table has a value for it that a search can report. -/
def HasFlushedValue (e : LSMstorageEngine) (key : Text) : Prop :=
  e.memTable[key]? = none ∧ ∃ t ∈ e.sstables, ∃ v, t.find key = some v ∧ v ≠ notFound

/-! ## The engine as a map -/

theorem lookup_insertKeyValue (e : LSMstorageEngine) (kv : Text × Text) (key : Text) :
    (e.insertKeyValue kv.1 kv.2).lookup key = if kv.1 = key then some kv.2 else e.lookup key := by
  rw [← KVstore.lookup_insert_memTable]
  unfold insertKeyValue
  dsimp only
  split
  · exact KVstore.lookup_flushMemTableToDisk _ key
  · rfl

/-- **The engine maps every key to its last value.** -/
theorem lookup_run (flushThreshold : ℤ) (inserts : List (Text × Text)) (key : Text) :
    (run flushThreshold inserts).lookup key = inserts.reverse.lookup key := by
  induction inserts using List.reverseRecOn with
  | nil => simp [run, ofThreshold, KVstore.empty, KVstore.lookup]
  | append_singleton inserts kv ih =>
    rw [run, List.foldl_concat, lookup_insertKeyValue, ← run, ih, lookup_concat]

/-! ## The search of the tables -/

/-- The search stops at the first table that has the key, unless its value is the text of a failed
search. -/
theorem searchTables_of_findSome? {key v : Text} (hv : v ≠ notFound) {ts : List SSTable}
    (h : (ts.findSome? fun t => t.find key) = some v) : KVstore.searchTables key ts = v := by
  induction ts with
  | nil => cases h
  | cons t ts ih =>
    rw [List.findSome?_cons] at h
    cases hfind : t.find key with
    | none =>
      rw [hfind] at h
      simp [KVstore.searchTables, SSTable.searchKey, hfind, ih h]
    | some w =>
      rw [hfind] at h
      obtain rfl := Option.some.inj h
      simp [KVstore.searchTables, SSTable.searchKey, hfind, hv]

theorem searchTables_eq_notFound_iff {key : Text} {ts : List SSTable} :
    KVstore.searchTables key ts = notFound
      ↔ ¬ ∃ t ∈ ts, ∃ v, t.find key = some v ∧ v ≠ notFound := by
  induction ts with
  | nil => simp [KVstore.searchTables]
  | cons t ts ih =>
    rw [KVstore.searchTables, List.exists_mem_cons_iff]
    cases hfind : t.find key with
    | none => simp [SSTable.searchKey, hfind, ih]
    | some w =>
      by_cases hw : w = notFound
      · simp [SSTable.searchKey, hfind, hw, ih]
      · simp [SSTable.searchKey, hfind, hw]

/-! ## Reads -/

/-- **Reads return the last write.**  After any inserts, `readKey` returns the last value of a key
unless that value is the text `NOT FOUND!`, was flushed, and a table holds another value of the
key. -/
theorem readKey_eq_last_iff (flushThreshold : ℤ) (inserts : List (Text × Text)) (key value : Text)
    (hlast : inserts.reverse.lookup key = some value) :
    (run flushThreshold inserts).readKey key = value
      ↔ ¬ (value = notFound ∧ (run flushThreshold inserts).HasFlushedValue key) := by
  have hlookup := (lookup_run flushThreshold inserts key).trans hlast
  unfold KVstore.lookup at hlookup
  unfold readKey KVstore.readKey HasFlushedValue
  cases hmem : (run flushThreshold inserts).memTable[key]? with
  | some v =>
    rw [hmem, Option.some_or] at hlookup
    simp [Option.some.inj hlookup]
  | none =>
    rw [hmem, Option.none_or] at hlookup
    by_cases hv : value = notFound
    · subst hv
      simp [searchTables_eq_notFound_iff]
    · simp [searchTables_of_findSome? hv hlookup, hv]

theorem readKey_eq_last_iff_overwritten :
    (run 1 [("apple".toList, "red".toList), ("apple".toList, "green".toList)]).readKey
      "apple".toList = "green".toList :=
  (readKey_eq_last_iff 1 _ "apple".toList "green".toList (by decide)).mpr
    fun h => absurd h.1 (by decide)

/-- With threshold 1, `NOT FOUND!` is written over a value, and the old value is read. -/
theorem old_value_read :
    (run 1 [("apple".toList, "red".toList), ("apple".toList, notFound)]).readKey
      "apple".toList = "red".toList := by
  decide +kernel

end LSMstorageEngine

end LSMStore
