/-
# The LSM write path (`multi-stage-pipeline/LSM_WritePath_StorageEngine.cpp`)

A key-value store with a write-ahead log, an ordered MemTable and a list of immutable
SSTables.

* The log file is the text that `WAL::append` writes, one `key value` line per insert;
  `WAL.recover` reads it back word by word.
* A `KVstore` is the MemTable and the SSTables.  `recover` and `insertKeyValue` flush the
  MemTable to a new SSTable as soon as it holds `memTable_Flush_Threshold` entries.
* `readKey` looks in the MemTable, then in the SSTables from the newest to the oldest, each
  by binary search.

`System` puts a running store beside its log file.  The lock `rwMutex` makes every
operation atomic, so a run is a sequence of operations.
-/
import SystemsDesign.WhitespaceTokens
import SystemsDesign.OrderedMap
import SystemsDesign.BinarySearch

namespace LSMStore

open WhitespaceTokens

/-- The answer of a read that finds nothing. -/
def notFound : Text := "NOT FOUND!".toList

/-! ## The write-ahead log -/

namespace WAL

/-- `WAL::append`: the log file after one more line `key value`. -/
def append (file key value : Text) : Text :=
  file ++ (key ++ ' ' :: (value ++ ['\n']))

/-- `WAL::recover`: the loop `while (ifs >> key >> value)`. -/
def recover (file : Text) : List (Text × Text) :=
  readWhile readPair (fun _ _ _ h => length_lt_of_readPair h) file

end WAL

/-! ## SSTables -/

/-- An immutable table of entries sorted by key. -/
structure SSTable where
  sortedEntries : List (Text × Text)
  sorted : sortedEntries.Pairwise fun a b => a.1 < b.1

namespace SSTable

/-- The constructor `SSTable(memTable)`. -/
def ofMemTable (memTable : OrderedMap Text Text) : SSTable where
  sortedEntries := memTable.toList
  sorted := memTable.toList_pairwise_lt

/-- The binary search of `searchKey`, before its failure is turned into a text. -/
def find (t : SSTable) (key : Text) : Option Text := BinarySearch.find t.sortedEntries key

/-- `SSTable::searchKey`. -/
def searchKey (t : SSTable) (key : Text) : Text := (t.find key).getD notFound

end SSTable

/-! ## The store -/

/-- The in-memory state of a `KVstore`. -/
structure KVstore where
  memTable : OrderedMap Text Text
  sstables : List SSTable

namespace KVstore

/-- `memTable_Flush_Threshold`. -/
def memTableFlushThreshold : ℕ := 3

/-- A store before recovery. -/
def empty : KVstore := ⟨∅, []⟩

/-- `flush_memTable_toDisk`. -/
def flushMemTableToDisk (s : KVstore) : KVstore :=
  ⟨∅, s.sstables ++ [SSTable.ofMemTable s.memTable]⟩

/-- The body of the loop in `recover`. -/
def recoverRecord (s : KVstore) (kv : Text × Text) : KVstore :=
  let s := { s with memTable := s.memTable.insert kv.1 kv.2 }
  -- in case memTable is full during recovery, flush out instantly
  if s.memTable.size ≥ memTableFlushThreshold then s.flushMemTableToDisk else s

/-- Replay of a list of records on the empty store. -/
def replay (logs : List (Text × Text)) : KVstore := logs.foldl recoverRecord empty

/-- The constructor `KVstore(wal_file)`: `recover` on the contents of the log file. -/
def ofFile (file : Text) : KVstore := replay (WAL.recover file)

/-- The memory side of `insertKeyValue`, after the record was logged. -/
def insertKeyValue (s : KVstore) (key value : Text) : KVstore :=
  let s := { s with memTable := s.memTable.insert key value }
  if s.memTable.size ≥ memTableFlushThreshold then s.flushMemTableToDisk else s

/-- The loop of `readKey` over the SSTables, from the newest to the oldest. -/
def searchTables (key : Text) : List SSTable → Text
  | [] => notFound
  | t :: ts =>
    let val := t.searchKey key
    if val ≠ notFound then val else searchTables key ts

/-- `KVstore::readKey`. -/
def readKey (s : KVstore) (key : Text) : Text :=
  match s.memTable[key]? with
  | some value => value
  | none => searchTables key s.sstables.reverse

end KVstore

/-! ## Runs with restarts -/

/-- A running store and its log file. -/
structure System where
  file : Text
  store : KVstore

/-- What a client does: insert a pair, or open a new store on the same log file. -/
inductive Op where
  | insertKeyValue (key value : Text)
  | restart

namespace System

/-- A store opened on an empty log file. -/
def start : System := ⟨[], KVstore.ofFile []⟩

/-- One operation. -/
def step (s : System) : Op → System
  | .insertKeyValue key value =>
    -- 1. WAL first, 2. MemTable update, 3. flush
    ⟨WAL.append s.file key value, s.store.insertKeyValue key value⟩
  | .restart => ⟨s.file, KVstore.ofFile s.file⟩

/-- A sequence of operations. -/
def run (ops : List Op) : System := ops.foldl step start

end System

/-- The records that a sequence of operations logs. -/
def records : List Op → List (Text × Text)
  | [] => []
  | .insertKeyValue key value :: ops => (key, value) :: records ops
  | .restart :: ops => records ops

end LSMStore
