/-
# The write-ahead log with sequence numbers (`storage/WALrecovery.cpp`)

A key-value store that logs every `put` and `remove` before it applies it to its memtable,
and rebuilds the memtable from the log when it is opened.

* `WAL.append` writes one line `lsn PUT key value` or `lsn DELETE key ` per call; the value of
  a `DELETE` is the empty string, so its line ends with a blank.
* `WAL.recover` extracts a number and two words per record, and a third word for a `PUT`.
  The variable that takes this word lives outside the loop: where the extraction fails, and in
  a record that is not a `PUT`, it keeps the value of the record before.
* Opening a store replays the recovered records and re-derives `next_lsn` from them.

Sequence numbers are integers without a width: the model does not follow `next_lsn` past the
largest `int`.  The memtable is a finite map; what is printed is left out.
-/
import SystemsDesign.WhitespaceTokens

namespace WALRecovery

open WhitespaceTokens

/-! ## Records and their lines -/

/-- `enum class RecordType`. -/
inductive RecordType where
  | put
  | deleteOp
  deriving DecidableEq, Repr

/-- The word that `append` writes for a record type. -/
def RecordType.word : RecordType → Text
  | .put => "PUT".toList
  | .deleteOp => "DELETE".toList

/-- `struct LogRecord`. -/
structure LogRecord where
  lsn : ℤ
  recordType : RecordType
  key : Text
  value : Text
  deriving DecidableEq, Repr

/-- The line that `append` writes. -/
def LogRecord.line (r : LogRecord) : Text :=
  decimal r.lsn ++ ' ' :: (r.recordType.word ++ ' ' :: (r.key ++ ' ' :: (r.value ++ ['\n'])))

/-! ## The log -/

/-- The fields of a `WAL`; the file is kept apart. -/
structure WAL where
  nextLsn : ℤ := 1

namespace WAL

/-- `WAL::append`: the log and the file afterwards. -/
def append (wal : WAL) (file : Text) (type : RecordType) (key value : Text) : WAL × Text :=
  (⟨wal.nextLsn + 1⟩, file ++ LogRecord.line ⟨wal.nextLsn, type, key, value⟩)

/-- `ifs >> lsn >> op_type >> key`. -/
def readHeader (s : Text) : Option ((ℤ × Text × Text) × Text) :=
  (readInt s).bind fun (lsn, s) =>
    (readWord s).bind fun (opType, s) =>
      (readWord s).map fun (key, s) => ((lsn, opType, key), s)

/-- One round of the loop in `recover`, where `value` is what the variable holds before.  An
extraction of the value that fails leaves nothing to be read. -/
def readRecord (value s : Text) : Option (LogRecord × Text) :=
  (readHeader s).map fun ((lsn, opType, key), s) =>
    if opType = RecordType.put.word then
      match readWord s with
      | some (value, s) => (⟨lsn, .put, key, value⟩, s)
      | none => (⟨lsn, .put, key, value⟩, [])
    else (⟨lsn, .deleteOp, key, value⟩, s)

theorem length_lt_of_readHeader {s r : Text} {h : ℤ × Text × Text}
    (hs : readHeader s = some (h, r)) : r.length < s.length := by
  simp only [readHeader, Option.bind_eq_some_iff, Option.map_eq_some_iff, Prod.exists] at hs
  obtain ⟨lsn, s₁, h₁, opType, s₂, h₂, key, s₃, h₃, heq⟩ := hs
  obtain ⟨-, rfl⟩ := Prod.mk.inj heq
  have := length_lt_of_readInt h₁
  have := length_lt_of_readWord h₂
  have := length_lt_of_readWord h₃
  omega

/-- Reading a record consumes characters. -/
theorem length_lt_of_readRecord (v s : Text) (a : LogRecord) (r : Text)
    (h : readRecord v s = some (a, r)) : r.length < s.length := by
  obtain ⟨⟨⟨lsn, opType, key⟩, s₁⟩, hhead, heq⟩ := Option.map_eq_some_iff.mp h
  have hlt := length_lt_of_readHeader hhead
  dsimp only at heq
  split_ifs at heq
  · cases hv : readWord s₁ with
    | none =>
      rw [hv] at heq
      obtain ⟨-, rfl⟩ := Prod.mk.inj heq
      simp only [List.length_nil]
      omega
    | some p =>
      rw [hv] at heq
      obtain ⟨-, rfl⟩ := Prod.mk.inj heq
      have := length_lt_of_readWord hv
      omega
  · obtain ⟨-, rfl⟩ := Prod.mk.inj heq
    exact hlt

/-- The loop of `recover` from a stream that is left, with `value` in the variable. -/
def recoverFrom (value s : Text) : List LogRecord :=
  readChain readRecord LogRecord.value length_lt_of_readRecord value s

/-- `WAL::recover`: the records of the file, and the log with its next number. -/
def recover (wal : WAL) (file : Text) : List LogRecord × WAL :=
  let logs := recoverFrom [] file
  (logs, ⟨logs.foldl (fun next r => max next (r.lsn + 1)) wal.nextLsn⟩)

end WAL

/-! ## The store -/

/-- `memtable`. -/
abbrev Memtable := Finmap fun _ : Text => Text

/-- `class KVstore`. -/
structure KVstore where
  memtable : Memtable := ∅
  wal : WAL := {}

namespace KVstore

/-- The body of the loop in `replay`. -/
def replayRecord (memtable : Memtable) (r : LogRecord) : Memtable :=
  match r.recordType with
  | .put => memtable.insert r.key r.value
  | .deleteOp => memtable.erase r.key

/-- The constructor `KVstore(filename)`: `replay` on the contents of the log file. -/
def ofFile (file : Text) : KVstore :=
  let (logs, wal) := ({} : WAL).recover file
  ⟨logs.foldl replayRecord ∅, wal⟩

/-- `get`. -/
def get (s : KVstore) (key : Text) : Text := (s.memtable.lookup key).getD "NOT_FOUND!".toList

/-- `put`: the store and the log file afterwards. -/
def put (s : KVstore) (file key value : Text) : KVstore × Text :=
  let (wal, file) := s.wal.append file .put key value
  (⟨s.memtable.insert key value, wal⟩, file)

/-- `remove`: the store and the log file afterwards. -/
def remove (s : KVstore) (file key : Text) : KVstore × Text :=
  let (wal, file) := s.wal.append file .deleteOp key []
  (⟨s.memtable.erase key, wal⟩, file)

end KVstore

/-! ## Runs with restarts -/

/-- A call that changes the store. -/
inductive Update where
  | put (key value : Text)
  | remove (key : Text)
  deriving DecidableEq, Repr

/-- The keys and values of the call are words. -/
def Update.Words : Update → Prop
  | .put key value => IsWord key ∧ IsWord value
  | .remove key => IsWord key

instance (u : Update) : Decidable u.Words := by
  cases u <;> unfold Update.Words <;> infer_instance

/-- What a client does: change the store, or open a new one on the same log file. -/
inductive Op where
  | call (u : Update)
  | restart
  deriving DecidableEq, Repr

/-- A running store and its log file. -/
structure System where
  file : Text
  store : KVstore

namespace System

/-- A store opened on an empty log file. -/
def start : System := ⟨[], KVstore.ofFile []⟩

/-- One operation. -/
def step (s : System) : Op → System
  | .call (.put key value) =>
    let (store, file) := s.store.put s.file key value
    ⟨file, store⟩
  | .call (.remove key) =>
    let (store, file) := s.store.remove s.file key
    ⟨file, store⟩
  | .restart => ⟨s.file, KVstore.ofFile s.file⟩

/-- A sequence of operations. -/
def run (ops : List Op) : System := ops.foldl step start

end System

end WALRecovery
