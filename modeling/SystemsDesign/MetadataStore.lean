/-
# The metadata service

Model of `storage/Metadata_Store.cpp`: a hash map from paths to metadata under a reader-writer lock,
and in front of it an LRU cache under a mutex of its own.  `put` and `remove` change the store and
then the cache while they hold the lock exclusively.  `get` asks the cache without the lock; after a
miss it takes the lock shared, looks into the store, and fills the cache before it releases the
lock.

A call of the cache is one step; the steps of the calls of any number of threads interleave.  The
fields `writes`, `returned` and `results` record what happened: no step reads them.
-/
import SystemsDesign.LRUcache
import SystemsDesign.TransitionSystem

namespace MetadataStore

/-- The metadata of a file. -/
structure Metadata where
  inodeNumber : ℤ
  fileSize : ℕ
  deriving DecidableEq, Repr

/-- `{-1, 0}`, the answer when there is no metadata. -/
def Metadata.missing : Metadata := ⟨-1, 0⟩

/-- The two calls that change the store. -/
inductive Write where
  | put (path : String) (metadata : Metadata)
  | remove (path : String)
  deriving DecidableEq, Repr

namespace Write

/-- The path that is changed. -/
def path : Write → String
  | put path _ => path
  | remove path => path

/-- What the store has for the path afterwards. -/
def value : Write → Option Metadata
  | put _ metadata => some metadata
  | remove _ => none

/-- The change of `metadata_store`. -/
def onStore (store : Finmap fun _ : String => Metadata) : Write → Finmap fun _ : String => Metadata
  | put path metadata => store.insert path metadata
  | remove path => store.erase path

/-- The call of the cache. -/
def onCache (cache : LRUcache String Metadata) : Write → Option (LRUcache String Metadata)
  | put path metadata => cache.put path metadata
  | remove path => some (cache.erase path)

end Write

/-- Where a `put` or `remove` is. -/
inductive WritePc where
  | lock
  | store
  | cache
  | unlock
  deriving DecidableEq, Repr

/-- Where a `get` is, with the metadata it has found. -/
inductive ReadPc where
  | cache
  | lock
  | store
  | fill (metadata : Metadata)
  | unlock (metadata : Metadata)
  deriving DecidableEq, Repr

/-- What a thread is about to do.  A `get` remembers how many writes of its path had returned when
it started. -/
inductive Phase where
  | idle
  | writing (write : Write) (pc : WritePc)
  | reading (path : String) (since : ℕ) (pc : ReadPc)
  deriving DecidableEq, Repr

/-- A thread that holds `rwlock` exclusively. -/
def Phase.Exclusive : Phase → Prop
  | writing _ pc => pc ≠ .lock
  | _ => False

/-- A thread that holds `rwlock` shared. -/
def Phase.Shared : Phase → Prop
  | reading _ _ (.store) => True
  | reading _ _ (.fill _) => True
  | reading _ _ (.unlock _) => True
  | _ => False

/-- The answer of a `get`, and how many writes of its path had returned when it started. -/
structure Answer where
  path : String
  since : ℕ
  metadata : Metadata
  deriving DecidableEq, Repr

/-- The service, its threads, and the record of what they did: for every path the values that were
written, the first one first, and how many of the writes have returned. -/
structure State where
  store : Finmap fun _ : String => Metadata := ∅
  cache : LRUcache String Metadata
  writer : Option ℕ := none
  readers : Finset ℕ := ∅
  threads : ℕ → Phase := fun _ => .idle
  writes : String → List (Option Metadata) := fun _ => []
  returned : String → ℕ := fun _ => 0
  answers : List Answer := []

/-- The calls of the service. -/
inductive Call where
  | put (path : String) (inodeNumber : ℤ) (fileSize : ℕ)
  | remove (path : String)
  | get (path : String)
  deriving DecidableEq, Repr

/-- A thread starts a call, or goes on with its call. -/
inductive Action where
  | start (thread : ℕ) (call : Call)
  | go (thread : ℕ)
  deriving DecidableEq, Repr

namespace State

/-- A new service. -/
def new (cacheSize : ℕ) : State := { cache := { tcapacity := cacheSize } }

/-- The thread goes to a phase. -/
def goto (s : State) (t : ℕ) (phase : Phase) : State :=
  { s with threads := Function.update s.threads t phase }

/-- The `get` of a thread returns. -/
def answer (s : State) (t : ℕ) (path : String) (since : ℕ) (metadata : Metadata) : State :=
  { s.goto t .idle with answers := ⟨path, since, metadata⟩ :: s.answers }

/-- The first phase of a call. -/
def enter (s : State) : Call → Phase
  | .put path inodeNumber fileSize => .writing (.put path ⟨inodeNumber, fileSize⟩) .lock
  | .remove path => .writing (.remove path) .lock
  | .get path => .reading path (s.returned path) .cache

/-- The steps of `put` and `remove`. -/
def write (s : State) (t : ℕ) (w : Write) : WritePc → Option State
  | .lock =>
    if s.writer = none ∧ s.readers = ∅ then
      some { s.goto t (.writing w .store) with writer := some t }
    else none
  | .store =>
    some { s.goto t (.writing w .cache) with
      store := w.onStore s.store
      writes := Function.update s.writes w.path (s.writes w.path ++ [w.value]) }
  | .cache =>
    (w.onCache s.cache).map fun cache => { s.goto t (.writing w .unlock) with cache := cache }
  | .unlock =>
    some { s.goto t .idle with
      writer := none
      returned := Function.update s.returned w.path (s.writes w.path).length }

/-- The steps of `get`.  An entry with the inode number `-1` counts as a miss. -/
def read (s : State) (t : ℕ) (path : String) (since : ℕ) : ReadPc → Option State
  | .cache =>
    let found := (s.cache.get path).1.getD Metadata.missing
    let s := { s with cache := (s.cache.get path).2 }
    if found.inodeNumber ≠ -1 then some (s.answer t path since found)
    else some (s.goto t (.reading path since .lock))
  | .lock =>
    if s.writer = none then
      some { s.goto t (.reading path since .store) with readers := insert t s.readers }
    else none
  | .store =>
    match s.store.lookup path with
    | none => some (s.goto t (.reading path since (.unlock Metadata.missing)))
    | some metadata => some (s.goto t (.reading path since (.fill metadata)))
  | .fill metadata =>
    (s.cache.put path metadata).map fun cache =>
      { s.goto t (.reading path since (.unlock metadata)) with cache := cache }
  | .unlock metadata =>
    some { s.answer t path since metadata with readers := s.readers.erase t }

/-- One step of a thread. -/
def step (s : State) : Action → Option State
  | .start t call => if s.threads t = .idle then some (s.goto t (s.enter call)) else none
  | .go t =>
    match s.threads t with
    | .idle => none
    | .writing w pc => s.write t w pc
    | .reading path since pc => s.read t path since pc

end State

end MetadataStore
