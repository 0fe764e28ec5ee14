/-
# The content deduplication engine

Model of `storage/DeduplicationEngine_Block_Chunker.cpp`.  A file is cut into chunks of fixed
size; each distinct chunk is stored once and shared through a reference count kept under the
chunk's fingerprint.

`std::hash` is a parameter, since nothing is known about its values.  Addresses and counts are
unbounded.  Every `operator[]` of the source creates a missing entry with a zero value, here
too.  The `print` functions are left out.
-/
import Mathlib
import SystemsDesign.WhitespaceTokens

namespace Deduplication

open WhitespaceTokens (Text)

/-! ## The chunk store -/

/-- The physical chunks by address. -/
structure ChunkStore where
  nextAddress : ℕ := 0
  storage : Finmap fun _ : ℕ => Text := ∅

namespace ChunkStore

/-- Store a chunk at the next address, which is returned. -/
def writeChunk (c : ChunkStore) (data : Text) : ℕ × ChunkStore :=
  let addr := c.nextAddress
  (addr, { nextAddress := c.nextAddress + 1, storage := c.storage.insert addr data })

/-- `storage[addr]`; a missing address comes into being with the empty chunk. -/
def readChunk (c : ChunkStore) (addr : ℕ) : Text × ChunkStore :=
  let data := (c.storage.lookup addr).getD []
  (data, { c with storage := c.storage.insert addr data })

/-- Free the chunk at an address. -/
def deleteChunk (c : ChunkStore) (addr : ℕ) : ChunkStore :=
  { c with storage := c.storage.erase addr }

end ChunkStore

/-! ## The deduplication index -/

/-- Where a chunk lies and how many occurrences refer to it. -/
structure ChunkMetadata where
  address : ℕ
  refCount : ℤ
  deriving DecidableEq, Repr

/-- Chunk metadata by fingerprint. -/
abbrev DedupIndex := Finmap fun _ : String => ChunkMetadata

namespace DedupIndex

/-- `index[fp]`, before a missing entry is created. -/
def entry (index : DedupIndex) (fp : String) : ChunkMetadata :=
  (index.lookup fp).getD ⟨0, 0⟩

/-- The source's `exists`. -/
def contains (index : DedupIndex) (fp : String) : Bool :=
  (index.lookup fp).isSome

/-- A new fingerprint starts with one reference. -/
def add (index : DedupIndex) (fp : String) (addr : ℕ) : DedupIndex :=
  index.insert fp ⟨addr, 1⟩

/-- `index[fp].ref_count++`. -/
def incrementRef (index : DedupIndex) (fp : String) : DedupIndex :=
  index.insert fp { entry index fp with refCount := (entry index fp).refCount + 1 }

/-- `index[fp].ref_count--`. -/
def decrementRef (index : DedupIndex) (fp : String) : DedupIndex :=
  index.insert fp { entry index fp with refCount := (entry index fp).refCount - 1 }

/-- A copy of `index[fp]`, which exists afterwards. -/
def get (index : DedupIndex) (fp : String) : ChunkMetadata × DedupIndex :=
  (entry index fp, index.insert fp (entry index fp))

/-- Forget a fingerprint. -/
def remove (index : DedupIndex) (fp : String) : DedupIndex :=
  index.erase fp

end DedupIndex

/-! ## The chunker -/

/-- The chunk size, `8` unless given.  It is an `int` in the source; `split` loops forever on
`0`, so that a size is positive here. -/
structure Chunker where
  chunkSize : ℕ := 8
  chunkSize_pos : 0 < chunkSize := by decide

namespace Chunker

/-- The loop of `split` from position `i` on. -/
def splitFrom (c : Chunker) (data : Text) (i : ℕ) : List Text :=
  if i < data.length then
    (data.drop i).take (min c.chunkSize (data.length - i))
      :: splitFrom c data (i + c.chunkSize)
  else []
termination_by data.length - i
decreasing_by
  have := c.chunkSize_pos
  omega

/-- Cut `data` into chunks; the last one may be shorter. -/
def split (c : Chunker) (data : Text) : List Text :=
  splitFrom c data 0

end Chunker

/-! ## The engine -/

/-- `std::hash` rendered as text. -/
def fingerPrint (hash : Text → UInt64) (chunkData : Text) : String :=
  toString (hash chunkData).toNat

/-- The fields of `DataReductionEngine`. -/
structure DataReductionEngine where
  chunker : Chunker := {}
  chunkStore : ChunkStore := {}
  dedupIndex : DedupIndex := ∅
  fileFpMap : Finmap fun _ : String => List String := ∅

namespace DataReductionEngine

/-- The body of the loop of `writeFile`. -/
def storeChunk (hash : Text → UInt64) (e : DataReductionEngine) (chunk : Text) :
    DataReductionEngine :=
  let fp := fingerPrint hash chunk
  if e.dedupIndex.contains fp then
    { e with dedupIndex := e.dedupIndex.incrementRef fp }
  else
    let (addr, store) := e.chunkStore.writeChunk chunk
    { e with chunkStore := store, dedupIndex := e.dedupIndex.add fp addr }

/-- Store the chunks of a file and record their fingerprints under its name. -/
def writeFile (hash : Text → UInt64) (e : DataReductionEngine) (fileName : String)
    (data : Text) : DataReductionEngine :=
  let chunks := e.chunker.split data
  let e' := chunks.foldl (storeChunk hash) e
  { e' with fileFpMap := e'.fileFpMap.insert fileName (chunks.map (fingerPrint hash)) }

/-- The body of the loop of `readFile`. -/
def appendChunk (acc : Text × DataReductionEngine) (fp : String) :
    Text × DataReductionEngine :=
  let (metadata, index) := acc.2.dedupIndex.get fp
  let (data, store) := acc.2.chunkStore.readChunk metadata.address
  (acc.1 ++ data, { acc.2 with dedupIndex := index, chunkStore := store })

/-- The chunks of a file put together; reading an unknown name leaves an empty file behind. -/
def readFile (e : DataReductionEngine) (fileName : String) : Text × DataReductionEngine :=
  let fingerPrints := (e.fileFpMap.lookup fileName).getD []
  fingerPrints.foldl appendChunk
    ([], { e with fileFpMap := e.fileFpMap.insert fileName fingerPrints })

/-- The body of the loop of `deleteFile`. -/
def dropChunk (e : DataReductionEngine) (fp : String) : DataReductionEngine :=
  let (metadata, index) := (e.dedupIndex.decrementRef fp).get fp
  if metadata.refCount = 0 then
    { e with
      chunkStore := e.chunkStore.deleteChunk metadata.address
      dedupIndex := index.remove fp }
  else
    { e with dedupIndex := index }

/-- Release the chunks of a file and forget its name. -/
def deleteFile (e : DataReductionEngine) (fileName : String) : DataReductionEngine :=
  match e.fileFpMap.lookup fileName with
  | none => e
  | some fingerPrints =>
    let e' := fingerPrints.foldl dropChunk e
    { e' with fileFpMap := e'.fileFpMap.erase fileName }

end DataReductionEngine

/-! ## Runs -/

/-- The calls of the engine. -/
inductive Op where
  | writeFile (fileName : String) (data : Text)
  | readFile (fileName : String)
  | deleteFile (fileName : String)
  deriving DecidableEq, Repr

/-- The state after one call. -/
def step (hash : Text → UInt64) (e : DataReductionEngine) : Op → DataReductionEngine
  | .writeFile fileName data => e.writeFile hash fileName data
  | .readFile fileName => (e.readFile fileName).2
  | .deleteFile fileName => e.deleteFile fileName

/-- The state after a sequence of calls on a new engine. -/
def run (hash : Text → UInt64) (chunker : Chunker) (ops : List Op) : DataReductionEngine :=
  ops.foldl (step hash) { chunker := chunker }

/-! ## Plain files -/

/-- What the engine is for: the data of each file that was written and not deleted since. -/
abbrev Files := String → Option Text

/-- One call on plain files. -/
def Files.step (files : Files) : Op → Files
  | .writeFile fileName data => Function.update files fileName (some data)
  | .readFile _ => files
  | .deleteFile fileName => Function.update files fileName none

/-- The files after a sequence of calls. -/
def Files.run (ops : List Op) : Files :=
  ops.foldl Files.step fun _ => none

end Deduplication
