/-
# Copy-on-write snapshots: the snapshot manager and the restore engine

Model of `storage/SnapshotManager.cpp` and `storage/RestoreEngine.cpp`.  A file is a list of
ids of immutable blocks; a snapshot is a copy of that list, and blocks are shared through a
reference count.  The two programs differ only in `restoreSnapshot`, which in the restore
engine also prints its progress.

The ids, versions and counts are `int` in the source and integers here; dereferencing a block
that is not in `blockStore` is the outcome `none`.  `listSnapshots` and `printBlockStore` print
in the unspecified order of an `unordered_map` and are left out.
-/
import Mathlib.Data.Finmap
import SystemsDesign.TransitionSystem

namespace VolumeSnapshots

/-! ## Blocks and snapshots -/

/-- An immutable block of data with the number of block lists that refer to it. -/
structure Block where
  id : ℤ
  data : String
  refCount : ℤ
  deriving DecidableEq, Repr

/-- The constructor of `Block`: one reference, from the current file. -/
def Block.new (id : ℤ) (data : String) : Block :=
  ⟨id, data, 1⟩

/-- A point-in-time copy of the block list. -/
structure Snapshot where
  version : ℤ
  blockIds : List ℤ
  deriving DecidableEq, Repr

/-- The blocks by id. -/
abbrev BlockStore := Finmap fun _ : ℤ => Block

/-- What `readSnapshot` and `restoreSnapshot` print for a version that does not exist. -/
def snapshotNotFound : String := "Snapshot NOT FOUND\n"

/-- Every block of the list gets one reference more. -/
def incrementRefCount (blockStore : BlockStore) (blockIds : List ℤ) : Option BlockStore :=
  blockIds.foldlM (fun store blockId =>
    (store.lookup blockId).map fun block =>
      store.insert blockId { block with refCount := block.refCount + 1 }) blockStore

/-- Every block of the list loses a reference, and is freed inside the loop when none is left. -/
def decrementRefCount (blockStore : BlockStore) (blockIds : List ℤ) : Option BlockStore :=
  blockIds.foldlM (fun store blockId =>
    (store.lookup blockId).map fun block =>
      if block.refCount - 1 = 0 then store.erase blockId
      else store.insert blockId { block with refCount := block.refCount - 1 }) blockStore

/-- The data of the blocks of a list, in order: the loop of the two read functions. -/
def readBlocks (blockStore : BlockStore) (blockIds : List ℤ) : Option (List String) :=
  blockIds.mapM fun blockId => (blockStore.lookup blockId).map Block.data

/-! ## The snapshot manager -/

/-- The fields of `SnapshotManager` (and of `RestoreEngine`) with their initial values. -/
structure SnapshotManager where
  nextBlockId : ℤ := 1
  nextVersion : ℤ := 1
  blockStore : BlockStore := ∅
  snapshots : Finmap fun _ : ℤ => Snapshot := ∅
  currentBlocks : List ℤ := []

namespace SnapshotManager

/-- Append a block to the current file. -/
def write (s : SnapshotManager) (data : String) : SnapshotManager :=
  let block := Block.new s.nextBlockId data
  { s with
    nextBlockId := s.nextBlockId + 1
    blockStore := s.blockStore.insert block.id block
    currentBlocks := s.currentBlocks ++ [block.id] }

/-- The data of the current file. -/
def readCurrentFile (s : SnapshotManager) : Option (List String) :=
  readBlocks s.blockStore s.currentBlocks

/-- Copy the current block list under the next version; the snapshot references its blocks. -/
def createSnapshot (s : SnapshotManager) : Option (ℤ × SnapshotManager) :=
  let version := s.nextVersion
  (incrementRefCount s.blockStore s.currentBlocks).map fun store =>
    (version,
      { s with
        nextVersion := s.nextVersion + 1
        snapshots := s.snapshots.insert version ⟨version, s.currentBlocks⟩
        blockStore := store })

/-- Make a snapshot's block list the current one, together with what is printed. -/
def restoreSnapshot (s : SnapshotManager) (version : ℤ) :
    Option (SnapshotManager × List String) :=
  match s.snapshots.lookup version with
  | none => some (s, [snapshotNotFound])
  | some snapshot =>
    -- the current references go first, so that blocks only the current file has are freed here
    (decrementRefCount s.blockStore s.currentBlocks).bind fun released =>
      (incrementRefCount released snapshot.blockIds).map fun retained =>
        ({ s with blockStore := retained, currentBlocks := snapshot.blockIds }, [])

/-- Drop a snapshot and its references. -/
def deleteSnapshot (s : SnapshotManager) (version : ℤ) : Option SnapshotManager :=
  match s.snapshots.lookup version with
  | none => some s
  | some snapshot =>
    (decrementRefCount s.blockStore snapshot.blockIds).map fun store =>
      { s with blockStore := store, snapshots := s.snapshots.erase version }

/-- The data of a snapshot, or the message printed when there is none. -/
def readSnapshot (s : SnapshotManager) (version : ℤ) : Option (Except String (List String)) :=
  match s.snapshots.lookup version with
  | none => some (.error snapshotNotFound)
  | some snapshot => (readBlocks s.blockStore snapshot.blockIds).map .ok

end SnapshotManager

/-! ## The restore engine -/

/-- The lines `Progress : ..%` for a restore of `totalBlocks` blocks. -/
def progressLines (totalBlocks : ℕ) : List String :=
  (List.range totalBlocks).map fun restoredBlocks =>
    "Progress : " ++ toString ((restoredBlocks + 1) * 100 / totalBlocks) ++ "%\n"

/-- `RestoreEngine::restoreSnapshot`: the same restore, followed by its progress. -/
def RestoreEngine.restoreSnapshot (s : SnapshotManager) (version : ℤ) :
    Option (SnapshotManager × List String) :=
  match s.snapshots.lookup version with
  | none => some (s, [snapshotNotFound])
  | some snapshot =>
    (decrementRefCount s.blockStore s.currentBlocks).bind fun released =>
      (incrementRefCount released snapshot.blockIds).map fun retained =>
        ({ s with blockStore := retained, currentBlocks := snapshot.blockIds },
          progressLines snapshot.blockIds.length)

/-- Which of the two programs runs. -/
inductive Engine where
  | snapshotManager
  | restoreEngine
  deriving DecidableEq, Repr

/-- The calls that change the state. -/
inductive Op where
  | write (data : String)
  | createSnapshot
  | restoreSnapshot (version : ℤ)
  | deleteSnapshot (version : ℤ)
  deriving DecidableEq, Repr

/-- One call; `none` when it dereferences a block that is not there. -/
def step (engine : Engine) (s : SnapshotManager) : Op → Option SnapshotManager
  | .write data => some (s.write data)
  | .createSnapshot => s.createSnapshot.map Prod.snd
  | .restoreSnapshot version =>
    match engine with
    | .snapshotManager => (s.restoreSnapshot version).map Prod.fst
    | .restoreEngine => (RestoreEngine.restoreSnapshot s version).map Prod.fst
  | .deleteSnapshot version => s.deleteSnapshot version

/-- A sequence of calls on a new manager. -/
def run (engine : Engine) (ops : List Op) : Option SnapshotManager :=
  TransitionSystem.run (step engine) {} ops

/-! ## The reference model -/

/-- Snapshots as full copies: what the component is for, without blocks or counts. -/
structure FullCopies where
  nextVersion : ℤ := 1
  current : List String := []
  copies : Finmap fun _ : ℤ => List String := ∅

namespace FullCopies

/-- One call: a snapshot copies the file, a restore replaces the file by the copy. -/
def step (f : FullCopies) : Op → FullCopies
  | .write data => { f with current := f.current ++ [data] }
  | .createSnapshot =>
    { f with
      nextVersion := f.nextVersion + 1
      copies := f.copies.insert f.nextVersion f.current }
  | .restoreSnapshot version =>
    match f.copies.lookup version with
    | none => f
    | some copy => { f with current := copy }
  | .deleteSnapshot version => { f with copies := f.copies.erase version }

/-- A sequence of calls. -/
def run (ops : List Op) : FullCopies :=
  ops.foldl step {}

/-- The copy kept under a version, or the message for a missing one. -/
def readSnapshot (f : FullCopies) (version : ℤ) : Except String (List String) :=
  match f.copies.lookup version with
  | none => .error snapshotNotFound
  | some copy => .ok copy

end FullCopies

end VolumeSnapshots
