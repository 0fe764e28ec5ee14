/-
# The shared/exclusive lock manager

Model of `storage/LockManager.cpp`: per-resource lock records in an `unordered_map`, one mutex,
a condition variable inside each record, writer preference through `waitingWriters`, upgrades,
downgrades, and a `cleanup` that erases a record nobody owns.

A blocked thread keeps the reference it took from `lock_table`, so a record has an identity
(`cv`); a record that is created again after `cleanup` is another one.  A thread that wakes up
with a reference to an erased record reads freed memory.  The source says nothing about what
happens then; here such a thread leaves without touching any record of the table.
-/
import Mathlib
import SystemsDesign.TransitionSystem
import SystemsDesign.Monitor

namespace LockManagement

/-! ## Lock records -/

/-- The record of a resource; `cv` is the identity of its condition variable. -/
structure LockInfo where
  sharedOwners : Finset ℤ := ∅
  exclusiveOwner : ℤ := -1
  waitingWriters : ℤ := 0
  cv : ℕ
  deriving DecidableEq

/-- Nobody owns the resource and no writer waits for it: the condition of `cleanup`. -/
def LockInfo.Unused (info : LockInfo) : Prop :=
  info.sharedOwners = ∅ ∧ info.exclusiveOwner = -1 ∧ info.waitingWriters = 0

instance (info : LockInfo) : Decidable info.Unused :=
  inferInstanceAs (Decidable (_ ∧ _ ∧ _))

/-- The fields of `LockManager` under the mutex, with the identities given out so far and the
lines printed so far, the last one first. -/
structure LockManager where
  lockTable : Finmap fun _ : String => LockInfo := ∅
  nextCv : ℕ := 0
  printed : List String := []

namespace LockManager

/-- `lock_table[resource]`: the record, which is created when it is missing. -/
def entry (m : LockManager) (resource : String) : LockInfo × LockManager :=
  match m.lockTable.lookup resource with
  | some info => (info, m)
  | none =>
    let info : LockInfo := { cv := m.nextCv }
    (info, { m with lockTable := m.lockTable.insert resource info, nextCv := m.nextCv + 1 })

/-- Write the fields of a record. -/
def set (m : LockManager) (resource : String) (info : LockInfo) : LockManager :=
  { m with lockTable := m.lockTable.insert resource info }

/-- Print what a transaction did to a resource. -/
def print (m : LockManager) (txnId : ℤ) (text : String) : LockManager :=
  { m with printed := ("Txn_" ++ toString txnId ++ text) :: m.printed }

/-- Erase the record of a resource that is not in use. -/
def cleanup (m : LockManager) (resource : String) : LockManager :=
  match m.lockTable.lookup resource with
  | none => m
  | some info =>
    if info.Unused then { m with lockTable := m.lockTable.erase resource } else m

end LockManager

/-! ## Blocked threads -/

/-- The three functions that wait. -/
inductive Call where
  | acquireShared
  | acquireExclusive
  | upgrade
  deriving DecidableEq, Repr

/-- A thread blocked in `cv.wait`, with its arguments and the record it refers to. -/
structure Waiter where
  call : Call
  txnId : ℤ
  resource : String
  cv : ℕ
  deriving DecidableEq, Repr

namespace Call

/-- The condition in the call of `cv.wait`. -/
def ready (info : LockInfo) : Call → Bool
  | .acquireShared => decide (info.exclusiveOwner = -1 ∧ info.waitingWriters = 0)
  | .acquireExclusive => decide (info.exclusiveOwner = -1 ∧ info.sharedOwners = ∅)
  | .upgrade => decide (info.exclusiveOwner = -1 ∧ info.sharedOwners = ∅)

/-- The record when the wait is over. -/
def grant (txnId : ℤ) (info : LockInfo) : Call → LockInfo
  | .acquireShared => { info with sharedOwners := insert txnId info.sharedOwners }
  | .acquireExclusive =>
    { info with waitingWriters := info.waitingWriters - 1, exclusiveOwner := txnId }
  | .upgrade =>
    { info with exclusiveOwner := txnId, waitingWriters := info.waitingWriters - 1 }

/-- What is printed when the wait is over. -/
def text (resource : String) : Call → String
  | .acquireShared => " acquired SHARED Lock on Resource : " ++ resource ++ "\n"
  | .acquireExclusive => " acquired EXCLUSIVE Lock on Resource : " ++ resource ++ "\n"
  | .upgrade => " upgraded to EXCLUSIVE lock on Resource : " ++ resource ++ "\n"

end Call

namespace Waiter

/-- The record the thread's reference leads to; `none` when it was erased. -/
def record (w : Waiter) (m : LockManager) : Option LockInfo :=
  (m.lockTable.lookup w.resource).filter fun info => info.cv = w.cv

/-- The thread finds its condition true. -/
def ready (w : Waiter) (m : LockManager) : Bool :=
  match w.record m with
  | none => true
  | some info => w.call.ready info

/-- The rest of the call after the wait. -/
def proceed (w : Waiter) (m : LockManager) : LockManager :=
  match w.record m with
  | none => m
  | some info =>
    (m.set w.resource (w.call.grant w.txnId info)).print w.txnId (w.call.text w.resource)

end Waiter

/-- The lock manager as a monitor. -/
def monitor : Monitor LockManager Waiter where
  ready := Waiter.ready
  proceed := Waiter.proceed

/-- The lock manager and the threads blocked in it. -/
abbrev State := Monitor.State LockManager Waiter

/-! ## The six functions -/

/-- Wait for the exclusive owner and for waiting writers, then share the resource. -/
def acquireSharedLock (s : State) (txnId : ℤ) (resource : String) : State :=
  let (info, m) := s.shared.entry resource
  monitor.await { s with shared := m } ⟨.acquireShared, txnId, resource, info.cv⟩

/-- Give up a shared lock. -/
def releaseSharedLock (s : State) (txnId : ℤ) (resource : String) : State :=
  match s.shared.lockTable.lookup resource with
  | none => s
  | some info =>
    let m := s.shared.set resource { info with sharedOwners := info.sharedOwners.erase txnId }
    let m := m.print txnId (" released SHARED Lock from Resource : " ++ resource ++ "\n")
    { s with shared := m.cleanup resource }

/-- Announce a writer, then wait for all owners. -/
def acquireExclusiveLock (s : State) (txnId : ℤ) (resource : String) : State :=
  let (info, m) := s.shared.entry resource
  let m := m.set resource { info with waitingWriters := info.waitingWriters + 1 }
  monitor.await { s with shared := m } ⟨.acquireExclusive, txnId, resource, info.cv⟩

/-- Give up an exclusive lock; a transaction that does not own it changes no field. -/
def releaseExclusiveLock (s : State) (txnId : ℤ) (resource : String) : State :=
  match s.shared.lockTable.lookup resource with
  | none => s
  | some info =>
    let info := if info.exclusiveOwner = txnId then { info with exclusiveOwner := -1 } else info
    let m := s.shared.set resource info
    let m := m.print txnId (" released EXCLUSIVE Lock from Resource : " ++ resource ++ "\n")
    { s with shared := m.cleanup resource }

/-- Trade a shared lock for an exclusive one; the shared lock is given up before the wait. -/
def upgrade (s : State) (txnId : ℤ) (resource : String) : State :=
  let (info, m) := s.shared.entry resource
  if txnId ∈ info.sharedOwners then
    let m := m.set resource { info with
      sharedOwners := info.sharedOwners.erase txnId
      waitingWriters := info.waitingWriters + 1 }
    monitor.await { s with shared := m } ⟨.upgrade, txnId, resource, info.cv⟩
  else
    -- the record made by `lock_table[resource]` stays
    { s with shared := m.print txnId " does not own SHARED lock\n" }

/-- Trade an exclusive lock for a shared one. -/
def downgrade (s : State) (txnId : ℤ) (resource : String) : State :=
  let (info, m) := s.shared.entry resource
  if info.exclusiveOwner = txnId then
    let m := m.set resource { info with
      exclusiveOwner := -1
      sharedOwners := insert txnId info.sharedOwners }
    let m := m.print txnId (" downgraded to SHARED lock on Resource : " ++ resource ++ "\n")
    { s with shared := m }
  else
    { s with shared := m.print txnId " does not own EXCLUSIVE lock\n" }

/-! ## Interleavings -/

/-- A critical section: a thread calls a function, or a blocked thread wakes up. -/
inductive Label where
  | acquireShared (txnId : ℤ) (resource : String)
  | releaseShared (txnId : ℤ) (resource : String)
  | acquireExclusive (txnId : ℤ) (resource : String)
  | releaseExclusive (txnId : ℤ) (resource : String)
  | upgrade (txnId : ℤ) (resource : String)
  | downgrade (txnId : ℤ) (resource : String)
  | wake (w : Waiter)
  deriving DecidableEq, Repr

/-- The effect of a critical section; `none` for the wake-up of a thread that is not blocked. -/
def step (s : State) : Label → Option State
  | .acquireShared txnId resource => some (acquireSharedLock s txnId resource)
  | .releaseShared txnId resource => some (releaseSharedLock s txnId resource)
  | .acquireExclusive txnId resource => some (acquireExclusiveLock s txnId resource)
  | .releaseExclusive txnId resource => some (releaseExclusiveLock s txnId resource)
  | .upgrade txnId resource => some (upgrade s txnId resource)
  | .downgrade txnId resource => some (downgrade s txnId resource)
  | .wake w => monitor.wake s w

/-- The state after an interleaving on a new lock manager. -/
def run (labels : List Label) : Option State :=
  TransitionSystem.run step ⟨{}, 0⟩ labels

end LockManagement
