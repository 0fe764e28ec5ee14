/-
# Transactions with exclusive write locks

Model of `database-internals/TransactionManager_withExclusiveWritelock.cpp`.  A write takes the
exclusive lock of its key or fails at once, and a transaction keeps its locks until it commits or
aborts, which sweeps the lock table.  Reads take no locks, and an abort does not undo writes.

Result: locks belong to active transactions, a successful write keeps the others from writing the
key until its transaction ends, a write that fails changes nothing, and the database holds the last
value written to each key, which is what reads return.
-/
import SystemsDesign.TransitionSystem

namespace ExclusiveWriteTransactions

/-! ## The lock manager -/

/-- `locks` of `LockManager`: the owner of each locked key. -/
abbrev Locks := String → Option ℤ

/-- `LockManager::lock`. -/
def Locks.lock (locks : Locks) (txnId : ℤ) (key : String) : Bool × Locks :=
  match locks key with
  | none => (true, Function.update locks key (some txnId))
  | some owner =>
    if owner = txnId then (true, Function.update locks key (some txnId)) else (false, locks)

/-- `LockManager::unlock`: the locks of a transaction are erased. -/
def Locks.unlock (locks : Locks) (txnId : ℤ) : Locks := fun key =>
  (locks key).filter fun owner => owner ≠ txnId

/-! ## The transaction manager -/

/-- `Txnstate`. -/
inductive Txnstate where
  | active
  | committed
  | aborted
  deriving DecidableEq

/-- The data members of `TransactionManager`; of a `Transaction` its state. -/
structure TransactionManager where
  nextTxnId : ℤ
  transactions : ℤ → Option Txnstate
  database : String → Option String
  locks : Locks

/-- The initial values. -/
def TransactionManager.new : TransactionManager where
  nextTxnId := 1
  transactions _ := none
  database _ := none
  locks _ := none

namespace TransactionManager

/-- `isActive`. -/
def isActive (tm : TransactionManager) (txnId : ℤ) : Bool :=
  tm.transactions txnId = some .active

/-- `beginTransaction`. -/
def beginTransaction (tm : TransactionManager) : ℤ × TransactionManager :=
  (tm.nextTxnId, { tm with
    nextTxnId := tm.nextTxnId + 1
    transactions := Function.update tm.transactions tm.nextTxnId (some .active) })

/-- `read`. -/
def read (tm : TransactionManager) (txnId : ℤ) (key : String) : String :=
  if tm.isActive txnId then (tm.database key).getD "" else ""

/-- `write`. -/
def write (tm : TransactionManager) (txnId : ℤ) (key value : String) :
    Bool × TransactionManager :=
  if tm.isActive txnId then
    match tm.locks.lock txnId key with
    | (false, _) => (false, tm)
    | (true, locks) =>
      (true, { tm with locks, database := Function.update tm.database key (some value) })
  else (false, tm)

/-- What `commit` and `abort` have in common. -/
def finish (state : Txnstate) (tm : TransactionManager) (txnId : ℤ) : TransactionManager :=
  if tm.isActive txnId then
    { tm with
      transactions := Function.update tm.transactions txnId (some state)
      locks := tm.locks.unlock txnId }
  else tm

/-- `commit`. -/
def commit : TransactionManager → ℤ → TransactionManager := finish .committed

/-- `abort`. -/
def abort : TransactionManager → ℤ → TransactionManager := finish .aborted

end TransactionManager

/-- The calls. -/
inductive Call where
  | beginTransaction
  | read (txnId : ℤ) (key : String)
  | write (txnId : ℤ) (key value : String)
  | commit (txnId : ℤ)
  | abort (txnId : ℤ)
  deriving DecidableEq

/-- The manager after a call. -/
def exec (tm : TransactionManager) : Call → TransactionManager
  | .beginTransaction => tm.beginTransaction.2
  | .read _ _ => tm
  | .write txnId key value => (tm.write txnId key value).2
  | .commit txnId => tm.commit txnId
  | .abort txnId => tm.abort txnId

/-- The manager after a sequence of calls. -/
def run (calls : List Call) : TransactionManager := calls.foldl exec .new

/-- The key and the value that a call writes, if it is a write that returns `true`. -/
def written (tm : TransactionManager) : Call → List (String × String)
  | .write txnId key value => if (tm.write txnId key value).1 then [(key, value)] else []
  | _ => []

/-- The last value that has been written to a key, if there is one. -/
def lastValue (ws : List (String × String)) (key : String) : Option String :=
  (ws.filter fun w => w.1 = key).getLast?.map Prod.snd

/-- The successful writes of a sequence of calls, in order. -/
def writes : TransactionManager → List Call → List (String × String)
  | _, [] => []
  | tm, c :: calls => written tm c ++ writes (exec tm c) calls

/-! ## One call -/

section OneCall

variable {tm : TransactionManager} {txnId owner : ℤ} {key value : String}

theorem write_eq (tm : TransactionManager) (txnId : ℤ) (key value : String) :
    tm.write txnId key value =
      if tm.isActive txnId = true ∧ (tm.locks key = none ∨ tm.locks key = some txnId) then
        (true, { tm with
          locks := Function.update tm.locks key (some txnId)
          database := Function.update tm.database key (some value) })
      else (false, tm) := by
  unfold TransactionManager.write Locks.lock
  by_cases hactive : tm.isActive txnId = true
  · cases hlock : tm.locks key with
    | none => simp [hactive]
    | some owner =>
      by_cases howner : owner = txnId
      · simp [hactive, howner]
      · simp [hactive, howner]
  · simp [hactive]

/-- **A write that fails changes nothing.** -/
theorem write_of_false (h : (tm.write txnId key value).1 = false) :
    (tm.write txnId key value).2 = tm := by
  rw [write_eq] at h ⊢
  split_ifs at h ⊢
  rfl

theorem write_of_true (h : (tm.write txnId key value).1 = true) :
    (tm.write txnId key value).2.locks key = some txnId ∧
      (tm.write txnId key value).2.database = Function.update tm.database key (some value) := by
  rw [write_eq] at h ⊢
  split_ifs at h ⊢
  exact ⟨Function.update_self .., rfl⟩

theorem write_of_locked (h : tm.locks key = some owner) (hne : txnId ≠ owner) :
    (tm.write txnId key value).1 = false := by
  rw [write_eq, if_neg]
  rintro ⟨-, hnone | hsome⟩
  · rw [h] at hnone
    cases hnone
  · exact hne (Option.some.inj (hsome.symm.trans h))

/-- **A lock stays until its owner ends.** -/
theorem locks_exec (h : tm.locks key = some owner) {c : Call} (hcommit : c ≠ .commit owner)
    (habort : c ≠ .abort owner) : (exec tm c).locks key = some owner := by
  have hfinish (state : Txnstate) (txnId : ℤ) (hne : txnId ≠ owner) :
      (TransactionManager.finish state tm txnId).locks key = some owner := by
    unfold TransactionManager.finish
    split_ifs
    · show (tm.locks key).filter _ = some owner
      rw [h]
      simp [hne.symm]
    · exact h
  cases c with
  | beginTransaction => exact h
  | read txnId key => exact h
  | write txnId key' value =>
    show (tm.write txnId key' value).2.locks key = some owner
    rw [write_eq]
    split_ifs with hwrite
    · show Function.update tm.locks key' (some txnId) key = some owner
      by_cases hkey : key = key'
      · -- the key of the lock: only the owner can write it
        subst hkey
        rw [Function.update_self]
        have howner := hwrite.2.resolve_left (by rw [h]; exact Option.some_ne_none owner)
        exact howner.symm.trans h
      · rw [Function.update_of_ne hkey]
        exact h
    · exact h
  | commit txnId => exact hfinish .committed txnId fun heq => hcommit (by rw [heq])
  | abort txnId => exact hfinish .aborted txnId fun heq => habort (by rw [heq])

/-- Every lock is owned by an active transaction. -/
def LocksActive (tm : TransactionManager) : Prop :=
  ∀ key owner, tm.locks key = some owner → tm.isActive owner = true

/-- **Every call keeps the locks with active transactions.** -/
theorem LocksActive.exec (h : LocksActive tm) (c : Call) : LocksActive (exec tm c) := by
  have hfinish (state : Txnstate) (txnId : ℤ) :
      LocksActive (TransactionManager.finish state tm txnId) := by
    unfold TransactionManager.finish
    split_ifs
    · intro key owner hlock
      -- the sweep leaves the locks of the others, whose state is as it was
      obtain ⟨hold, hne⟩ := Option.filter_eq_some_iff.mp hlock
      have hactive : tm.transactions owner = some .active := of_decide_eq_true (h key owner hold)
      apply decide_eq_true
      show Function.update tm.transactions txnId (some state) owner = some .active
      rw [Function.update_of_ne (of_decide_eq_true hne), hactive]
    · exact h
  cases c with
  | beginTransaction =>
    intro key owner hlock
    have hactive : tm.transactions owner = some .active := of_decide_eq_true (h key owner hlock)
    apply decide_eq_true
    show Function.update tm.transactions tm.nextTxnId (some .active) owner = some .active
    by_cases heq : owner = tm.nextTxnId
    · rw [heq, Function.update_self]
    · rw [Function.update_of_ne heq, hactive]
  | read txnId key => exact h
  | write txnId key' value =>
    show LocksActive (tm.write txnId key' value).2
    rw [write_eq]
    split_ifs with hwrite
    · intro key owner hlock
      change Function.update tm.locks key' (some txnId) key = some owner at hlock
      by_cases hkey : key = key'
      · rw [hkey, Function.update_self] at hlock
        obtain rfl := Option.some.inj hlock
        exact hwrite.1
      · rw [Function.update_of_ne hkey] at hlock
        exact h key owner hlock
    · exact h
  | commit txnId => exact hfinish .committed txnId
  | abort txnId => exact hfinish .aborted txnId

/-- A call changes the value of a key only if it is a successful write of it. -/
theorem database_exec (tm : TransactionManager) (c : Call) (key : String) :
    (exec tm c).database key = (lastValue (written tm c) key).or (tm.database key) := by
  have hfinish (state : Txnstate) (txnId : ℤ) :
      (TransactionManager.finish state tm txnId).database = tm.database := by
    unfold TransactionManager.finish
    split_ifs <;> rfl
  cases c with
  | write txnId key' value =>
    show (tm.write txnId key' value).2.database key
      = (lastValue (if (tm.write txnId key' value).1 then [(key', value)] else []) key).or _
    cases hwrite : (tm.write txnId key' value).1 with
    | true =>
      rw [(write_of_true hwrite).2, if_pos rfl]
      by_cases hkey : key = key'
      · subst hkey
        simp [lastValue]
      · rw [Function.update_of_ne hkey]
        simp [lastValue, Ne.symm hkey]
    | false =>
      rw [write_of_false hwrite]
      rfl
  | commit txnId => exact congrFun (hfinish .committed txnId) key
  | abort txnId => exact congrFun (hfinish .aborted txnId) key
  | _ => rfl

end OneCall

/-! ## All calls -/

/-- **The database holds the last value written successfully.** -/
theorem database_foldl (tm : TransactionManager) (calls : List Call) (key : String) :
    (calls.foldl exec tm).database key
      = (lastValue (writes tm calls) key).or (tm.database key) := by
  induction calls generalizing tm with
  | nil => rfl
  | cons c calls ih =>
    have happend : lastValue (written tm c ++ writes (exec tm c) calls) key
        = (lastValue (writes (exec tm c) calls) key).or (lastValue (written tm c) key) := by
      unfold lastValue
      rw [List.filter_append, List.getLast?_append, Option.map_or]
    rw [List.foldl_cons, ih, database_exec, writes, happend, Option.or_assoc]

theorem locks_foldl {tm : TransactionManager} {owner : ℤ} {key : String} {calls : List Call}
    (h : tm.locks key = some owner)
    (hcalls : ∀ c ∈ calls, c ≠ .commit owner ∧ c ≠ .abort owner) :
    (calls.foldl exec tm).locks key = some owner := by
  induction calls generalizing tm with
  | nil => exact h
  | cons c calls ih =>
    obtain ⟨hcommit, habort⟩ := hcalls c List.mem_cons_self
    exact ih (locks_exec h hcommit habort) fun d hd => hcalls d (List.mem_cons_of_mem c hd)

theorem locksActive_run (calls : List Call) : LocksActive (run calls) := by
  have hstart : LocksActive .new := fun _ owner hlock =>
    absurd hlock.symm (Option.some_ne_none owner)
  exact TransitionSystem.foldl_invariant (fun _ c h => h.exec c) hstart calls

theorem database_run (calls : List Call) (key : String) :
    (run calls).database key = lastValue (writes .new calls) key :=
  (database_foldl .new calls key).trans (Option.or_none ..)

/-- **Reads see every successful write**, also of transactions that are active or aborted. -/
theorem read_run (calls : List Call) (txnId : ℤ) (key : String)
    (hactive : (run calls).isActive txnId = true) :
    (run calls).read txnId key = (lastValue (writes .new calls) key).getD "" := by
  rw [TransactionManager.read, if_pos hactive, database_run]

/-- **Exclusive write locks.**  After every sequence of calls: every lock is owned by an active
transaction; where a write of a key has succeeded and its transaction has not ended since, a write
of the key by another transaction fails; a write that fails changes neither database nor locks; and
the value of a key is that of the last successful write. -/
theorem exclusiveWrites_correct (calls : List Call) :
    (∀ key owner, (run calls).locks key = some owner →
      (run calls).isActive owner = true) ∧
    (∀ before txnId key value after, calls = before ++ .write txnId key value :: after →
      ((run before).write txnId key value).1 = true →
      (∀ c ∈ after, c ≠ .commit txnId ∧ c ≠ .abort txnId) →
      ∀ other value', other ≠ txnId → ((run calls).write other key value').1 = false) ∧
    (∀ txnId key value, ((run calls).write txnId key value).1 = false →
      ((run calls).write txnId key value).2.database = (run calls).database ∧
      ((run calls).write txnId key value).2.locks = (run calls).locks) ∧
    (∀ key, (run calls).database key = lastValue (writes .new calls) key) := by
  refine ⟨locksActive_run calls, ?_, fun txnId key value hfalse => ?_, database_run calls⟩
  · rintro before txnId key value after rfl hwrite hafter other value' hne
    have hlocked : (run (before ++ .write txnId key value :: after)).locks key = some txnId := by
      unfold run
      rw [List.foldl_append, List.foldl_cons]
      exact locks_foldl (write_of_true hwrite).1 hafter
    exact write_of_locked hlocked hne
  · rw [write_of_false hfalse]
    exact ⟨rfl, rfl⟩

end ExclusiveWriteTransactions
