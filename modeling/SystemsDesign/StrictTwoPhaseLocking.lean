/-
# Strict two-phase locking (`database-internals/TransactionManager_withStrict2PL.cpp`)

Transactions take shared locks to read and exclusive locks to write, and keep them until
they commit or abort; a request that conflicts fails at once.

The header of the source promises that `write()` acquires an exclusive lock and that a
transaction can upgrade its shared lock if it is the only shared owner.  The upgrade branch of
`acquire_exclusive_lock` answers `true` without setting `exclusive_owner`, so a key written
through it is not protected.  `write_isolates_iff` says that this is the only hole: a
successful write isolates its key until the transaction ends, if and only if it does not go
through the upgrade branch.
-/
import Mathlib

namespace StrictTwoPhaseLocking

/-! ## The lock manager -/

/-- `struct Lock`. -/
structure Lock where
  sharedOwners : Finset ℤ := ∅
  exclusiveOwner : ℤ := -1
  deriving DecidableEq

/-- `lock_table`.  Entries are created on first use and never removed, so a key without an
entry is a key with the default lock. -/
abbrev LockTable := String → Lock

namespace LockTable

/-- `acquire_shared_lock`. -/
def acquireSharedLock (table : LockTable) (txnId : ℤ) (key : String) : Bool × LockTable :=
  let lock := table key
  if lock.exclusiveOwner = -1 ∨ lock.exclusiveOwner = txnId then
    (true, Function.update table key
      { lock with sharedOwners := insert txnId lock.sharedOwners })
  else (false, table)

/-- `acquire_exclusive_lock`. -/
def acquireExclusiveLock (table : LockTable) (txnId : ℤ) (key : String) : Bool × LockTable :=
  let lock := table key
  if lock.exclusiveOwner = txnId then (true, table)
  else if lock.exclusiveOwner ≠ -1 then (false, table)
  else if lock.sharedOwners ≠ ∅ then
    -- the upgrade branch: nothing is recorded
    if lock.sharedOwners.card = 1 ∧ txnId ∈ lock.sharedOwners then (true, table)
    else (false, table)
  else (true, Function.update table key { lock with exclusiveOwner := txnId })

/-- `release_all_locks`. -/
def releaseAllLocks (table : LockTable) (txnId : ℤ) : LockTable := fun key =>
  { sharedOwners := (table key).sharedOwners.erase txnId
    exclusiveOwner :=
      if (table key).exclusiveOwner = txnId then -1 else (table key).exclusiveOwner }

end LockTable

/-! ## The transaction manager -/

/-- `enum class Txnstate`. -/
inductive Txnstate where
  | active
  | committed
  | aborted
  deriving DecidableEq, Repr

/-- `class TransactionManager`. -/
structure TransactionManager where
  nextTxnId : ℤ := 1
  /-- `transactions`, reduced to the state of each transaction. -/
  transactions : ℤ → Option Txnstate := fun _ => none
  /-- `database`; `database[key]` creates the empty string. -/
  database : String → String := fun _ => ""
  lockTable : LockTable := fun _ => {}

namespace TransactionManager

/-- `isActive`. -/
def isActive (m : TransactionManager) (txnId : ℤ) : Bool :=
  m.transactions txnId = some .active

/-- `beginTransaction`: the id of the new transaction is the old `nextTxnId`. -/
def beginTransaction (m : TransactionManager) : TransactionManager :=
  { m with
    nextTxnId := m.nextTxnId + 1
    transactions := Function.update m.transactions m.nextTxnId (some .active) }

/-- Whether `read(txn_id, key)` acquires its lock. -/
def readAcquires (m : TransactionManager) (txnId : ℤ) (key : String) : Bool :=
  m.isActive txnId && (m.lockTable.acquireSharedLock txnId key).1

/-- `read`: the value returned and the manager afterwards. -/
def read (m : TransactionManager) (txnId : ℤ) (key : String) : String × TransactionManager :=
  if m.readAcquires txnId key then
    (m.database key, { m with lockTable := (m.lockTable.acquireSharedLock txnId key).2 })
  else ("", m)

/-- `write`: the result and the manager afterwards. -/
def write (m : TransactionManager) (txnId : ℤ) (key value : String) :
    Bool × TransactionManager :=
  if m.isActive txnId then
    let answer := m.lockTable.acquireExclusiveLock txnId key
    if answer.1 then
      (true, { m with
        lockTable := answer.2
        database := Function.update m.database key value })
    else (false, m)
  else (false, m)

/-- The common body of `commit` and `abort`: set the state, then release all locks. -/
def finish (m : TransactionManager) (txnId : ℤ) (state : Txnstate) : TransactionManager :=
  if m.isActive txnId then
    { m with
      transactions := Function.update m.transactions txnId (some state)
      lockTable := m.lockTable.releaseAllLocks txnId }
  else m

/-- `commit`. -/
def commit (m : TransactionManager) (txnId : ℤ) : TransactionManager :=
  m.finish txnId .committed

/-- `abort`. -/
def abort (m : TransactionManager) (txnId : ℤ) : TransactionManager :=
  m.finish txnId .aborted

end TransactionManager

/-! ## Histories -/

/-- A call on the transaction manager. -/
inductive Op where
  | beginTransaction
  | read (txnId : ℤ) (key : String)
  | write (txnId : ℤ) (key value : String)
  | commit (txnId : ℤ)
  | abort (txnId : ℤ)
  deriving DecidableEq

namespace TransactionManager

/-- The effect of a call. -/
def step (m : TransactionManager) : Op → TransactionManager
  | .beginTransaction => m.beginTransaction
  | .read txnId key => (m.read txnId key).2
  | .write txnId key value => (m.write txnId key value).2
  | .commit txnId => m.commit txnId
  | .abort txnId => m.abort txnId

/-- A sequence of calls on a manager. -/
def runFrom (m : TransactionManager) (ops : List Op) : TransactionManager := ops.foldl step m

/-- A sequence of calls on a fresh manager. -/
def run (ops : List Op) : TransactionManager := runFrom {} ops

end TransactionManager

open TransactionManager

/-- Nobody but `t` can read or write `key`. -/
def Isolated (m : TransactionManager) (t : ℤ) (key : String) : Prop :=
  ∀ u, u ≠ t → m.readAcquires u key = false ∧ ∀ value, (m.write u key value).1 = false

/-- The transaction ends with one of these calls. -/
def Op.ends (t : ℤ) (op : Op) : Prop := op = .commit t ∨ op = .abort t

/-- The call `write(t, key, ..)` would go through the upgrade branch: `t` is the only shared
owner and no exclusive owner is recorded. -/
def TakesUpgrade (m : TransactionManager) (t : ℤ) (key : String) : Prop :=
  (m.lockTable key).exclusiveOwner = -1 ∧ (m.lockTable key).sharedOwners = {t}

/-! ## What every history keeps -/

/-- Ids are handed out from `1` upwards. -/
structure IdsInv (m : TransactionManager) : Prop where
  next_pos : 1 ≤ m.nextTxnId
  known : ∀ t, m.transactions t ≠ none → 1 ≤ t ∧ t < m.nextTxnId

theorem IdsInv.finish {m : TransactionManager} (h : IdsInv m) (t : ℤ) (state : Txnstate) :
    IdsInv (m.finish t state) := by
  unfold TransactionManager.finish
  split_ifs with hact
  · refine ⟨h.next_pos, fun u hu => ?_⟩
    by_cases hut : u = t
    · have hsome : m.transactions t = some .active := by simpa [isActive] using hact
      exact h.known u (by rw [hut, hsome]; simp)
    · exact h.known u (by simpa [Function.update_of_ne hut] using hu)
  · exact h

theorem IdsInv.step {m : TransactionManager} (h : IdsInv m) (op : Op) : IdsInv (m.step op) := by
  cases op with
  | beginTransaction =>
    refine ⟨by show 1 ≤ m.nextTxnId + 1; have := h.next_pos; omega, fun t ht => ?_⟩
    show 1 ≤ t ∧ t < m.nextTxnId + 1
    by_cases htn : t = m.nextTxnId
    · have := h.next_pos
      omega
    · have := h.known t (by simpa [TransactionManager.step, TransactionManager.beginTransaction,
        Function.update_of_ne htn] using ht)
      omega
  | read t key =>
    show IdsInv (m.read t key).2
    unfold TransactionManager.read
    split_ifs
    · exact ⟨h.next_pos, h.known⟩
    · exact h
  | write t key value =>
    show IdsInv (m.write t key value).2
    unfold TransactionManager.write
    dsimp only
    split_ifs
    · exact ⟨h.next_pos, h.known⟩
    · exact h
    · exact h
  | commit t => exact h.finish t _
  | abort t => exact h.finish t _

theorem idsInv_run (ops : List Op) : IdsInv (run ops) := by
  unfold run runFrom
  refine List.foldlRecOn ops TransactionManager.step ⟨by decide, fun t ht => absurd rfl ht⟩ ?_
  intro m hm op _
  exact hm.step op

/-! ## A recorded exclusive owner isolates the key -/

/-- The test of the upgrade branch says that `t` is the only shared owner. -/
theorem card_eq_one_and_mem_iff {owners : Finset ℤ} {t : ℤ} :
    owners.card = 1 ∧ t ∈ owners ↔ owners = {t} := by
  constructor
  · rintro ⟨hcard, hmem⟩
    obtain ⟨a, rfl⟩ := Finset.card_eq_one.mp hcard
    rw [Finset.mem_singleton.mp hmem]
  · rintro rfl
    simp

/-- Everything a request for an exclusive lock can do: the owner asks again, somebody else
owns the key, the upgrade branch, shared owners in the way, a fresh owner. -/
theorem acquireExclusiveLock_cases (table : LockTable) (u : ℤ) (k : String) :
    ((table k).exclusiveOwner = u ∧ table.acquireExclusiveLock u k = (true, table)) ∨
    (table.acquireExclusiveLock u k = (false, table)) ∨
    ((table k).exclusiveOwner = -1 ∧ (table k).sharedOwners = {u} ∧
      table.acquireExclusiveLock u k = (true, table)) ∨
    ((table k).exclusiveOwner = -1 ∧ (table k).sharedOwners = ∅ ∧
      table.acquireExclusiveLock u k
        = (true, Function.update table k { table k with exclusiveOwner := u })) := by
  unfold LockTable.acquireExclusiveLock
  dsimp only
  split_ifs with h1 h2 h3 h4
  · exact Or.inl ⟨h1, rfl⟩
  · exact Or.inr (Or.inl rfl)
  · exact Or.inr (Or.inr (Or.inl ⟨not_not.mp h2, card_eq_one_and_mem_iff.mp h4, rfl⟩))
  · exact Or.inr (Or.inl rfl)
  · exact Or.inr (Or.inr (Or.inr ⟨not_not.mp h2, not_not.mp h3, rfl⟩))

theorem exclusiveOwner_acquireSharedLock (table : LockTable) (u : ℤ) (k key : String) :
    ((table.acquireSharedLock u k).2 key).exclusiveOwner = (table key).exclusiveOwner := by
  unfold LockTable.acquireSharedLock
  dsimp only
  split_ifs
  · show (Function.update table k _ key).exclusiveOwner = _
    by_cases hk : key = k
    · rw [hk, Function.update_self]
    · rw [Function.update_of_ne hk]
  · rfl

theorem exclusiveOwner_acquireExclusiveLock {table : LockTable} {t : ℤ} {key : String}
    (hown : (table key).exclusiveOwner = t) (ht : t ≠ -1) (u : ℤ) (k : String) :
    ((table.acquireExclusiveLock u k).2 key).exclusiveOwner = t := by
  rcases acquireExclusiveLock_cases table u k with
    ⟨-, h⟩ | h | ⟨-, -, h⟩ | ⟨hnone, -, h⟩
  · rw [h]; exact hown
  · rw [h]; exact hown
  · rw [h]; exact hown
  · rw [h]
    -- the fresh branch is about another key, since `key` has an owner
    have hk : key ≠ k := by
      rintro rfl
      exact ht (hown.symm.trans hnone)
    show (Function.update table k _ key).exclusiveOwner = t
    rw [Function.update_of_ne hk]
    exact hown

theorem exclusiveOwner_finish {m : TransactionManager} {t : ℤ} {key : String}
    (hown : (m.lockTable key).exclusiveOwner = t) {u : ℤ} (hut : u ≠ t) (state : Txnstate) :
    ((m.finish u state).lockTable key).exclusiveOwner = t := by
  unfold TransactionManager.finish
  split_ifs
  · show (if (m.lockTable key).exclusiveOwner = u then -1 else (m.lockTable key).exclusiveOwner) = t
    rw [hown, if_neg hut.symm]
  · exact hown

/-- **One call keeps a recorded owner**, unless it ends the owner's transaction. -/
theorem exclusiveOwner_step {m : TransactionManager} {t : ℤ} {key : String}
    (hown : (m.lockTable key).exclusiveOwner = t) (ht : t ≠ -1) {op : Op} (hop : ¬ op.ends t) :
    ((m.step op).lockTable key).exclusiveOwner = t := by
  cases op with
  | beginTransaction => exact hown
  | read u k =>
    show (((m.read u k).2).lockTable key).exclusiveOwner = t
    unfold TransactionManager.read
    split_ifs
    · exact (exclusiveOwner_acquireSharedLock m.lockTable u k key).trans hown
    · exact hown
  | write u k value =>
    show (((m.write u k value).2).lockTable key).exclusiveOwner = t
    unfold TransactionManager.write
    dsimp only
    split_ifs
    · exact exclusiveOwner_acquireExclusiveLock hown ht u k
    · exact hown
    · exact hown
  | commit u =>
    exact exclusiveOwner_finish hown (fun hut => hop (Or.inl (by rw [hut]))) _
  | abort u =>
    exact exclusiveOwner_finish hown (fun hut => hop (Or.inr (by rw [hut]))) _

/-- **Every history keeps a recorded owner** until it ends the owner's transaction. -/
theorem exclusiveOwner_runFrom {m : TransactionManager} {t : ℤ} {key : String}
    (hown : (m.lockTable key).exclusiveOwner = t) (ht : t ≠ -1) {ops : List Op}
    (hops : ∀ op ∈ ops, ¬ op.ends t) :
    ((m.runFrom ops).lockTable key).exclusiveOwner = t := by
  induction ops generalizing m with
  | nil => exact hown
  | cons op ops ih =>
    have hstep := exclusiveOwner_step hown ht (hops op List.mem_cons_self)
    exact ih hstep fun op' hop' => hops op' (List.mem_cons_of_mem _ hop')

/-- A recorded exclusive owner shuts everybody else out. -/
theorem isolated_of_exclusiveOwner {m : TransactionManager} {t : ℤ} {key : String}
    (hown : (m.lockTable key).exclusiveOwner = t) (ht : t ≠ -1) : Isolated m t key := by
  intro u hu
  constructor
  · unfold readAcquires LockTable.acquireSharedLock
    dsimp only
    rw [hown, if_neg (by rintro (h | h); exacts [ht h, hu h.symm])]
    simp
  · intro value
    unfold TransactionManager.write LockTable.acquireExclusiveLock
    dsimp only
    rw [hown, if_neg hu.symm, if_pos ht]
    simp

/-! ## The upgrade branch -/

/-- A successful request that does not go through the upgrade branch records the owner. -/
theorem exclusiveOwner_of_acquired {table : LockTable} {t : ℤ} {key : String}
    (h : (table.acquireExclusiveLock t key).1 = true)
    (hup : ¬ ((table key).exclusiveOwner = -1 ∧ (table key).sharedOwners = {t})) :
    ((table.acquireExclusiveLock t key).2 key).exclusiveOwner = t := by
  rcases acquireExclusiveLock_cases table t key with
    ⟨hown, heq⟩ | heq | ⟨hex, hsh, heq⟩ | ⟨-, -, heq⟩
  · rw [heq]; exact hown
  · rw [heq] at h
    exact absurd h Bool.false_ne_true
  · exact absurd ⟨hex, hsh⟩ hup
  · rw [heq]
    show (Function.update table key _ key).exclusiveOwner = t
    rw [Function.update_self]

theorem acquireExclusiveLock_of_upgrade {table : LockTable} {t : ℤ} {key : String}
    (hex : (table key).exclusiveOwner = -1) (hsh : (table key).sharedOwners = {t})
    (ht : t ≠ -1) : table.acquireExclusiveLock t key = (true, table) := by
  unfold LockTable.acquireExclusiveLock
  dsimp only
  rw [hex, hsh, if_neg ht.symm, if_neg (not_not.mpr rfl), if_pos (Finset.singleton_ne_empty t),
    if_pos (card_eq_one_and_mem_iff.mpr rfl)]

/-- A write succeeds only for an active transaction that acquired the lock. -/
theorem write_eq_true {m : TransactionManager} {t : ℤ} {key value : String}
    (h : (m.write t key value).1 = true) :
    m.isActive t = true ∧ (m.lockTable.acquireExclusiveLock t key).1 = true ∧
      (m.write t key value).2.lockTable = (m.lockTable.acquireExclusiveLock t key).2 := by
  unfold TransactionManager.write at h ⊢
  dsimp only at h ⊢
  split_ifs at h ⊢ with hact hacq
  exact ⟨hact, hacq, rfl⟩

/-! ## Strictness -/

/-- **Exactly the writes outside the upgrade branch isolate their key.**  After any history, a
write of `key` by `t` that returns `true` keeps every other transaction from reading or
writing `key` until `t` commits or aborts, whatever is called meanwhile, if and only if the
write did not go through the upgrade branch. -/
theorem write_isolates_iff (before : List Op) (t : ℤ) (key value : String)
    (hw : ((run before).write t key value).1 = true) :
    (∀ after : List Op, (∀ op ∈ after, ¬ op.ends t) →
        Isolated (run (before ++ .write t key value :: after)) t key) ↔
      ¬ TakesUpgrade (run before) t key := by
  have hids := idsInv_run before
  obtain ⟨hact, hacq, htable⟩ := write_eq_true hw
  have hsome : (run before).transactions t = some .active := by simpa [isActive] using hact
  obtain ⟨hpos, hlt⟩ := hids.known t (by rw [hsome]; simp)
  have ht : t ≠ -1 := by omega
  have hrun : ∀ after, run (before ++ .write t key value :: after)
      = runFrom ((run before).write t key value).2 after := by
    intro after
    simp [run, runFrom, TransactionManager.step]
  constructor
  · -- a transaction begun after the write can read the key
    rintro hiso ⟨hex, hsh⟩
    have hnoend : ∀ op ∈ [Op.beginTransaction], ¬ op.ends t := by
      simp [Op.ends]
    have hiso := hiso [.beginTransaction] hnoend
    rw [hrun] at hiso
    have hsame : ((run before).write t key value).2.lockTable = (run before).lockTable := by
      rw [htable, acquireExclusiveLock_of_upgrade hex hsh ht]
    have hnext : ((run before).write t key value).2.nextTxnId = (run before).nextTxnId := by
      unfold TransactionManager.write
      dsimp only
      split_ifs
      all_goals rfl
    have hread := (hiso (run before).nextTxnId (by omega)).1
    have hacquire : (runFrom ((run before).write t key value).2
        [.beginTransaction]).readAcquires (run before).nextTxnId key = true := by
      simp [runFrom, TransactionManager.step, beginTransaction, readAcquires, isActive, hnext,
        hsame, LockTable.acquireSharedLock, hex]
    rw [hacquire] at hread
    exact absurd hread (by decide)
  · intro hup after hafter
    have hown : (((run before).write t key value).2.lockTable key).exclusiveOwner = t := by
      rw [htable]
      exact exclusiveOwner_of_acquired hacq hup
    rw [hrun]
    exact isolated_of_exclusiveOwner (exclusiveOwner_runFrom hown ht hafter) ht

/-- The first write of `main`: nobody else can touch `A` afterwards. -/
theorem write_isolates_iff_main :
    Isolated (run [.beginTransaction, .write 1 "A" "100", .write 1 "B" "200"]) 1 "A" :=
  (write_isolates_iff [.beginTransaction] 1 "A" "100" (by decide)).mpr
    (by rintro ⟨-, h⟩; revert h; decide) [.write 1 "B" "200"] (by simp [Op.ends])

/-- Transaction `1` reads `A` and writes it through the upgrade branch; the write returns
`true`, and transaction `2` acquires its lock on `A` while `1` is still active. -/
theorem upgraded_write_not_isolated :
    ((run [.beginTransaction, .beginTransaction, .read 1 "A"]).write 1 "A" "100").1 = true ∧
      ¬ Isolated (run [.beginTransaction, .beginTransaction, .read 1 "A",
        .write 1 "A" "100"]) 1 "A" := by
  refine ⟨by decide, fun h => ?_⟩
  have hread := (h 2 (by decide)).1
  exact absurd hread (by decide)

end StrictTwoPhaseLocking
