/-
# When the lock table is cleaned up

`LockManager` is required to "automatically clean up lock metadata when a resource is no longer
locked".  Every function but the releases begins with `lock_table[resource]`, which creates the
record of a resource that has none, and only the releases call `cleanup`.  A call that goes on to
take the lock, or waits for it, is followed by a release; but `upgrade` and `downgrade` return
early when the transaction does not hold the lock, and leave the record they have created.

Result: as long as these two are called for resources with a record, every record is held by a
transaction whenever no thread is inside an operation.  `exclusive_owner == -1` stands for no
owner, so that a transaction with that id would hold a lock that nobody holds; it must not ask for
an exclusive lock.
-/
import SystemsDesign.LockManagerSafety

namespace LockManagement

/-! ## Records that are held -/

/-- A transaction holds a shared or the exclusive lock of the record. -/
def LockInfo.HeldBy (info : LockInfo) (txnId : ℤ) : Prop :=
  txnId ∈ info.sharedOwners ∨ info.exclusiveOwner = txnId ∧ txnId ≠ -1

/-- Some transaction holds the resource of the record. -/
def LockInfo.Held (info : LockInfo) : Prop := ∃ txnId, info.HeldBy txnId

/-- Every record is held by a transaction. -/
def TableClean (s : State) : Prop :=
  ∀ resource info, s.shared.lockTable.lookup resource = some info → info.Held

/-- The call leaves no record behind: `upgrade` and `downgrade` find one, and a transaction that
asks for an exclusive lock can be told from none. -/
def LeavesNoRecord (s : State) : Label → Prop
  | .acquireExclusive txnId _ => txnId ≠ -1
  | .upgrade txnId resource => txnId ≠ -1 ∧ resource ∈ s.shared.lockTable
  | .downgrade _ resource => resource ∈ s.shared.lockTable
  | _ => True

instance (s : State) (label : Label) : Decidable (LeavesNoRecord s label) := by
  cases label <;> unfold LeavesNoRecord <;> infer_instance

/-- A record is held, or a thread is blocked that refers to it. -/
def Accounted (waiting : Multiset Waiter) (resource : String) (info : LockInfo) : Prop :=
  info.Held ∨ ∃ w ∈ waiting, w.BlockedOn resource info

/-- All records are accounted for, and blocked writers can be told from none. -/
structure Tidy (s : State) : Prop where
  accounted : ∀ resource info, s.shared.lockTable.lookup resource = some info →
    Accounted s.waiting resource info
  named : ∀ w ∈ s.waiting, w.call ≠ .acquireShared → w.txnId ≠ -1

section Tidy

variable {s s' : State} {m : LockManager} {waiting : Multiset Waiter} {w : Waiter}
  {resource : String} {info : LockInfo} {txnId : ℤ}

theorem accounted_of_not_unused (h : Coherent (some info) waiting resource)
    (hused : ¬ info.Unused) : Accounted waiting resource info := by
  by_cases hshared : info.sharedOwners = ∅
  · by_cases hexclusive : info.exclusiveOwner = -1
    · -- `waitingWriters` counts a writer
      have hwriters : writersOn waiting resource ≠ 0 := by
        intro hzero
        refine hused ⟨hshared, hexclusive, ?_⟩
        rw [h.counted info rfl, hzero]
        rfl
      obtain ⟨w, hw, hwrites⟩ := Multiset.countP_pos.mp (Nat.pos_of_ne_zero hwriters)
      exact .inr ⟨w, hw, hwrites.2, (h.cv_eq hw hwrites).symm⟩
    · exact .inl ⟨info.exclusiveOwner, .inr ⟨rfl, hexclusive⟩⟩
  · obtain ⟨txnId, htxn⟩ := Finset.nonempty_iff_ne_empty.mpr hshared
    exact .inl ⟨txnId, .inl htxn⟩

theorem lookup_entry_of_ne {r : String} (hr : r ≠ resource) :
    (m.entry resource).2.lockTable.lookup r = m.lockTable.lookup r := by
  unfold LockManager.entry
  cases m.lockTable.lookup resource with
  | some info => rfl
  | none => exact Finmap.lookup_insert_of_ne _ hr

theorem entry_of_mem (h : resource ∈ m.lockTable) : (m.entry resource).2 = m := by
  obtain ⟨info, hinfo⟩ := Finmap.mem_iff.mp h
  unfold LockManager.entry
  rw [hinfo]

theorem Accounted.cons (h : Accounted waiting resource info) (w : Waiter) :
    Accounted (w ::ₘ waiting) resource info := by
  refine h.imp_right ?_
  rintro ⟨v, hv, hblocked⟩
  exact ⟨v, Multiset.mem_cons_of_mem hv, hblocked⟩

theorem Accounted.erase (h : Accounted waiting resource info) (hw : ¬ w.BlockedOn resource info) :
    Accounted (waiting.erase w) resource info := by
  refine h.imp_right ?_
  rintro ⟨v, hv, hblocked⟩
  have hne : v ≠ w := by
    rintro rfl
    exact hw hblocked
  exact ⟨v, (Multiset.mem_erase_of_ne hne).mpr hv, hblocked⟩

/-- Writing one record concerns only its resource. -/
theorem Tidy.set (hother : ∀ r i, r ≠ resource → m.lockTable.lookup r = some i →
      Accounted waiting r i) (hself : Accounted waiting resource info)
    (hnamed : ∀ w ∈ waiting, w.call ≠ .acquireShared → w.txnId ≠ -1) :
    Tidy ⟨m.set resource info, waiting⟩ := by
  refine ⟨fun r i hi => ?_, hnamed⟩
  change (m.lockTable.insert resource info).lookup r = some i at hi
  by_cases hr : r = resource
  · subst hr
    rw [Finmap.lookup_insert] at hi
    obtain rfl := Option.some.inj hi
    exact hself
  · rw [Finmap.lookup_insert_of_ne _ hr] at hi
    exact hother r i hr hi

/-- A thread that goes on holds its record, if it is still there. -/
theorem tidy_proceeds : monitor.Proceeds Tidy := by
  intro s w h hmem _
  have hnamed : ∀ v ∈ s.waiting.erase w, v.call ≠ .acquireShared → v.txnId ≠ -1 :=
    fun v hv => h.named v (Multiset.mem_of_mem_erase hv)
  show Tidy ⟨w.proceed s.shared, s.waiting.erase w⟩
  unfold Waiter.proceed
  cases hrec : w.record s.shared with
  | none =>
    refine ⟨fun r i hi => (h.accounted r i hi).erase fun hblocked => ?_, hnamed⟩
    obtain ⟨rfl, hcv⟩ := hblocked
    rw [record_eq_some_iff.mpr ⟨hi, hcv.symm⟩] at hrec
    cases hrec
  | some info =>
    have hheld : (w.call.grant w.txnId info).Held := by
      cases hcall : w.call with
      | acquireShared => exact ⟨w.txnId, .inl (Finset.mem_insert_self _ _)⟩
      | acquireExclusive => exact ⟨w.txnId, .inr ⟨rfl, h.named w hmem (by simp [hcall])⟩⟩
      | upgrade => exact ⟨w.txnId, .inr ⟨rfl, h.named w hmem (by simp [hcall])⟩⟩
    have hset : Tidy ⟨s.shared.set w.resource (w.call.grant w.txnId info), s.waiting.erase w⟩ :=
      .set (fun r i hr hi => (h.accounted r i hi).erase fun hblocked => hr hblocked.1.symm)
        (.inl hheld) hnamed
    exact ⟨hset.accounted, hset.named⟩

/-- A thread may wait on the record that it has created or changed. -/
theorem Tidy.await {info' : LockInfo} (h : Tidy s)
    (hself : m.lockTable.lookup resource = some info')
    (hother : ∀ r, r ≠ resource → m.lockTable.lookup r = s.shared.lockTable.lookup r)
    (hresource : w.resource = resource) (hcv : w.cv = info'.cv)
    (hnamed : w.call ≠ .acquireShared → w.txnId ≠ -1) :
    Tidy (monitor.await { s with shared := m } w) := by
  apply Monitor.await_invariant tidy_proceeds
  refine ⟨fun r i hi => ?_, fun v hv => ?_⟩
  · by_cases hr : r = resource
    · subst hr
      obtain rfl := Option.some.inj (hself.symm.trans hi)
      exact .inr ⟨w, Multiset.mem_cons_self w _, hresource, hcv⟩
    · exact (h.accounted r i ((hother r hr).symm.trans hi)).cons w
  · rcases Multiset.mem_cons.mp hv with rfl | hv
    · exact hnamed
    · exact h.named v hv

theorem Tidy.release {label : Label} {info' : LockInfo} (h : Tidy s) (hinv : Inv s')
    (hinfo : s.shared.lockTable.lookup resource = some info)
    (hrel : afterRelease info label = some (resource, info')) (hwaiting : s'.waiting = s.waiting)
    (hstep : step s label = some s') : Tidy s' := by
  refine ⟨fun r i hi => ?_, by rw [hwaiting]; exact h.named⟩
  by_cases hr : r = resource
  · subst hr
    have hcoherent := hinv r
    rw [hi] at hcoherent
    rw [lookup_release hinfo hrel hstep] at hi
    split_ifs at hi with hunused
    obtain rfl := Option.some.inj hi
    exact accounted_of_not_unused hcoherent hunused
  · rw [lookup_release_of_ne hrel hr hstep] at hi
    rw [hwaiting]
    exact h.accounted r i hi

/-- The two functions that take a lock wait on the record they have found or created. -/
theorem Tidy.acquireSharedLock (h : Tidy s) (txnId : ℤ) (resource : String) :
    Tidy (acquireSharedLock s txnId resource) :=
  h.await (lookup_entry s.shared resource) (fun _ hr => lookup_entry_of_ne hr) rfl rfl
    fun hcall => absurd rfl hcall

theorem lookup_set_entry (m : LockManager) (resource : String) (info : LockInfo) :
    ((m.entry resource).2.set resource info).lockTable.lookup resource = some info ∧
      ∀ r, r ≠ resource →
        ((m.entry resource).2.set resource info).lockTable.lookup r = m.lockTable.lookup r :=
  ⟨Finmap.lookup_insert _, fun _ hr =>
    (Finmap.lookup_insert_of_ne _ hr).trans (lookup_entry_of_ne hr)⟩

theorem Tidy.acquireExclusiveLock (h : Tidy s) (htxn : txnId ≠ -1) (resource : String) :
    Tidy (acquireExclusiveLock s txnId resource) := by
  obtain ⟨hself, hother⟩ := lookup_set_entry s.shared resource
    { (s.shared.entry resource).1 with
      waitingWriters := (s.shared.entry resource).1.waitingWriters + 1 }
  exact h.await hself hother rfl rfl fun _ => htxn

theorem Tidy.upgrade (h : Tidy s) (htxn : txnId ≠ -1) (hmem : resource ∈ s.shared.lockTable) :
    Tidy (upgrade s txnId resource) := by
  simp only [LockManagement.upgrade]
  split_ifs with howner
  · obtain ⟨hself, hother⟩ := lookup_set_entry s.shared resource
      { (s.shared.entry resource).1 with
        sharedOwners := (s.shared.entry resource).1.sharedOwners.erase txnId
        waitingWriters := (s.shared.entry resource).1.waitingWriters + 1 }
    exact h.await hself hother rfl rfl fun _ => htxn
  · rw [entry_of_mem hmem]
    exact ⟨h.accounted, h.named⟩

/-- `downgrade` leaves a shared owner, or finds the record and leaves it alone. -/
theorem Tidy.downgrade (h : Tidy s) (txnId : ℤ) (hmem : resource ∈ s.shared.lockTable) :
    Tidy (downgrade s txnId resource) := by
  simp only [LockManagement.downgrade]
  rw [entry_of_mem hmem]
  split_ifs with howner
  · have hset : Tidy ⟨s.shared.set resource { (s.shared.entry resource).1 with
        exclusiveOwner := -1
        sharedOwners := insert txnId (s.shared.entry resource).1.sharedOwners }, s.waiting⟩ :=
      .set (fun r i _ hi => h.accounted r i hi)
        (.inl ⟨txnId, .inl (Finset.mem_insert_self _ _)⟩) h.named
    exact ⟨hset.accounted, hset.named⟩
  · exact ⟨h.accounted, h.named⟩

/-- **Every critical section that leaves no record behind keeps the table tidy.** -/
theorem Tidy.step {label : Label} (h : Tidy s) (hinv : Inv s) (hlabel : LeavesNoRecord s label)
    (hstep : step s label = some s') : Tidy s' := by
  have hinv' := hinv.step hstep
  cases label with
  | acquireShared txnId resource =>
    obtain rfl := Option.some.inj hstep
    exact h.acquireSharedLock txnId resource
  | acquireExclusive txnId resource =>
    obtain rfl := Option.some.inj hstep
    exact h.acquireExclusiveLock hlabel resource
  | upgrade txnId resource =>
    obtain rfl := Option.some.inj hstep
    exact h.upgrade hlabel.1 hlabel.2
  | downgrade txnId resource =>
    obtain rfl := Option.some.inj hstep
    exact h.downgrade txnId hlabel
  | releaseShared txnId resource =>
    cases hlook : s.shared.lockTable.lookup resource with
    | none =>
      obtain rfl := Option.some.inj hstep
      simpa only [releaseSharedLock, hlook] using h
    | some info =>
      refine h.release hinv' hlook rfl ?_ hstep
      obtain rfl := Option.some.inj hstep
      simp only [releaseSharedLock, hlook]
  | releaseExclusive txnId resource =>
    cases hlook : s.shared.lockTable.lookup resource with
    | none =>
      obtain rfl := Option.some.inj hstep
      simpa only [releaseExclusiveLock, hlook] using h
    | some info =>
      refine h.release hinv' hlook rfl ?_ hstep
      obtain rfl := Option.some.inj hstep
      simp only [releaseExclusiveLock, hlook]
  | wake w => exact Monitor.wake_invariant tidy_proceeds h hstep

end Tidy

/-! ## The result -/

/-- **The lock table is cleaned up.**  If every call of an interleaving leaves no record behind,
then in a state where no thread is blocked inside an operation every record is held by a
transaction. -/
theorem lockTable_clean (labels : List Label) (s : State) (hrun : run labels = some s)
    (hlabels : TransitionSystem.Along step LeavesNoRecord ⟨{}, 0⟩ labels) (hidle : s.waiting = 0) :
    TableClean s := by
  have hstart : Inv ⟨{}, 0⟩ ∧ Tidy ⟨{}, 0⟩ := by
    refine ⟨fun r => Coherent.drop rfl, fun r i hi => ?_, fun w hw => ?_⟩
    · exact absurd hi (by simp)
    · exact absurd hw (Multiset.notMem_zero w)
  have hkeeps (t : State) (label : Label) (t' : State) (ht : Inv t ∧ Tidy t)
      (hlabel : LeavesNoRecord t label) (hstep : step t label = some t') : Inv t' ∧ Tidy t' :=
    ⟨ht.1.step hstep, ht.2.step ht.1 hlabel hstep⟩
  have htidy := TransitionSystem.run_invariant_along hkeeps hstart hlabels hrun
  intro resource info hinfo
  refine (htidy.2.accounted resource info hinfo).resolve_right ?_
  rintro ⟨w, hw, -⟩
  rw [hidle] at hw
  exact Multiset.notMem_zero w hw

/-- Transaction 1 upgrades its lock on `row1`, transaction 2 waits for it and then holds it. -/
def handOver : List Label :=
  [.acquireShared 1 "row1", .upgrade 1 "row1", .acquireExclusive 2 "row1",
    .releaseExclusive 1 "row1", .wake ⟨.acquireExclusive, 2, "row1", 0⟩]

theorem lockTable_clean_handOver :
    ∃ s, run handOver = some s ∧ s.waiting = 0 ∧ TableClean s :=
  ⟨_, rfl, rfl, lockTable_clean handOver _ rfl (by decide) rfl⟩

/-- Transaction 1 wants to upgrade a lock that it does not hold: the record stays, and nobody holds
it. -/
theorem upgrade_leaves_record :
    ∃ s info, run [.upgrade 1 "row1"] = some s ∧ s.waiting = 0 ∧
      s.shared.lockTable.lookup "row1" = some info ∧ ¬ info.Held ∧ ¬ TableClean s := by
  have hfree : ¬ LockInfo.Held { cv := 0 } := by
    rintro ⟨txnId, hshared | ⟨hexclusive, hne⟩⟩
    · exact absurd hshared (Finset.notMem_empty txnId)
    · exact hne hexclusive.symm
  exact ⟨_, { cv := 0 }, rfl, rfl, by decide, hfree, fun h => hfree (h "row1" _ (by decide))⟩

end LockManagement
