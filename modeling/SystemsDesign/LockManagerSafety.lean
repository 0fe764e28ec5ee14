/-
# Exclusion in the lock manager, and when `cleanup` frees a record in use

For every interleaving of the calls and of (also spurious) wake-ups:

* `exclusive_and_counted` : an exclusively owned resource has no shared owners, and
  `waitingWriters` is the number of threads blocked in `acquire_exclusive_lock` or `upgrade`;
* `cleanup_safe_iff` : `waitingWriters` protects a record from `cleanup` while writers are
  blocked on it.  Readers are not counted, and exactly they can lose their record.
-/
import SystemsDesign.LockManager

namespace LockManagement

/-! ## The invariant of a resource -/

/-- The thread is blocked as a writer of the resource. -/
def Waiter.WritesTo (w : Waiter) (resource : String) : Prop :=
  w.call ≠ .acquireShared ∧ w.resource = resource

instance (w : Waiter) (resource : String) : Decidable (w.WritesTo resource) :=
  inferInstanceAs (Decidable (_ ∧ _))

/-- The number of threads blocked in `acquire_exclusive_lock` or `upgrade` on a resource. -/
def writersOn (waiting : Multiset Waiter) (resource : String) : ℕ :=
  waiting.countP fun w => w.WritesTo resource

/-- A resource and the threads blocked on it fit together: owners exclude each other, writers
are counted, and the record a writer refers to is there. -/
structure Coherent (record : Option LockInfo) (waiting : Multiset Waiter) (resource : String) :
    Prop where
  exclusive : ∀ info, record = some info → info.exclusiveOwner ≠ -1 → info.sharedOwners = ∅
  counted : ∀ info, record = some info → info.waitingWriters = writersOn waiting resource
  present : ∀ w ∈ waiting, w.WritesTo resource → ∃ info, record = some info ∧ info.cv = w.cv

/-- All resources fit together with the blocked threads. -/
def Inv (s : State) : Prop :=
  ∀ resource, Coherent (s.shared.lockTable.lookup resource) s.waiting resource

/-! ## Blocked threads come and go -/

theorem writersOn_cons_of_not {w : Waiter} {resource : String} (h : ¬ w.WritesTo resource)
    (waiting : Multiset Waiter) : writersOn (w ::ₘ waiting) resource = writersOn waiting resource :=
  Multiset.countP_cons_of_neg _ h

theorem writersOn_cons_of_writesTo {w : Waiter} {resource : String} (h : w.WritesTo resource)
    (waiting : Multiset Waiter) :
    writersOn (w ::ₘ waiting) resource = writersOn waiting resource + 1 :=
  Multiset.countP_cons_of_pos _ h

/-- Threads that do not write to the resource may come. -/
theorem Coherent.cons {record : Option LockInfo} {waiting : Multiset Waiter} {resource : String}
    (h : Coherent record waiting resource) {w : Waiter} (hw : ¬ w.WritesTo resource) :
    Coherent record (w ::ₘ waiting) resource where
  exclusive := h.exclusive
  counted info hinfo := by rw [writersOn_cons_of_not hw, h.counted info hinfo]
  present w' hw' hwrites := by
    rcases Multiset.mem_cons.mp hw' with rfl | hmem
    · exact absurd hwrites hw
    · exact h.present w' hmem hwrites

/-- Threads that do not write to the resource may go. -/
theorem Coherent.erase {record : Option LockInfo} {waiting : Multiset Waiter} {resource : String}
    (h : Coherent record waiting resource) {w : Waiter} (hmem : w ∈ waiting)
    (hw : ¬ w.WritesTo resource) : Coherent record (waiting.erase w) resource where
  exclusive := h.exclusive
  counted info hinfo := by
    rw [h.counted info hinfo, ← Multiset.cons_erase hmem, writersOn_cons_of_not hw,
      Multiset.erase_cons_head]
  present w' hw' := h.present w' (Multiset.mem_of_mem_erase hw')

theorem Coherent.of_some {waiting : Multiset Waiter} {resource : String} {info : LockInfo}
    (hexclusive : info.exclusiveOwner ≠ -1 → info.sharedOwners = ∅)
    (hcounted : info.waitingWriters = writersOn waiting resource)
    (hpresent : ∀ w ∈ waiting, w.WritesTo resource → info.cv = w.cv) :
    Coherent (some info) waiting resource where
  exclusive _ hinfo := Option.some.inj hinfo ▸ hexclusive
  counted _ hinfo := Option.some.inj hinfo ▸ hcounted
  present w hw hwrites := ⟨info, rfl, hpresent w hw hwrites⟩

theorem Coherent.cv_eq {waiting : Multiset Waiter} {resource : String} {info : LockInfo}
    (h : Coherent (some info) waiting resource) {w : Waiter} (hw : w ∈ waiting)
    (hwrites : w.WritesTo resource) : info.cv = w.cv := by
  obtain ⟨_, heq, hcv⟩ := h.present w hw hwrites
  obtain rfl := Option.some.inj heq
  exact hcv

/-- The owners of a record may change, as long as they exclude each other. -/
theorem Coherent.update {waiting : Multiset Waiter} {resource : String} {info info' : LockInfo}
    (h : Coherent (some info) waiting resource)
    (hexclusive : info'.exclusiveOwner ≠ -1 → info'.sharedOwners = ∅)
    (hwaiting : info'.waitingWriters = info.waitingWriters) (hcv : info'.cv = info.cv) :
    Coherent (some info') waiting resource :=
  .of_some hexclusive (hwaiting.trans (h.counted info rfl)) fun _ hw hwrites =>
    hcv.trans (h.cv_eq hw hwrites)

theorem Coherent.announce {waiting : Multiset Waiter} {resource : String} {info info' : LockInfo}
    (h : Coherent (some info) waiting resource) {w : Waiter} (hw : w.WritesTo resource)
    (hwcv : info.cv = w.cv) (hexclusive : info'.exclusiveOwner ≠ -1 → info'.sharedOwners = ∅)
    (hwaiting : info'.waitingWriters = info.waitingWriters + 1) (hcv : info'.cv = info.cv) :
    Coherent (some info') (w ::ₘ waiting) resource := by
  refine .of_some hexclusive ?_ fun w' hw' hwrites => ?_
  · rw [hwaiting, h.counted info rfl, writersOn_cons_of_writesTo hw]
    push_cast
    rfl
  · rcases Multiset.mem_cons.mp hw' with rfl | hmem
    · exact hcv.trans hwcv
    · exact hcv.trans (h.cv_eq hmem hwrites)

theorem Coherent.take {waiting : Multiset Waiter} {resource : String} {info info' : LockInfo}
    (h : Coherent (some info) waiting resource) {w : Waiter} (hmem : w ∈ waiting)
    (hw : w.WritesTo resource) (hempty : info'.sharedOwners = ∅)
    (hwaiting : info'.waitingWriters = info.waitingWriters - 1) (hcv : info'.cv = info.cv) :
    Coherent (some info') (waiting.erase w) resource := by
  refine .of_some (fun _ => hempty) ?_ fun w' hw' hwrites => ?_
  · have hcount := h.counted info rfl
    rw [← Multiset.cons_erase hmem, writersOn_cons_of_writesTo hw] at hcount
    omega
  · exact hcv.trans (h.cv_eq (Multiset.mem_of_mem_erase hw') hwrites)

theorem Coherent.drop {waiting : Multiset Waiter} {resource : String}
    (h : writersOn waiting resource = 0) : Coherent none waiting resource where
  exclusive _ hinfo := absurd hinfo (by simp)
  counted _ hinfo := absurd hinfo (by simp)
  present w hw hwrites :=
    absurd hwrites (Multiset.countP_eq_zero.mp h w hw)

/-! ## The invariant of the lock manager -/

/-- Writing one record concerns only its resource. -/
theorem Inv.set {m : LockManager} {waiting : Multiset Waiter} {resource : String}
    {info : LockInfo}
    (hother : ∀ r, r ≠ resource → Coherent (m.lockTable.lookup r) waiting r)
    (hself : Coherent (some info) waiting resource) :
    Inv ⟨m.set resource info, waiting⟩ := by
  intro r
  show Coherent ((m.lockTable.insert resource info).lookup r) waiting r
  by_cases hr : r = resource
  · subst hr
    rw [Finmap.lookup_insert]
    exact hself
  · rw [Finmap.lookup_insert_of_ne _ hr]
    exact hother r hr

theorem lookup_entry (m : LockManager) (resource : String) :
    (m.entry resource).2.lockTable.lookup resource = some (m.entry resource).1 := by
  unfold LockManager.entry
  cases h : m.lockTable.lookup resource with
  | some info => exact h
  | none => exact Finmap.lookup_insert _

/-- `lock_table[resource]` keeps the invariant. -/
theorem Inv.entry {s : State} (h : Inv s) (resource : String) :
    Inv { s with shared := (s.shared.entry resource).2 } := by
  unfold LockManager.entry
  cases hlook : s.shared.lockTable.lookup resource with
  | some info => exact h
  | none =>
    refine Inv.set (m := s.shared) (fun r _ => h r) ?_
    -- without a record no writer is blocked, so the new count of zero is right
    have hnone : writersOn s.waiting resource = 0 := by
      rw [writersOn, Multiset.countP_eq_zero]
      intro w hw hwrites
      obtain ⟨info, hinfo, -⟩ := (h resource).present w hw hwrites
      rw [hlook] at hinfo
      exact absurd hinfo (by simp)
    refine .of_some (fun _ => rfl) (by rw [hnone]; rfl) fun w hw hwrites => ?_
    exact absurd hwrites (Multiset.countP_eq_zero.mp hnone w hw)

theorem Inv.cleanup {s : State} (h : Inv s) (resource : String) :
    Inv { s with shared := s.shared.cleanup resource } := by
  unfold LockManager.cleanup
  cases hlook : s.shared.lockTable.lookup resource with
  | none => exact h
  | some info =>
    dsimp only
    split_ifs with hfree
    · intro r
      show Coherent ((s.shared.lockTable.erase resource).lookup r) s.waiting r
      by_cases hr : r = resource
      · subst hr
        rw [Finmap.lookup_erase]
        have hcount := (h r).counted info hlook
        have hzero := hfree.2.2
        exact Coherent.drop (by omega)
      · rw [Finmap.lookup_erase_ne hr]
        exact h r
    · exact h

theorem record_eq_some_iff {w : Waiter} {m : LockManager} {info : LockInfo} :
    w.record m = some info ↔ m.lockTable.lookup w.resource = some info ∧ info.cv = w.cv := by
  rw [Waiter.record, Option.filter_eq_some_iff, decide_eq_true_iff]

/-- The invariant is kept when a blocked thread goes on. -/
theorem inv_proceeds : monitor.Proceeds Inv := by
  intro s w h hmem hready
  have hother : ∀ r, r ≠ w.resource →
      Coherent (s.shared.lockTable.lookup r) (s.waiting.erase w) r :=
    fun r hr => (h r).erase hmem fun hw => hr hw.2.symm
  show Inv ⟨w.proceed s.shared, s.waiting.erase w⟩
  have hready' : w.ready s.shared = true := hready
  cases hrec : w.record s.shared with
  | none =>
    -- only a reader can have lost its record, and it leaves every record alone
    have hreader : ¬ w.WritesTo w.resource := by
      intro hwrites
      obtain ⟨info, hinfo, hcv⟩ := (h w.resource).present w hmem hwrites
      rw [record_eq_some_iff.mpr ⟨hinfo, hcv⟩] at hrec
      exact absurd hrec (by simp)
    simp only [Waiter.proceed, hrec]
    intro r
    by_cases hr : r = w.resource
    · subst hr
      exact (h _).erase hmem hreader
    · exact hother r hr
  | some info =>
    obtain ⟨hlook, hcv⟩ := record_eq_some_iff.mp hrec
    have hself := h w.resource
    rw [hlook] at hself
    simp only [Waiter.ready, hrec] at hready'
    simp only [Waiter.proceed, hrec]
    apply Inv.set (m := s.shared) hother
    cases hcall : w.call with
    | acquireShared =>
      simp only [hcall, Call.ready, decide_eq_true_eq] at hready'
      have hreader : ¬ w.WritesTo w.resource := fun hw => hw.1 hcall
      refine (hself.erase hmem hreader).update ?_ rfl rfl
      intro hne
      exact absurd hready'.1 hne
    | acquireExclusive =>
      simp only [hcall, Call.ready, decide_eq_true_eq] at hready'
      exact hself.take hmem ⟨by simp [hcall], rfl⟩ hready'.2 rfl rfl
    | upgrade =>
      simp only [hcall, Call.ready, decide_eq_true_eq] at hready'
      exact hself.take hmem ⟨by simp [hcall], rfl⟩ hready'.2 rfl rfl

/-- `acquire_shared_lock` keeps the invariant: a reader does not count. -/
theorem Inv.acquireSharedLock {s : State} (h : Inv s) (txnId : ℤ) (resource : String) :
    Inv (acquireSharedLock s txnId resource) := by
  have hentry := h.entry resource
  exact Monitor.await_invariant inv_proceeds fun r => (hentry r).cons fun hw => hw.1 rfl

/-- A writer that is announced in a record may wait on it. -/
theorem Inv.awaitWriter {s : State} (h : Inv s) {info info' : LockInfo} {w : Waiter}
    (hinfo : s.shared.lockTable.lookup w.resource = some info) (hcall : w.call ≠ .acquireShared)
    (hwcv : info.cv = w.cv) (hexclusive : info'.exclusiveOwner ≠ -1 → info'.sharedOwners = ∅)
    (hwaiting : info'.waitingWriters = info.waitingWriters + 1) (hcv : info'.cv = info.cv) :
    Inv (monitor.await { s with shared := s.shared.set w.resource info' } w) := by
  have hself := h w.resource
  rw [hinfo] at hself
  refine Monitor.await_invariant inv_proceeds (Inv.set (m := s.shared) ?_ ?_)
  · exact fun r hr => (h r).cons fun hw => hr hw.2.symm
  · exact hself.announce ⟨hcall, rfl⟩ hwcv hexclusive hwaiting hcv

theorem Inv.acquireExclusiveLock {s : State} (h : Inv s) (txnId : ℤ) (resource : String) :
    Inv (acquireExclusiveLock s txnId resource) := by
  have hentry := h.entry resource
  have hlook := lookup_entry s.shared resource
  exact hentry.awaitWriter (w := ⟨.acquireExclusive, txnId, resource, _⟩) hlook (by simp) rfl
    ((hentry resource).exclusive (s.shared.entry resource).1 hlook) rfl rfl

/-- `upgrade` keeps the invariant: where it gives up a shared lock nobody owns the resource
exclusively. -/
theorem Inv.upgrade {s : State} (h : Inv s) (txnId : ℤ) (resource : String) :
    Inv (upgrade s txnId resource) := by
  have hentry := h.entry resource
  have hlook := lookup_entry s.shared resource
  simp only [LockManagement.upgrade]
  split_ifs with howner
  · refine hentry.awaitWriter (w := ⟨.upgrade, txnId, resource, _⟩) hlook (by simp) rfl
      (fun hne => ?_) rfl rfl
    show ((s.shared.entry resource).1.sharedOwners).erase txnId = ∅
    rw [(hentry resource).exclusive _ hlook hne]
    rfl
  · exact hentry

theorem Inv.downgrade {s : State} (h : Inv s) (txnId : ℤ) (resource : String) :
    Inv (downgrade s txnId resource) := by
  have hentry := h.entry resource
  have hself := hentry resource
  rw [lookup_entry] at hself
  simp only [LockManagement.downgrade]
  split_ifs with howner
  · refine Inv.set (m := (s.shared.entry resource).2) (fun r _ => hentry r) ?_
    exact hself.update (fun hne => absurd rfl hne) rfl rfl
  · exact hentry

/-- Giving up owners, with the `cleanup` after it, keeps the invariant. -/
theorem Inv.release {s : State} (h : Inv s) {resource : String} {info : LockInfo}
    (hinfo : s.shared.lockTable.lookup resource = some info) (info' : LockInfo)
    (hexclusive : info'.exclusiveOwner ≠ -1 → info'.sharedOwners = ∅)
    (hwaiting : info'.waitingWriters = info.waitingWriters) (hcv : info'.cv = info.cv)
    (txnId : ℤ) (text : String) :
    Inv ⟨((s.shared.set resource info').print txnId text).cleanup resource, s.waiting⟩ := by
  have hself := h resource
  rw [hinfo] at hself
  refine Inv.cleanup (s := ⟨_, s.waiting⟩) ?_ resource
  exact Inv.set (m := s.shared) (fun r _ => h r) (hself.update hexclusive hwaiting hcv)

theorem Inv.releaseSharedLock {s : State} (h : Inv s) (txnId : ℤ) (resource : String) :
    Inv (releaseSharedLock s txnId resource) := by
  cases hlook : s.shared.lockTable.lookup resource with
  | none => simpa only [LockManagement.releaseSharedLock, hlook] using h
  | some info =>
    simp only [LockManagement.releaseSharedLock, hlook]
    refine h.release hlook { info with sharedOwners := info.sharedOwners.erase txnId }
      (fun hne => ?_) rfl rfl txnId _
    show info.sharedOwners.erase txnId = ∅
    rw [(h resource).exclusive info hlook hne]
    rfl

theorem Inv.releaseExclusiveLock {s : State} (h : Inv s) (txnId : ℤ) (resource : String) :
    Inv (releaseExclusiveLock s txnId resource) := by
  cases hlook : s.shared.lockTable.lookup resource with
  | none => simpa only [LockManagement.releaseExclusiveLock, hlook] using h
  | some info =>
    simp only [LockManagement.releaseExclusiveLock, hlook]
    split_ifs with howner
    · exact h.release hlook { info with exclusiveOwner := -1 } (fun hne => absurd rfl hne) rfl rfl
        txnId _
    · exact h.release hlook info ((h resource).exclusive info hlook) rfl rfl txnId _

theorem Inv.step {s s' : State} {label : Label} (h : Inv s) (hstep : step s label = some s') :
    Inv s' := by
  cases label with
  | acquireShared txnId resource => exact Option.some.inj hstep ▸ h.acquireSharedLock txnId resource
  | releaseShared txnId resource => exact Option.some.inj hstep ▸ h.releaseSharedLock txnId resource
  | acquireExclusive txnId resource =>
    exact Option.some.inj hstep ▸ h.acquireExclusiveLock txnId resource
  | releaseExclusive txnId resource =>
    exact Option.some.inj hstep ▸ h.releaseExclusiveLock txnId resource
  | upgrade txnId resource => exact Option.some.inj hstep ▸ h.upgrade txnId resource
  | downgrade txnId resource => exact Option.some.inj hstep ▸ h.downgrade txnId resource
  | wake w => exact Monitor.wake_invariant inv_proceeds h hstep

theorem inv_run {labels : List Label} {s : State} (h : run labels = some s) : Inv s := by
  refine TransitionSystem.run_invariant (fun s label s' hs hstep => hs.step hstep) ?_ h
  intro r
  exact Coherent.drop rfl

/-! ## Exclusion -/

/-- **Shared and exclusive owners exclude each other.**  In every state that an interleaving of
calls and wake-ups reaches, a record with an exclusive owner has no shared owners, and its
`waitingWriters` is the number of threads blocked in `acquire_exclusive_lock` or `upgrade` on
the resource. -/
theorem exclusive_and_counted (labels : List Label) (s : State) (h : run labels = some s)
    (resource : String) (info : LockInfo)
    (hinfo : s.shared.lockTable.lookup resource = some info) :
    (info.exclusiveOwner ≠ -1 → info.sharedOwners = ∅) ∧
      info.waitingWriters = s.waiting.countP fun w =>
        w.resource = resource ∧ (w.call = .acquireExclusive ∨ w.call = .upgrade) := by
  have hr := inv_run h resource
  refine ⟨hr.exclusive info hinfo, ?_⟩
  rw [hr.counted info hinfo, writersOn]
  congr 1
  apply Multiset.countP_congr rfl
  intro w _
  cases hcall : w.call <;> simp [Waiter.WritesTo, hcall]

/-- A writer that is blocked by a reader of `row1` is counted. -/
theorem exclusive_and_counted_row1 :
    ∃ s info, run [.acquireShared 1 "row1", .acquireExclusive 3 "row1"] = some s ∧
      s.shared.lockTable.lookup "row1" = some info ∧
      (info.exclusiveOwner ≠ -1 → info.sharedOwners = ∅) ∧
      info.waitingWriters = s.waiting.countP fun w =>
        w.resource = "row1" ∧ (w.call = .acquireExclusive ∨ w.call = .upgrade) :=
  ⟨_, _, rfl, rfl, exclusive_and_counted
    [.acquireShared 1 "row1", .acquireExclusive 3 "row1"] _ rfl "row1" _ rfl⟩

/-! ## What `cleanup` erases -/

/-- The resource whose lock a call gives up, and the record before `cleanup` looks at it. -/
def afterRelease (info : LockInfo) : Label → Option (String × LockInfo)
  | .releaseShared txnId resource =>
    some (resource, { info with sharedOwners := info.sharedOwners.erase txnId })
  | .releaseExclusive txnId resource =>
    some (resource,
      if info.exclusiveOwner = txnId then { info with exclusiveOwner := -1 } else info)
  | _ => none

theorem waitingWriters_afterRelease {info info' : LockInfo} {label : Label} {resource : String}
    (h : afterRelease info label = some (resource, info')) :
    info'.waitingWriters = info.waitingWriters := by
  cases label with
  | releaseShared txnId r =>
    obtain ⟨-, rfl⟩ := Prod.mk.inj (Option.some.inj h)
    rfl
  | releaseExclusive txnId r =>
    obtain ⟨-, rfl⟩ := Prod.mk.inj (Option.some.inj h)
    split_ifs <;> rfl
  | acquireShared | acquireExclusive | upgrade | downgrade | wake =>
    exact absurd h (by simp [afterRelease])

/-- After writing a record, `cleanup` erases it if it is unused, and no other record. -/
theorem lookup_cleanup_set (m : LockManager) (txnId : ℤ) (text resource : String)
    (info : LockInfo) (r : String) :
    (((m.set resource info).print txnId text).cleanup resource).lockTable.lookup r =
      if r = resource then (if info.Unused then none else some info)
      else m.lockTable.lookup r := by
  have hlook : ((m.set resource info).print txnId text).lockTable.lookup resource = some info :=
    Finmap.lookup_insert _
  have hother : ∀ r, r ≠ resource →
      ((m.set resource info).print txnId text).lockTable.lookup r = m.lockTable.lookup r :=
    fun r hr => Finmap.lookup_insert_of_ne _ hr
  rw [LockManager.cleanup, hlook]
  dsimp only
  by_cases hunused : info.Unused
  · rw [if_pos hunused, if_pos hunused]
    by_cases hr : r = resource
    · subst hr
      rw [if_pos rfl, Finmap.lookup_erase]
    · rw [if_neg hr, Finmap.lookup_erase_ne hr, hother r hr]
  · rw [if_neg hunused, if_neg hunused]
    by_cases hr : r = resource
    · subst hr
      rw [if_pos rfl, hlook]
    · rw [if_neg hr, hother r hr]

theorem mem_entry {m : LockManager} {r : String} (h : r ∈ m.lockTable) (resource : String) :
    r ∈ (m.entry resource).2.lockTable := by
  unfold LockManager.entry
  cases m.lockTable.lookup resource with
  | some info => exact h
  | none => exact Finmap.mem_insert.mpr (Or.inr h)

theorem mem_proceed (r : String) (w : Waiter) (m : LockManager) (h : r ∈ m.lockTable) :
    r ∈ (monitor.proceed w m).lockTable := by
  show r ∈ (w.proceed m).lockTable
  unfold Waiter.proceed
  cases w.record m with
  | none => exact h
  | some info => exact Finmap.mem_insert.mpr (Or.inr h)

theorem mem_step {s s' : State} {label : Label} (hstep : step s label = some s')
    (hlabel : ∀ info, afterRelease info label = none) {r : String}
    (h : r ∈ s.shared.lockTable) : r ∈ s'.shared.lockTable := by
  have hset : ∀ {m : LockManager} {resource : String} {info : LockInfo},
      r ∈ m.lockTable → r ∈ (m.set resource info).lockTable :=
    fun hm => Finmap.mem_insert.mpr (Or.inr hm)
  cases label with
  | acquireShared txnId resource =>
    obtain rfl := Option.some.inj hstep
    exact Monitor.await_shared (Q := fun m : LockManager => r ∈ m.lockTable) (mem_proceed r)
      (mem_entry h resource)
  | acquireExclusive txnId resource =>
    obtain rfl := Option.some.inj hstep
    exact Monitor.await_shared (Q := fun m : LockManager => r ∈ m.lockTable) (mem_proceed r)
      (hset (mem_entry h resource))
  | upgrade txnId resource =>
    obtain rfl := Option.some.inj hstep
    simp only [LockManagement.upgrade]
    split_ifs
    · exact Monitor.await_shared (Q := fun m : LockManager => r ∈ m.lockTable) (mem_proceed r)
        (hset (mem_entry h resource))
    · exact mem_entry h resource
  | downgrade txnId resource =>
    obtain rfl := Option.some.inj hstep
    simp only [LockManagement.downgrade]
    split_ifs
    · exact hset (mem_entry h resource)
    · exact mem_entry h resource
  | releaseShared txnId resource => exact absurd (hlabel { cv := 0 }) (by simp [afterRelease])
  | releaseExclusive txnId resource => exact absurd (hlabel { cv := 0 }) (by simp [afterRelease])
  | wake w =>
    exact Monitor.wake_shared (Q := fun m : LockManager => r ∈ m.lockTable) (mem_proceed r) h hstep

/-- A release replaces the record of its resource and erases it when that leaves it unused. -/
theorem lookup_release {s s' : State} {label : Label} {resource : String} {info info' : LockInfo}
    (hinfo : s.shared.lockTable.lookup resource = some info)
    (hrel : afterRelease info label = some (resource, info')) (hstep : step s label = some s') :
    s'.shared.lockTable.lookup resource = if info'.Unused then none else some info' := by
  cases label with
  | releaseShared txnId r =>
    obtain ⟨rfl, rfl⟩ := Prod.mk.inj (Option.some.inj hrel)
    obtain rfl := Option.some.inj hstep
    simp only [releaseSharedLock, hinfo]
    rw [lookup_cleanup_set, if_pos rfl]
  | releaseExclusive txnId r =>
    obtain ⟨rfl, rfl⟩ := Prod.mk.inj (Option.some.inj hrel)
    obtain rfl := Option.some.inj hstep
    simp only [releaseExclusiveLock, hinfo]
    rw [lookup_cleanup_set, if_pos rfl]
  | acquireShared | acquireExclusive | upgrade | downgrade | wake =>
    exact absurd hrel (by simp [afterRelease])

theorem lookup_release_of_ne {s s' : State} {label : Label} {r resource : String}
    {info info' : LockInfo} (hrel : afterRelease info label = some (r, info'))
    (hr : resource ≠ r) (hstep : step s label = some s') :
    s'.shared.lockTable.lookup resource = s.shared.lockTable.lookup resource := by
  cases label with
  | releaseShared txnId r' =>
    obtain ⟨rfl, -⟩ := Prod.mk.inj (Option.some.inj hrel)
    obtain rfl := Option.some.inj hstep
    cases hlook : s.shared.lockTable.lookup r' with
    | none => simp only [releaseSharedLock, hlook]
    | some info₀ =>
      simp only [releaseSharedLock, hlook]
      rw [lookup_cleanup_set, if_neg hr]
  | releaseExclusive txnId r' =>
    obtain ⟨rfl, -⟩ := Prod.mk.inj (Option.some.inj hrel)
    obtain rfl := Option.some.inj hstep
    cases hlook : s.shared.lockTable.lookup r' with
    | none => simp only [releaseExclusiveLock, hlook]
    | some info₀ =>
      simp only [releaseExclusiveLock, hlook]
      rw [lookup_cleanup_set, if_neg hr]
  | acquireShared | acquireExclusive | upgrade | downgrade | wake =>
    exact absurd hrel (by simp [afterRelease])

theorem afterRelease_eq_none {info : LockInfo} {label : Label}
    (h : afterRelease info label = none) (info' : LockInfo) : afterRelease info' label = none := by
  cases label <;> simp_all [afterRelease]

/-- A critical section erases a record exactly when it is a release that leaves it unused. -/
theorem lookup_step_eq_none_iff {s s' : State} {label : Label} (hstep : step s label = some s')
    {resource : String} {info : LockInfo}
    (hinfo : s.shared.lockTable.lookup resource = some info) :
    s'.shared.lockTable.lookup resource = none ↔
      ∃ info', afterRelease info label = some (resource, info') ∧ info'.Unused := by
  cases hrel : afterRelease info label with
  | none =>
    have hmem := mem_step hstep (afterRelease_eq_none hrel) (Finmap.mem_of_lookup_eq_some hinfo)
    rw [Finmap.lookup_eq_none]
    simp [hmem]
  | some p =>
    obtain ⟨r, info'⟩ := p
    by_cases hr : resource = r
    · subst hr
      rw [lookup_release hinfo hrel hstep]
      simp
    · rw [lookup_release_of_ne hrel hr hstep, hinfo]
      simp [Ne.symm hr]

/-- The thread is blocked in `cv.wait` on this record of the resource. -/
def Waiter.BlockedOn (w : Waiter) (resource : String) (info : LockInfo) : Prop :=
  w.resource = resource ∧ w.cv = info.cv

/-- The records that go from `s` to `s'` are those no thread is blocked on. -/
def ErasesOnlyIdle (s s' : State) : Prop :=
  ∀ resource info, s.shared.lockTable.lookup resource = some info →
    s'.shared.lockTable.lookup resource = none → ∀ w ∈ s.waiting, ¬ w.BlockedOn resource info

/-- The call is a release that leaves the record of its resource without owners and waiting
writers while a thread is blocked on it in `acquire_shared_lock`. -/
def FreesUnderReader (s : State) (label : Label) : Prop :=
  ∃ resource info info' w, s.shared.lockTable.lookup resource = some info ∧
    afterRelease info label = some (resource, info') ∧ info'.Unused ∧
    w ∈ s.waiting ∧ w.call = .acquireShared ∧ w.BlockedOn resource info

/-- **When `cleanup` erases a record in use.**  In every reachable state, a critical section
erases only records no thread is blocked on, unless it is a release that leaves the record
unused under a blocked reader.  Blocked writers are safe: they are counted. -/
theorem cleanup_safe_iff (labels : List Label) (s s' : State) (label : Label)
    (hs : run labels = some s) (hstep : step s label = some s') :
    ErasesOnlyIdle s s' ↔ ¬ FreesUnderReader s label := by
  constructor
  · rintro hidle ⟨resource, info, info', w, hinfo, hrel, hunused, hw, -, hblocked⟩
    have hnone := (lookup_step_eq_none_iff hstep hinfo).mpr ⟨info', hrel, hunused⟩
    exact hidle resource info hinfo hnone w hw hblocked
  · intro hfrees resource info hinfo hnone w hw hblocked
    obtain ⟨info', hrel, hunused⟩ := (lookup_step_eq_none_iff hstep hinfo).mp hnone
    by_cases hcall : w.call = .acquireShared
    · exact hfrees ⟨resource, info, info', w, hinfo, hrel, hunused, hw, hcall, hblocked⟩
    · -- a blocked writer is counted, and `cleanup` saw a count of zero
      have hcount := (inv_run hs resource).counted info hinfo
      have hzero : info'.waitingWriters = 0 := hunused.2.2
      rw [waitingWriters_afterRelease hrel] at hzero
      have hpos : 0 < writersOn s.waiting resource :=
        Multiset.countP_pos.mpr ⟨w, hw, hcall, hblocked.1⟩
      omega

/-- A writer of `row1` is released while another writer is blocked: nothing is erased. -/
theorem cleanup_safe_iff_row1 :
    ∃ s s', run [.acquireExclusive 1 "row1", .acquireExclusive 2 "row1"] = some s ∧
      step s (.releaseExclusive 1 "row1") = some s' ∧ ErasesOnlyIdle s s' := by
  refine ⟨_, _, rfl, rfl, (cleanup_safe_iff
    [.acquireExclusive 1 "row1", .acquireExclusive 2 "row1"] _ _ (.releaseExclusive 1 "row1")
    rfl rfl).mpr ?_⟩
  rintro ⟨resource, info, info', w, hinfo, hrel, hunused, hw, hcall, hblocked⟩
  have hw' : w ∈ ({⟨.acquireExclusive, 2, "row1", 0⟩} : Multiset Waiter) := hw
  rw [Multiset.mem_singleton.mp hw'] at hcall
  exact absurd hcall (by simp)

/-- Transaction `1` owns `row1`, transaction `2` is blocked as a reader, and the release of `1`
erases the record that `2` is blocked on. -/
theorem release_erases_under_reader :
    ∃ s s', run [.acquireExclusive 1 "row1", .acquireShared 2 "row1"] = some s ∧
      step s (.releaseExclusive 1 "row1") = some s' ∧ ¬ ErasesOnlyIdle s s' := by
  refine ⟨_, _, rfl, rfl, fun hidle => ?_⟩
  exact hidle "row1" ⟨∅, 1, 0, 0⟩ (by decide) (by decide) ⟨.acquireShared, 2, "row1", 0⟩
    (by decide) ⟨rfl, rfl⟩

end LockManagement
