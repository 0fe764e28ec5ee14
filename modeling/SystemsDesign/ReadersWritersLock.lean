/-
# The readers-writers lock with writer preference

Model of `concurrency/ReadersWritersLock_writer_preference.cpp`.  Readers wait on `reader_cv` until
no writer is active and none waits; writers wait on `writer_cv` until nobody is active.

Every member function is one critical section of `mtx`, cut only where a thread sleeps in `wait`.
A sleeper wakes up when it is notified, or spuriously (`Act.wake`); it then has to take the mutex
and look at its condition again (`Act.enter`).  `notify_one` wakes a sleeper that the schedule
picks.

Results: readers and writers exclude each other, and as long as the lock is free and wanted, a
thread is awake that can take it.
-/
import SystemsDesign.ThreadList
import SystemsDesign.TransitionSystem

namespace ReadersWritersLocks

open ThreadList TransitionSystem

/-! ## The lock -/

/-- The data members of `ReadWriteLock`. -/
structure ReadWriteLock where
  activeReaders : ℤ := 0
  waitingWriters : ℤ := 0
  anyActiveWriter : Bool := false
  deriving DecidableEq

/-- What a thread wants the lock for. -/
inductive Mode where
  | read
  | write
  deriving DecidableEq

namespace ReadWriteLock

/-- The conditions of the two waits. -/
def ready (l : ReadWriteLock) : Mode → Bool
  | .read => l.anyActiveWriter = false && l.waitingWriters = 0
  | .write => l.activeReaders = 0 && l.anyActiveWriter = false

/-- What `acquire_read_lock` and `acquire_write_lock` do before they wait. -/
def beforeWait (l : ReadWriteLock) : Mode → ReadWriteLock
  | .read => l
  | .write => { l with waitingWriters := l.waitingWriters + 1 }

/-- What they do behind the wait. -/
def afterWait (l : ReadWriteLock) : Mode → ReadWriteLock
  | .read => { l with activeReaders := l.activeReaders + 1 }
  | .write => { l with waitingWriters := l.waitingWriters - 1, anyActiveWriter := true }

/-- Nobody is active. -/
def Free (l : ReadWriteLock) : Prop := l.activeReaders = 0 ∧ l.anyActiveWriter = false

end ReadWriteLock

/-! ## The threads -/

/-- Where a thread is: outside, at the begin of an acquire, asleep in `wait`, woken up there,
or the holder of the lock. -/
inductive Phase where
  | outside
  | calling (m : Mode)
  | asleep (m : Mode)
  | woken (m : Mode)
  | holding (m : Mode)
  deriving DecidableEq

namespace Phase

/-- Asleep on `reader_cv` or on `writer_cv`. -/
def sleepsFor (m : Mode) (p : Phase) : Bool := p = .asleep m

/-- Inside the wait of an acquire. -/
def waitsFor (m : Mode) (p : Phase) : Bool := p = .asleep m || p = .woken m

/-- Between an acquire and its release. -/
def holds (m : Mode) (p : Phase) : Bool := p = .holding m

/-- Inside `acquire_read_lock` or `acquire_write_lock`, but not asleep. -/
def Awake (m : Mode) (p : Phase) : Prop := p = .calling m ∨ p = .woken m

/-- Inside `acquire_read_lock` or `acquire_write_lock`. -/
def Inside (m : Mode) (p : Phase) : Prop := p = .asleep m ∨ p.Awake m

end Phase

/-- The lock and its threads. -/
structure State where
  lock : ReadWriteLock
  threads : List Phase
  deriving DecidableEq

/-- A fresh lock and `n` threads outside. -/
def start (n : ℕ) : State where
  lock := {}
  threads := List.replicate n .outside

/-- Who moves. -/
inductive Act where
  /-- Thread `i` calls an acquire. -/
  | call (i : ℕ) (m : Mode)
  /-- Thread `i` takes the mutex and runs its acquire up to the end or to sleep. -/
  | enter (i : ℕ)
  /-- Thread `i` wakes up without a notification. -/
  | wake (i : ℕ)
  /-- Thread `i` releases the lock; a `notify_one` wakes `j`. -/
  | release (i j : ℕ)
  deriving DecidableEq

/-- `notify_one` on the condition variable of `m`. -/
def notifyOneFor (m : Mode) : List Phase → ℕ → Option (List Phase) :=
  notifyOne (Phase.sleepsFor m) fun _ => .woken m

/-- `notify_all` on the condition variable of `m`. -/
def notifyAllFor (m : Mode) : List Phase → List Phase :=
  notifyAll (Phase.sleepsFor m) fun _ => .woken m

/-- `wait` and the rest of the acquire, for a thread that looks at its condition. -/
def await (s : State) (i : ℕ) (m : Mode) : State :=
  if s.lock.ready m then
    { lock := s.lock.afterWait m, threads := s.threads.set i (.holding m) }
  else { s with threads := s.threads.set i (.asleep m) }

/-- The two acquires. -/
def acquire (m : Mode) (s : State) (i : ℕ) : State :=
  await { s with lock := s.lock.beforeWait m } i m

/-- `acquire_read_lock`. -/
def acquireReadLock : State → ℕ → State := acquire .read

/-- `acquire_write_lock`. -/
def acquireWriteLock : State → ℕ → State := acquire .write

/-- `release_read_lock`. -/
def releaseReadLock (s : State) (i j : ℕ) : Option State :=
  let lock := { s.lock with activeReaders := s.lock.activeReaders - 1 }
  let threads := s.threads.set i .outside
  if lock.activeReaders = 0 then
    (notifyOneFor .write threads j).map fun threads => { lock, threads }
  else some { lock, threads }

/-- `release_write_lock`. -/
def releaseWriteLock (s : State) (i j : ℕ) : Option State :=
  let lock := { s.lock with anyActiveWriter := false }
  let threads := s.threads.set i .outside
  if lock.waitingWriters > 0 then
    (notifyOneFor .write threads j).map fun threads => { lock, threads }
  else some { lock, threads := notifyAllFor .read threads }

/-- One move. -/
def step (s : State) : Act → Option State
  | .call i m =>
    match s.threads[i]? with
    | some .outside => some { s with threads := s.threads.set i (.calling m) }
    | _ => none
  | .enter i =>
    match s.threads[i]? with
    | some (.calling .read) => some (acquireReadLock s i)
    | some (.calling .write) => some (acquireWriteLock s i)
    | some (.woken m) => some (await s i m)
    | _ => none
  | .wake i =>
    match s.threads[i]? with
    | some (.asleep m) => some { s with threads := s.threads.set i (.woken m) }
    | _ => none
  | .release i j =>
    match s.threads[i]? with
    | some (.holding .read) => releaseReadLock s i j
    | some (.holding .write) => releaseWriteLock s i j
    | _ => none

/-- What a move can be. -/
inductive Step (s s' : State) : Prop where
  | call {i : ℕ} {m : Mode} (hi : s.threads[i]? = some .outside)
      (hs : s' = { s with threads := s.threads.set i (.calling m) })
  | acquire {i : ℕ} {m : Mode} (hi : s.threads[i]? = some (.calling m)) (hs : s' = acquire m s i)
  | again {i : ℕ} {m : Mode} (hi : s.threads[i]? = some (.woken m)) (hs : s' = await s i m)
  | wake {i : ℕ} {m : Mode} (hi : s.threads[i]? = some (.asleep m))
      (hs : s' = { s with threads := s.threads.set i (.woken m) })
  | releaseRead {i j : ℕ} (hi : s.threads[i]? = some (.holding .read))
      (hs : releaseReadLock s i j = some s')
  | releaseWrite {i j : ℕ} (hi : s.threads[i]? = some (.holding .write))
      (hs : releaseWriteLock s i j = some s')

theorem step_spec {s s' : State} {a : Act} (h : step s a = some s') : Step s s' := by
  cases a with
  | call i m =>
    simp only [step] at h
    split at h
    next hi => exact .call hi (Option.some.inj h).symm
    next => cases h
  | enter i =>
    simp only [step] at h
    split at h
    next hi => exact .acquire hi (Option.some.inj h).symm
    next hi => exact .acquire hi (Option.some.inj h).symm
    next m hi => exact .again hi (Option.some.inj h).symm
    next => cases h
  | wake i =>
    simp only [step] at h
    split at h
    next m hi => exact .wake hi (Option.some.inj h).symm
    next => cases h
  | release i j =>
    simp only [step] at h
    split at h
    next hi => exact .releaseRead hi h
    next hi => exact .releaseWrite hi h
    next => cases h

/-! ## The invariant -/

/-- The members of the lock count the threads, and a writer is alone. -/
structure Counted (s : State) : Prop where
  readers : s.lock.activeReaders = s.threads.countP (Phase.holds .read)
  writers : s.threads.countP (Phase.holds .write) = if s.lock.anyActiveWriter then 1 else 0
  waiting : s.lock.waitingWriters = s.threads.countP (Phase.waitsFor .write)
  exclusive : s.lock.anyActiveWriter = true → s.lock.activeReaders = 0

/-- Readers sleep only while a writer is active or waits. -/
def ReadersExcused (s : State) : Prop :=
  .asleep .read ∈ s.threads → s.lock.anyActiveWriter = true ∨ 0 < s.lock.waitingWriters

/-- When writers wait for a free lock, one of them is awake. -/
def WriterRoused (s : State) : Prop :=
  s.lock.Free → 0 < s.lock.waitingWriters → .woken .write ∈ s.threads

/-- The invariant of the lock. -/
structure Inv (s : State) : Prop extends Counted s where
  excused : ReadersExcused s
  roused : WriterRoused s

section Moves

variable {s s' : State} {i j : ℕ} {p q : Phase} {m : Mode} {l : ReadWriteLock} {ts : List Phase}

/-- The share of a thread in a counter. -/
def share (b : Bool) : ℤ := if b then 1 else 0

/-- A move of one thread keeps the counts if it books its share. -/
theorem Counted.set (h : Counted s) (hi : s.threads[i]? = some p)
    (hreaders : l.activeReaders + share (p.holds .read)
      = s.lock.activeReaders + share (q.holds .read))
    (hwriters : share l.anyActiveWriter + share (p.holds .write)
      = share s.lock.anyActiveWriter + share (q.holds .write))
    (hwaiting : l.waitingWriters + share (p.waitsFor .write)
      = s.lock.waitingWriters + share (q.waitsFor .write))
    (hexclusive : l.anyActiveWriter = true → l.activeReaders = 0) :
    Counted ⟨l, s.threads.set i q⟩ := by
  have hset (Q : Phase → Bool) : ((s.threads.set i q).countP Q : ℤ) + share (Q p)
      = s.threads.countP Q + share (Q q) := by
    have := countP_set_add Q hi q
    unfold share
    split_ifs at this ⊢ <;> omega
  have hold : ((s.threads.countP (Phase.holds .write) : ℕ) : ℤ) = share s.lock.anyActiveWriter := by
    rw [h.writers]
    unfold share
    split_ifs <;> rfl
  refine ⟨?_, ?_, ?_, hexclusive⟩
  · have := hset (Phase.holds .read)
    have := h.readers
    show l.activeReaders = ((s.threads.set i q).countP (Phase.holds .read) : ℕ)
    omega
  · have := hset (Phase.holds .write)
    have hnew : (((s.threads.set i q).countP (Phase.holds .write) : ℕ) : ℤ)
        = share l.anyActiveWriter := by omega
    show (s.threads.set i q).countP (Phase.holds .write) = if l.anyActiveWriter then 1 else 0
    unfold share at hnew
    split_ifs at hnew ⊢ <;> omega
  · have := hset (Phase.waitsFor .write)
    have := h.waiting
    show l.waitingWriters = ((s.threads.set i q).countP (Phase.waitsFor .write) : ℕ)
    omega

theorem Counted.same (h : Counted s) (hi : s.threads[i]? = some p)
    (hread : q.holds .read = p.holds .read) (hwrite : q.holds .write = p.holds .write)
    (hwait : q.waitsFor .write = p.waitsFor .write) :
    Counted { s with threads := s.threads.set i q } :=
  h.set hi (by rw [hread]) (by rw [hwrite]) (by rw [hwait]) h.exclusive

theorem Counted.congr (h : Counted s) (hcount : ∀ m,
      ts.countP (Phase.holds m) = s.threads.countP (Phase.holds m))
    (hwait : ts.countP (Phase.waitsFor .write) = s.threads.countP (Phase.waitsFor .write)) :
    Counted { s with threads := ts } where
  readers := by rw [hcount]; exact h.readers
  writers := by rw [hcount]; exact h.writers
  waiting := by rw [hwait]; exact h.waiting
  exclusive := h.exclusive

theorem Counted.nonneg (h : Counted s) :
    0 ≤ s.lock.activeReaders ∧ 0 ≤ s.lock.waitingWriters := by
  rw [h.readers, h.waiting]
  omega

theorem Counted.pos_of_reading (h : Counted s) (hi : s.threads[i]? = some (.holding .read)) :
    0 < s.lock.activeReaders := by
  rw [h.readers]
  have := List.countP_pos_iff.mpr
    ⟨_, List.mem_of_getElem? hi, show Phase.holds .read _ = true by rfl⟩
  omega

/-- If a thread holds the write lock, the lock knows. -/
theorem Counted.active_of_writing (h : Counted s) (hi : s.threads[i]? = some (.holding .write)) :
    s.lock.anyActiveWriter = true := by
  have hpos := List.countP_pos_iff.mpr
    ⟨_, List.mem_of_getElem? hi, show Phase.holds .write _ = true by rfl⟩
  by_contra hactive
  rw [h.writers, if_neg hactive] at hpos
  exact absurd hpos (Nat.lt_irrefl 0)

/-! ### Acquiring -/

/-- Waiting for the lock starts with a thread that is awake. -/
theorem Inv.begin (h : Inv s) (hi : s.threads[i]? = some (.calling m)) :
    Inv ⟨s.lock.beforeWait m, s.threads.set i (.woken m)⟩ := by
  cases m with
  | read =>
    refine ⟨h.toCounted.same hi rfl rfl rfl, fun hmem => ?_, fun hfree hpos => ?_⟩
    · exact h.excused (mem_of_mem_set hmem (by decide))
    · exact mem_set_of_mem hi (h.roused hfree hpos) (by decide)
  | write =>
    have hwaiting := h.nonneg.2
    refine ⟨h.toCounted.set hi rfl rfl ?_ h.exclusive, fun _ => .inr ?_, fun _ _ => ?_⟩
    · exact add_assoc s.lock.waitingWriters 1 0
    · -- a writer that waits excuses all sleeping readers
      show 0 < s.lock.waitingWriters + 1
      omega
    · exact mem_set_self hi

/-- A thread that looks at its condition goes on or falls asleep. -/
theorem Inv.await (h : Inv s) (hi : s.threads[i]? = some (.woken m)) : Inv (await s i m) := by
  unfold ReadersWritersLocks.await
  have hnonneg := h.nonneg
  by_cases hready : s.lock.ready m = true
  · rw [if_pos hready]
    cases m with
    | read =>
      obtain ⟨hactive, hnone⟩ : s.lock.anyActiveWriter = false ∧ s.lock.waitingWriters = 0 := by
        simpa [ReadWriteLock.ready] using hready
      refine ⟨h.toCounted.set hi ?_ rfl rfl fun htrue => ?_, fun hmem => ?_, fun hfree _ => ?_⟩
      · exact add_assoc s.lock.activeReaders 1 0
      · exact absurd htrue (by simp [ReadWriteLock.afterWait, hactive])
      · exact h.excused (mem_of_mem_set hmem (by decide))
      · have hzero : s.lock.activeReaders + 1 = 0 := hfree.1
        omega
    | write =>
      obtain ⟨hzero, hactive⟩ : s.lock.activeReaders = 0 ∧ s.lock.anyActiveWriter = false := by
        simpa [ReadWriteLock.ready] using hready
      refine ⟨h.toCounted.set hi rfl ?_ ?_ fun _ => hzero, fun _ => .inl rfl, fun hfree => ?_⟩
      · rw [hactive]
        rfl
      · show s.lock.waitingWriters - 1 + 1 = s.lock.waitingWriters + 0
        omega
      · exact absurd hfree.2 Bool.noConfusion
  · rw [if_neg hready]
    cases m with
    | read =>
      refine ⟨h.toCounted.same hi rfl rfl rfl, fun _ => ?_, fun hfree hpos => ?_⟩
      · -- the reader falls asleep because of a writer
        by_contra hnot
        push Not at hnot
        apply hready
        show (decide _ && decide _) = true
        simp only [Bool.and_eq_true, decide_eq_true_eq]
        exact ⟨Bool.eq_false_of_not_eq_true hnot.1, by have := hnot.2; dsimp only at this; omega⟩
      · exact mem_set_of_mem hi (h.roused hfree hpos) (by decide)
    | write =>
      refine ⟨h.toCounted.same hi rfl rfl rfl, fun hmem => ?_, fun hfree _ => ?_⟩
      · exact h.excused (mem_of_mem_set hmem (by decide))
      · exact absurd (by simpa [ReadWriteLock.ready] using And.intro hfree.1 hfree.2) hready

/-- An acquire is a thread that wakes up right away. -/
theorem acquire_eq_await (s : State) (i : ℕ) (m : Mode) :
    acquire m s i
      = ReadersWritersLocks.await ⟨s.lock.beforeWait m, s.threads.set i (.woken m)⟩ i m := by
  simp [acquire, ReadersWritersLocks.await, List.set_set]

/-! ### Releasing -/

/-- `notify_one` on `writer_cv` makes up for what a release takes away. -/
theorem Counted.notifyWriter (h : Counted s) (hexcused : ReadersExcused s)
    (hnotify : notifyOneFor .write s.threads j = some ts) : Inv { s with threads := ts } := by
  have hcount (Q : Phase → Bool) (hQ : Q (.woken .write) = Q (.asleep .write)) :
      ts.countP Q = s.threads.countP Q := by
    refine countP_notifyOne (fun p hp => ?_) hnotify
    obtain rfl : p = .asleep .write := by simpa [Phase.sleepsFor] using hp
    exact hQ
  refine ⟨h.congr (fun m => hcount _ rfl) (hcount _ rfl), fun hmem => ?_, fun _ hpos => ?_⟩
  · apply hexcused
    rcases notifyOne_spec hnotify with ⟨-, rfl⟩ | ⟨p, -, -, rfl⟩
    · exact hmem
    · exact mem_of_mem_set hmem (by decide)
  · rcases notifyOne_spec hnotify with ⟨hnone, rfl⟩ | ⟨p, hj, -, rfl⟩
    · -- nobody sleeps on `writer_cv`, so the writers that wait are awake
      have hwaiting : s.lock.waitingWriters = _ := h.waiting
      have hcountpos : 0 < s.threads.countP (Phase.waitsFor .write) := by
        dsimp only at hpos
        omega
      obtain ⟨p, hp, hwaits⟩ := List.countP_pos_iff.mp hcountpos
      have hsleeps := hnone p hp
      simp only [Phase.waitsFor, Phase.sleepsFor, Bool.or_eq_true, decide_eq_true_eq,
        decide_eq_false_iff_not] at hwaits hsleeps
      exact hwaits.resolve_left hsleeps ▸ hp
    · exact mem_set_self hj

theorem Inv.releaseRead (h : Inv s) (hi : s.threads[i]? = some (.holding .read))
    (hs : releaseReadLock s i j = some s') : Inv s' := by
  have hpos := h.pos_of_reading hi
  have hactive : s.lock.anyActiveWriter = false := by
    by_contra htrue
    have := h.exclusive (Bool.eq_true_of_not_eq_false htrue)
    omega
  have hcounted : Counted ⟨{ s.lock with activeReaders := s.lock.activeReaders - 1 },
      s.threads.set i .outside⟩ := by
    refine h.toCounted.set hi ?_ rfl rfl fun htrue => ?_
    · show s.lock.activeReaders - 1 + 1 = s.lock.activeReaders + 0
      omega
    · exact absurd (hactive.symm.trans htrue) (by decide)
  have hexcused : ReadersExcused ⟨{ s.lock with activeReaders := s.lock.activeReaders - 1 },
      s.threads.set i .outside⟩ := fun hmem => h.excused (mem_of_mem_set hmem (by decide))
  simp only [releaseReadLock] at hs
  split_ifs at hs with hzero
  · obtain ⟨ts, hts, rfl⟩ := Option.map_eq_some_iff.mp hs
    exact hcounted.notifyWriter hexcused hts
  · obtain rfl := Option.some.inj hs
    exact ⟨hcounted, hexcused, fun hfree => absurd hfree.1 hzero⟩

theorem Inv.releaseWrite (h : Inv s) (hi : s.threads[i]? = some (.holding .write))
    (hs : releaseWriteLock s i j = some s') : Inv s' := by
  have hactive := h.active_of_writing hi
  have hcounted : Counted ⟨{ s.lock with anyActiveWriter := false },
      s.threads.set i .outside⟩ := by
    refine h.toCounted.set hi rfl ?_ rfl fun htrue => ?_
    · rw [hactive]
      rfl
    · exact absurd htrue Bool.noConfusion
  simp only [releaseWriteLock] at hs
  split_ifs at hs with hpos
  · obtain ⟨ts, hts, rfl⟩ := Option.map_eq_some_iff.mp hs
    exact hcounted.notifyWriter (fun _ => .inr hpos) hts
  · obtain rfl := Option.some.inj hs
    have hcount (Q : Phase → Bool) (hQ : Q (.woken .read) = Q (.asleep .read))
        (ts : List Phase) : (notifyAllFor .read ts).countP Q = ts.countP Q := by
      refine countP_notifyAll (fun p hp => ?_) ts
      obtain rfl : p = .asleep .read := by simpa [Phase.sleepsFor] using hp
      exact hQ
    refine ⟨hcounted.congr (fun m => hcount _ rfl _) (hcount _ rfl _), fun hmem => ?_,
      fun _ hwaiting => absurd hwaiting hpos⟩
    -- every sleeping reader has been woken
    rcases mem_notifyAll.mp hmem with ⟨_, -, -, heq⟩ | ⟨-, hsleeps⟩
    · cases heq
    · exact absurd hsleeps (by decide)

/-- **Every move keeps the invariant.** -/
theorem Inv.step (h : Inv s) (hs : Step s s') : Inv s' := by
  cases hs with
  | call hi hs =>
    subst hs
    refine ⟨h.toCounted.same hi rfl rfl rfl, fun hmem => ?_, fun hfree hpos => ?_⟩
    · exact h.excused (mem_of_mem_set hmem (by simp))
    · exact mem_set_of_mem hi (h.roused hfree hpos) (by decide)
  | acquire hi hs =>
    subst hs
    rw [acquire_eq_await]
    exact (h.begin hi).await (List.getElem?_set_self (List.getElem?_eq_some_iff.mp hi).1)
  | again hi hs =>
    subst hs
    exact h.await hi
  | wake hi hs =>
    subst hs
    refine ⟨h.toCounted.same hi rfl rfl ?_, fun hmem => ?_, fun hfree hpos => ?_⟩
    · simp [Phase.waitsFor]
    · exact h.excused (mem_of_mem_set hmem (by simp))
    · exact mem_set_of_mem hi (h.roused hfree hpos) (by simp)
  | releaseRead hi hs => exact h.releaseRead hi hs
  | releaseWrite hi hs => exact h.releaseWrite hi hs

end Moves

theorem inv_start (n : ℕ) : Inv (start n) where
  readers := by simp [start, List.countP_replicate, Phase.holds]
  writers := by simp [start, List.countP_replicate, Phase.holds]
  waiting := by simp [start, List.countP_replicate, Phase.waitsFor]
  exclusive := by simp [start]
  excused := by simp [ReadersExcused, start, List.mem_replicate]
  roused := by simp [WriterRoused, start]

theorem inv_of_run {n : ℕ} {as : List Act} {s : State} (h : run step (start n) as = some s) :
    Inv s :=
  run_invariant (fun _ _ _ hs hstep => hs.step (step_spec hstep)) (inv_start n) h

/-! ## Results -/

/-- If the lock is free and some thread wants it, a thread is awake that may take it. -/
theorem Inv.exists_awake {s : State} (h : Inv s) (hfree : s.lock.Free) {p : Phase} {m : Mode}
    (hp : p ∈ s.threads) (hinside : p.Inside m) :
    ∃ q ∈ s.threads, ∃ m, q.Awake m ∧ s.lock.ready m = true := by
  have hwrite : s.lock.ready .write = true := by
    simpa [ReadWriteLock.ready] using And.intro hfree.1 hfree.2
  by_cases hpos : 0 < s.lock.waitingWriters
  · exact ⟨_, h.roused hfree hpos, .write, .inr rfl, hwrite⟩
  · have hnone : s.lock.waitingWriters = 0 := by
      have := h.nonneg.2
      omega
    have hready : s.lock.ready m = true := by
      cases m with
      | read => simpa [ReadWriteLock.ready, hnone] using hfree.2
      | write => exact hwrite
    rcases hinside with rfl | hawake
    · -- sleepers are readers that a writer keeps out, or writers that are counted
      exfalso
      cases m with
      | read =>
        rcases h.excused hp with hactive | hwaiting
        · exact absurd (hfree.2.symm.trans hactive) (by decide)
        · exact hpos hwaiting
      | write =>
        have hcount := List.countP_pos_iff.mpr ⟨_, hp, show Phase.waitsFor .write _ = true by rfl⟩
        have := h.waiting
        omega
    · exact ⟨p, hp, m, hawake, hready⟩

/-- **The writer-preference lock.**  For any number of threads and in every run, there is at most
one active writer and no active reader beside it; and whenever nobody is active and some thread is
inside an acquire, a thread inside an acquire is not asleep, or notified, and its condition
holds. -/
theorem readWriteLock_correct (n : ℕ) (as : List Act) (s : State)
    (h : run step (start n) as = some s) :
    s.threads.countP (Phase.holds .write) ≤ 1 ∧
    (.holding .write ∈ s.threads → .holding .read ∉ s.threads) ∧
    (.holding .read ∉ s.threads → .holding .write ∉ s.threads →
      (∃ p ∈ s.threads, ∃ m, Phase.Inside m p) →
      ∃ p ∈ s.threads, ∃ m, Phase.Awake m p ∧ s.lock.ready m = true) := by
  have hinv := inv_of_run h
  refine ⟨?_, fun hwrite hread => ?_, fun hread hwrite => ?_⟩
  · rw [hinv.writers]
    split_ifs <;> decide
  · obtain ⟨i, hi⟩ := List.mem_iff_getElem?.mp hwrite
    obtain ⟨j, hj⟩ := List.mem_iff_getElem?.mp hread
    have hzero := hinv.exclusive (hinv.active_of_writing hi)
    have hpos := hinv.pos_of_reading hj
    omega
  · rintro ⟨p, hp, m, hinside⟩
    refine hinv.exists_awake ⟨?_, ?_⟩ hp hinside
    · rw [hinv.readers, Nat.cast_eq_zero, List.countP_eq_zero]
      intro q hq hholds
      exact hread ((decide_eq_true_eq.mp hholds : q = .holding .read) ▸ hq)
    · by_contra htrue
      have hone := hinv.writers
      rw [Bool.eq_true_of_not_eq_false htrue, if_pos rfl] at hone
      obtain ⟨q, hq, hholds⟩ := List.countP_pos_iff.mp (hone ▸ Nat.one_pos)
      exact hwrite ((decide_eq_true_eq.mp hholds : q = .holding .write) ▸ hq)

/-- A writer and then a second reader come while thread 0 reads; thread 0 leaves. -/
def handover : List Act :=
  [.call 0 .read, .enter 0, .call 1 .write, .enter 1, .call 2 .read, .enter 2, .release 0 1]

/-- At the end of this run the lock is free, the reader sleeps and the writer has been notified. -/
theorem readWriteLock_correct_handover :
    run step (start 3) handover
      = some ⟨⟨0, 1, false⟩, [.outside, .woken .write, .asleep .read]⟩ ∧
    ∃ p ∈ [Phase.outside, .woken .write, .asleep .read], ∃ m,
      Phase.Awake m p ∧ (⟨0, 1, false⟩ : ReadWriteLock).ready m = true :=
  ⟨by decide,
    (readWriteLock_correct 3 handover ⟨⟨0, 1, false⟩, [.outside, .woken .write, .asleep .read]⟩
      (by decide)).2.2 (by decide) (by decide)
      ⟨.asleep .read, by decide, .read, .inl rfl⟩⟩

end ReadersWritersLocks
