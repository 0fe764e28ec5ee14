/-
# When the workers of the schedulers wake up

Both schedulers (`concurrency/TaskScheduler_single_execution.cpp` and
`concurrency/TaskScheduler_periodic_execution.cpp`) let a worker sleep until the time of the task on
top of the heap, in a `wait_until` whose condition is only `stop`.  The notification that follows a
push does not end that wait.

So no worker oversleeps a task exactly in those runs in which no task is put into the heap that is
due before the end of some worker's sleep.
-/
import SystemsDesign.PeriodicScheduler
import SystemsDesign.TaskScheduler

open TimedPool TransitionSystem WorkerPool

/-! ## The scheduler for single tasks -/

namespace TaskSchedulers

variable {F : Type*} {s s' : State F} {a : Act F}

/-- The condition that no worker sleeps past the time of a task that is put into the heap. -/
def InOrder (s : State F) (a : Act F) : Prop := NoneMissed due s.pool (pushed s a)

/-- **A move keeps the workers punctual exactly if it is in order.** -/
theorem punctual_step_iff (h : Punctual due s.pool) (hs : Step s a s') :
    Punctual due s'.pool ↔ InOrder s a := by
  cases hs with
  | tick duration => exact iff_of_true h (noneMissed_of_eq_none rfl)
  | schedule func delay => exact iff_of_true h (noneMissed_of_eq_none rfl)
  | @push j t hj =>
    exact (punctual_push h t).trans (noneMissed_iff hj).symm
  | shutDown => exact iff_of_true (punctual_halt s.pool) (noneMissed_of_eq_none rfl)
  | execute hw => exact iff_of_true (h.goto (by simp)) (noneMissed_of_eq_none rfl)
  | turn ht => exact iff_of_true (h.turn (by simp [toExecute]) ht) (noneMissed_of_eq_none rfl)

theorem pushed_of_stuck (h : step s a = none) : pushed s a = none := by
  cases a with
  | push j => simpa [step, pushed] using h
  | _ => rfl

theorem always_punctual_iff (n : ℕ) (clock : ℤ) (as : List (Act F)) :
    Always step (fun s => Punctual due s.pool) (start n clock) as
      ↔ Along step InOrder (start n clock) as :=
  always_iff_along (I := fun _ => True) (fun _ _ _ _ _ _ _ => trivial)
    (fun _ _ _ _ h hst => punctual_step_iff h (step_spec hst))
    (fun _ _ _ _ hst => noneMissed_of_eq_none (pushed_of_stuck hst)) trivial (punctual_start n)

end TaskSchedulers

/-! ## The scheduler for periodic tasks -/

namespace PeriodicSchedulers

variable {F : Type*} {s s' : State F} {a : Act F}

/-- The condition that no worker sleeps past the time of a task that is put into the heap, by
`schedule` or by a worker that puts a periodic task back. -/
def InOrder (s : State F) (a : Act F) : Prop := NoneMissed due s.pool (pushed s a)

theorem pushed_of_turn {w i : ℕ} {pool : Pool (Task F) (Timed (Hand F))}
    (ht : Turn due s.pool s.clock w i (dispatch s.cancelledTasks) pool) :
    pushed s (.work w i) = none := by
  cases ht <;> simp [pushed, *]

theorem punctual_proceed_iff (h : Punctual due s.pool) {j : ℕ} {c : Call F}
    (hj : s.calls[j]? = some c) :
    Punctual due (proceed s j c).pool ↔ InOrder s (.call j) := by
  cases c with
  | numbering taskId r => exact iff_of_true h (noneMissed_of_eq_none (by simp [pushed, hj]))
  | numbered taskId r => exact iff_of_true h (noneMissed_of_eq_none (by simp [pushed, hj]))
  | pushing t =>
    have hpushed : pushed s (.call j) = some t := by simp [pushed, hj]
    exact (punctual_push h t).trans (noneMissed_iff hpushed).symm

theorem punctual_handle_iff (h : Punctual due s.pool) {w i : ℕ} {k : Hand F}
    (hw : s.pool.workers[w]? = some (.busy (.working k))) :
    Punctual due (handle s w k).pool ↔ InOrder s (.work w i) := by
  cases k with
  | dequeued t =>
    exact iff_of_true (h.goto (by simp)) (noneMissed_of_eq_none (by simp [pushed, hw]))
  | executed t =>
    refine iff_of_true (h.goto fun deadline => ?_) (noneMissed_of_eq_none (by simp [pushed, hw]))
    unfold afterwards
    split_ifs <;> simp
  | again t => exact iff_of_true (h.goto (by simp)) (noneMissed_of_eq_none (by simp [pushed, hw]))
  | inserting t =>
    have hpushed : pushed s (.work w i) = some t := by simp [pushed, hw]
    have hw' : (s.pool.push t).workers[w]? = some (.busy (.working (.inserting t))) := hw
    -- the worker itself was not asleep, so that only the new task matters
    calc Punctual due ((s.pool.push t).goto w .waiting)
      ↔ Punctual due (s.pool.push t) := punctual_goto_iff hw' (by simp) (by simp)
      _ ↔ NotMissed due s.pool t := punctual_push h t
      _ ↔ InOrder s (.work w i) := (noneMissed_iff hpushed).symm

/-- **A move keeps the workers punctual exactly if it is in order.** -/
theorem punctual_step_iff (h : Punctual due s.pool) (hs : Step s a s') :
    Punctual due s'.pool ↔ InOrder s a := by
  cases hs with
  | tick duration => exact iff_of_true h (noneMissed_of_eq_none rfl)
  | schedule r => exact iff_of_true h (noneMissed_of_eq_none rfl)
  | call hj => exact punctual_proceed_iff h hj
  | cancelTask taskId => exact iff_of_true h (noneMissed_of_eq_none rfl)
  | shutDown => exact iff_of_true (punctual_halt s.pool) (noneMissed_of_eq_none rfl)
  | handle hw => exact punctual_handle_iff h hw
  | turn ht =>
    refine iff_of_true (h.turn (fun t deadline => ?_) ht)
      (noneMissed_of_eq_none (pushed_of_turn ht))
    unfold dispatch
    split_ifs <;> simp

/-- A move that is not enabled puts nothing into the heap. -/
theorem pushed_of_stuck (h : step s a = none) : pushed s a = none := by
  cases a with
  | call j =>
    have hj : s.calls[j]? = none := Option.map_eq_none_iff.mp h
    simp [pushed, hj]
  | work w i =>
    simp only [step] at h
    split at h
    next => cases h
    next hw =>
      simp only [pushed]
      split
      next t hw' => exact absurd hw' (hw _)
      next => rfl
  | _ => rfl

/-- The workers are punctual in the runs whose moves are in order, and in no others. -/
theorem always_punctual_iff (n : ℕ) (clock : ℤ) (as : List (Act F)) :
    Always step (fun s => Punctual due s.pool) (start n clock) as
      ↔ Along step InOrder (start n clock) as :=
  always_iff_along (I := fun _ => True) (fun _ _ _ _ _ _ _ => trivial)
    (fun _ _ _ _ h hst => punctual_step_iff h (step_spec hst))
    (fun _ _ _ _ hst => noneMissed_of_eq_none (pushed_of_stuck hst)) trivial (punctual_start n)

end PeriodicSchedulers

/-! ## Result -/

namespace SchedulerDeadlines

/-- **When no worker oversleeps.**  For every number of workers, every clock and every run, of
either scheduler: in all states passed before `shutDown` every sleeping worker wakes up no later
than the first task in the heap is due, if and only if no task is put into the heap that is due
before some sleeping worker wakes up. -/
theorem deadlines_punctual_iff {F : Type*} (n : ℕ) (clock : ℤ) :
    (∀ as : List (TaskSchedulers.Act F),
      Always TaskSchedulers.step (fun s => Punctual TaskSchedulers.due s.pool)
          (TaskSchedulers.start n clock) as
        ↔ Along TaskSchedulers.step TaskSchedulers.InOrder (TaskSchedulers.start n clock) as) ∧
    ∀ as : List (PeriodicSchedulers.Act F),
      Always PeriodicSchedulers.step (fun s => Punctual PeriodicSchedulers.due s.pool)
          (PeriodicSchedulers.start n clock) as
        ↔ Along PeriodicSchedulers.step PeriodicSchedulers.InOrder
          (PeriodicSchedulers.start n clock) as :=
  ⟨TaskSchedulers.always_punctual_iff n clock, PeriodicSchedulers.always_punctual_iff n clock⟩

/-- A task due in three seconds, for which the only worker goes to sleep, then one due in one
second; two seconds pass. -/
def earlier : List (TaskSchedulers.Act ℕ) :=
  [.schedule 7 3000, .push 0, .work 0 0, .schedule 8 1000, .push 0, .tick 2000]

/-- The same calls of the scheduler for periodic tasks. -/
def earlierPeriodic : List (PeriodicSchedulers.Act ℕ) :=
  [.schedule ⟨7, 3000, false, 0⟩, .call 0, .call 0, .call 0, .work 0 0,
    .schedule ⟨8, 1000, false, 0⟩, .call 0, .call 0, .call 0, .tick 2000]

/-- In both schedulers the worker sleeps on, and the task that is due is not executed. -/
theorem workers_oversleep :
    (∃ s : TaskSchedulers.State ℕ,
      run TaskSchedulers.step (TaskSchedulers.start 1 0) earlier = some s ∧ s.clock = 2000 ∧
      s.pool.queue.map TaskSchedulers.due = [3000, 1000] ∧ s.pool.stop = false ∧
      s.pool.workers = [.busy (.sleeping 3000)] ∧ ¬Punctual TaskSchedulers.due s.pool ∧
      ∀ i, TaskSchedulers.step s (.work 0 i) = none) ∧
    ∃ s : PeriodicSchedulers.State ℕ,
      run PeriodicSchedulers.step (PeriodicSchedulers.start 1 0) earlierPeriodic = some s ∧
      s.clock = 2000 ∧ s.pool.queue.map PeriodicSchedulers.due = [3000, 1000] ∧
      s.pool.stop = false ∧ s.pool.workers = [.busy (.sleeping 3000)] ∧
      ¬Punctual PeriodicSchedulers.due s.pool ∧
      ∀ i, PeriodicSchedulers.step s (.work 0 i) = none := by
  refine ⟨⟨_, rfl, by decide, by decide, by decide, by decide, fun h => ?_, fun i => rfl⟩,
    ⟨_, rfl, by decide, by decide, by decide, by decide, fun h => ?_, fun i => rfl⟩⟩
  · exact absurd (h rfl 3000 (by decide) ⟨1, 8, 1000⟩ (by decide)) (by decide)
  · exact absurd (h rfl 3000 (by decide) ⟨2, 8, 1000, false, 0⟩ (by decide)) (by decide)

end SchedulerDeadlines
