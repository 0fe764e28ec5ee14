/-
# The scheduler for delayed tasks

Model of `concurrency/TaskScheduler_single_execution.cpp`.  `schedule` computes the time at which a
task is to be executed and pushes the task into a heap; workers take tasks when their time has come
and execute them outside the mutex.  `shutDown` sets `stop` and joins the workers, which return
when the heap is empty.

The clock goes on between the moves of the threads by any amount.  A call of `schedule` reads it
before it enters its critical section, so that the two are separate moves.  Tasks carry the number
of the call that made them, workers remember when they dequeued a task, and the state remembers
which tasks were scheduled and executed.

Result: no task is dequeued early or executed twice, and when all workers have returned every task
has been executed.
-/
import SystemsDesign.EventLog
import SystemsDesign.TimedPool

namespace TaskSchedulers

open EventLog TimedPool TransitionSystem WorkerPool

variable {F : Type*}

/-! ## The scheduler -/

/-- `Task`, with the number of the call of `schedule`. -/
structure Task (F : Type*) where
  number : ℕ
  func : F
  executeAt : ℤ
  deriving DecidableEq

/-- A task that a worker has dequeued, and when. -/
structure Dequeued (F : Type*) where
  task : Task F
  time : ℤ
  deriving DecidableEq

/-- The clock, the calls of `schedule` that have yet to push their task, the heap with `stop` and
the workers, and the tasks scheduled and executed so far. -/
structure State (F : Type*) where
  clock : ℤ
  calls : List (Task F)
  pool : Pool (Task F) (Timed (Dequeued F))
  scheduled : List (Task F)
  executed : List (Dequeued F)
  deriving DecidableEq

/-- The constructor, at the time `clock`. -/
def start (numThreads : ℕ) (clock : ℤ) : State F where
  clock := clock
  calls := []
  pool := .start numThreads
  scheduled := []
  executed := []

/-- Who moves. -/
inductive Act (F : Type*) where
  /-- The clock goes on. -/
  | tick (duration : ℕ)
  /-- A call of `schedule` computes the time of its task. -/
  | schedule (func : F) (delayInMillisecond : ℤ)
  /-- The call at position `j` pushes its task. -/
  | push (j : ℕ)
  /-- `shutDown` up to the joins. -/
  | shutDown
  /-- The turn of worker `w`, with the top of the heap at position `i`. -/
  | work (w i : ℕ)
  deriving DecidableEq

/-- The heap is ordered by `executeAt`. -/
def due (t : Task F) : ℤ := t.executeAt

/-- A worker that has dequeued a task executes it next. -/
def toExecute (clock : ℤ) (t : Task F) : Worker (Timed (Dequeued F)) := .busy (.working ⟨t, clock⟩)

/-- The turn of worker `w`: it executes the task it has dequeued, or looks at the heap. -/
def work (s : State F) (w i : ℕ) : Option (State F) :=
  match s.pool.workers[w]? with
  | some (.busy (.working d)) =>
    some { s with
      pool := s.pool.goto w .waiting
      executed := s.executed ++ [d] }
  | _ => (turn due s.pool s.clock w i (toExecute s.clock)).map fun pool => { s with pool }

/-- One move. -/
def step (s : State F) : Act F → Option (State F)
  | .tick duration => some { s with clock := s.clock + duration }
  -- `schedule` reads the clock before it takes the mutex
  | .schedule func delay =>
    let t : Task F := ⟨s.scheduled.length, func, s.clock + delay⟩
    some { s with
      calls := s.calls ++ [t]
      scheduled := s.scheduled ++ [t] }
  | .push j =>
    (s.calls[j]?).map fun t =>
      { s with
        calls := s.calls.eraseIdx j
        pool := s.pool.push t }
  | .shutDown => some { s with pool := s.pool.halt }
  | .work w i => work s w i

/-- Calls of `schedule` are made, and have returned, before `shutDown` is called. -/
def CallsBefore (s : State F) : Act F → Prop
  | .schedule _ _ => s.pool.stop = false
  | .shutDown => s.calls = []
  | _ => True

instance [DecidableEq F] (s : State F) (a : Act F) : Decidable (CallsBefore s a) := by
  cases a <;> unfold CallsBefore <;> infer_instance

/-- The task that a move puts into the heap. -/
def pushed (s : State F) : Act F → Option (Task F)
  | .push j => s.calls[j]?
  | _ => none

/-- What a move can be. -/
inductive Step (s : State F) : Act F → State F → Prop where
  | tick (duration : ℕ) : Step s (.tick duration) { s with clock := s.clock + duration }
  | schedule (func : F) (delay : ℤ) : Step s (.schedule func delay)
      { s with
        calls := s.calls ++ [⟨s.scheduled.length, func, s.clock + delay⟩]
        scheduled := s.scheduled ++ [⟨s.scheduled.length, func, s.clock + delay⟩] }
  | push {j : ℕ} {t : Task F} (hj : s.calls[j]? = some t) : Step s (.push j)
      { s with calls := s.calls.eraseIdx j, pool := s.pool.push t }
  | shutDown : Step s .shutDown { s with pool := s.pool.halt }
  | execute {w i : ℕ} {d : Dequeued F} (hw : s.pool.workers[w]? = some (.busy (.working d))) :
      Step s (.work w i) { s with pool := s.pool.goto w .waiting, executed := s.executed ++ [d] }
  | turn {w i : ℕ} {pool : Pool (Task F) (Timed (Dequeued F))}
      (ht : Turn due s.pool s.clock w i (toExecute s.clock) pool) :
      Step s (.work w i) { s with pool }

/-- Every enabled move is one of these. -/
theorem step_spec {s s' : State F} {a : Act F} (h : step s a = some s') : Step s a s' := by
  cases a with
  | tick duration =>
    obtain rfl := Option.some.inj h
    exact .tick duration
  | schedule func delay =>
    obtain rfl := Option.some.inj h
    exact .schedule func delay
  | push j =>
    obtain ⟨t, hj, rfl⟩ := Option.map_eq_some_iff.mp h
    exact .push hj
  | shutDown =>
    obtain rfl := Option.some.inj h
    exact .shutDown
  | work w i =>
    simp only [step, work] at h
    split at h
    next d hw =>
      obtain rfl := Option.some.inj h
      exact .execute hw
    next =>
      obtain ⟨pool, hpool, rfl⟩ := Option.map_eq_some_iff.mp h
      exact .turn (turn_spec hpool)

/-! ## The invariant -/

/-- The task in the hands of a worker. -/
def inHands : Timed (Dequeued F) → Multiset (Task F)
  | .sleeping _ => 0
  | .working d => {d.task}

/-- The tasks in the heap and in the hands of workers. -/
def pending (s : State F) : Multiset (Task F) := s.pool.account (fun t => t) inHands

/-- The functions that clients have scheduled. -/
def funcsOf (as : List (Act F)) : List F :=
  as.filterMap fun | .schedule func _ => some func | _ => none

/-- The invariant, for the moves made so far: every task scheduled is on its way into the heap,
pending or executed, and was dequeued when it was due. -/
structure Inv (done : List (Act F)) (s : State F) : Prop where
  alive : s.pool.Alive
  calls : s.pool.stop = true → s.calls = []
  account : (s.calls : Multiset (Task F)) + pending s + s.executed.map Dequeued.task = s.scheduled
  numbers : s.scheduled.map Task.number = List.range s.scheduled.length
  funcs : s.scheduled.map Task.func = funcsOf done
  inTime : ∀ d, .busy (.working d) ∈ s.pool.workers → d.task.executeAt ≤ d.time
  executedInTime : ∀ d ∈ s.executed, d.task.executeAt ≤ d.time

section Steps

variable {done : List (Act F)} {s s' : State F} {a : Act F}

/-- Only a call of `schedule` adds a function. -/
theorem funcsOf_concat_of_ne (ha : ∀ func delay, a ≠ .schedule func delay) :
    funcsOf (done ++ [a]) = funcsOf done := by
  unfold funcsOf
  rw [List.filterMap_append]
  cases a with
  | schedule func delay => exact absurd rfl (ha func delay)
  | _ => simp

/-- A call of `schedule` computes the time of its task. -/
theorem Inv.schedule (h : Inv done s) (hstop : s.pool.stop = false) (func : F) (delay : ℤ) :
    Inv (done ++ [.schedule func delay])
      { s with
        calls := s.calls ++ [⟨s.scheduled.length, func, s.clock + delay⟩]
        scheduled := s.scheduled ++ [⟨s.scheduled.length, func, s.clock + delay⟩] } where
  alive := h.alive
  calls htrue := absurd (hstop.symm.trans htrue) Bool.noConfusion
  account := by
    rw [← Multiset.coe_add, ← Multiset.coe_add, ← h.account]
    show _ + _ + pending s + _ = _
    abel
  numbers := by
    rw [List.map_append, h.numbers, List.length_append, List.length_singleton, List.range_succ]
    rfl
  funcs := by
    rw [List.map_append, h.funcs]
    simp [funcsOf]
  inTime := h.inTime
  executedInTime := h.executedInTime

/-- A call of `schedule` pushes its task. -/
theorem Inv.push (h : Inv done s) {j : ℕ} {t : Task F} (hj : s.calls[j]? = some t) :
    Inv (done ++ [.push j]) { s with calls := s.calls.eraseIdx j, pool := s.pool.push t } where
  alive := by
    refine h.alive.move (.submit t (Bool.eq_false_of_not_eq_true fun hstop => ?_))
    rw [h.calls hstop] at hj
    simp at hj
  calls hstop := by
    rw [h.calls hstop]
    rfl
  account := by
    have hpending : pending { s with calls := s.calls.eraseIdx j, pool := s.pool.push t }
        = pending s + {t} := Pool.account_push _ _ _ _
    rw [hpending, ← h.account, ← ThreadList.coe_eraseIdx_add hj]
    abel
  numbers := h.numbers
  funcs := h.funcs.trans (funcsOf_concat_of_ne (by simp)).symm
  inTime := h.inTime
  executedInTime := h.executedInTime

theorem Inv.execute (h : Inv done s) {w i : ℕ} {d : Dequeued F}
    (hw : s.pool.workers[w]? = some (.busy (.working d))) :
    Inv (done ++ [.work w i])
      { s with pool := s.pool.goto w .waiting, executed := s.executed ++ [d] } where
  alive := h.alive.move (.goto hw (by simp))
  calls := h.calls
  account := by
    have hpending : pending { s with pool := s.pool.goto w .waiting, executed := s.executed ++ [d] }
        + {d.task} = pending s := Pool.account_finish hw
    rw [List.map_append, ← Multiset.coe_add, ← h.account, ← hpending]
    show _ + _ + (_ + {d.task}) = _
    abel
  numbers := h.numbers
  funcs := h.funcs.trans (funcsOf_concat_of_ne (by simp)).symm
  inTime e hmem := h.inTime e (ThreadList.mem_of_mem_set hmem (by simp))
  executedInTime e he := by
    rcases List.mem_append.mp he with he | he
    · exact h.executedInTime e he
    · rw [List.mem_singleton.mp he]
      exact h.inTime d (List.mem_of_getElem? hw)

theorem Inv.turn (h : Inv done s) {w i : ℕ} {pool : Pool (Task F) (Timed (Dequeued F))}
    (ht : Turn due s.pool s.clock w i (toExecute s.clock) pool) :
    Inv (done ++ [.work w i]) { s with pool } := by
  have hpending : pending { s with pool } = pending s := by
    have hsleep : ∀ deadline, inHands (.sleeping deadline : Timed (Dequeued F)) = 0 := fun _ => rfl
    rcases ht.untouched_or_take hsleep with ⟨hqueue, hhands⟩ | ⟨t, hw, hx, rfl⟩
    · exact Pool.account_congr hqueue hhands
    · exact Pool.account_hold hx hw rfl
  refine ⟨h.alive.move (ht.move (by simp [toExecute])),
    fun htrue => h.calls (ht.stop_eq.symm.trans htrue), ?_,
    h.numbers, h.funcs.trans (funcsOf_concat_of_ne (by simp)).symm, fun d hmem => ?_,
    h.executedInTime⟩
  · rw [hpending]
    exact h.account
  · cases ht with
    | leave hw hstop hempty => exact h.inTime d (ThreadList.mem_of_mem_set hmem (by simp))
    | again hw => exact h.inTime d hmem
    | sleep hw hx htop => exact h.inTime d (ThreadList.mem_of_mem_set hmem (by simp))
    | @take x hw hx hdue =>
      rcases List.mem_or_eq_of_mem_set hmem with hmem | heq
      · exact h.inTime d hmem
      · obtain rfl : d = ⟨x, s.clock⟩ := by simpa [toExecute] using heq
        exact hdue
    | wake hw => exact h.inTime d (ThreadList.mem_of_mem_set hmem (by simp))

/-- **Every move keeps the invariant.** -/
theorem Inv.step (h : Inv done s) (hcalls : CallsBefore s a) (hs : Step s a s') :
    Inv (done ++ [a]) s' := by
  cases hs with
  | tick duration => exact { h with funcs := h.funcs.trans (funcsOf_concat_of_ne (by simp)).symm }
  | schedule func delay => exact h.schedule hcalls func delay
  | push hj => exact h.push hj
  | shutDown =>
    exact { h with
      alive := h.alive.move .halt
      calls := fun _ => hcalls
      funcs := h.funcs.trans (funcsOf_concat_of_ne (by simp)).symm }
  | execute hw => exact h.execute hw
  | turn ht => exact h.turn ht

end Steps

theorem inv_start {n : ℕ} (hn : 0 < n) (clock : ℤ) : Inv [] (start n clock : State F) where
  alive := Pool.alive_start hn
  calls _ := rfl
  account := by simp [pending, start]
  numbers := rfl
  funcs := rfl
  inTime := by simp [start, Pool.start, List.mem_replicate]
  executedInTime := by simp [start]

/-! ## Result -/

/-- **Every task is executed once and not early.**  For every number of workers, every clock and
every run in which `schedule` is called before `shutDown`: tasks are dequeued when they are due; no
task is executed twice, and none that was not scheduled; and when all workers have returned, the
tasks executed are those of all calls of `schedule`. -/
theorem scheduler_exact (n : ℕ) (hn : 0 < n) (clock : ℤ) (as : List (Act F)) (s : State F)
    (hrun : run step (start n clock) as = some s)
    (hcalls : Along step CallsBefore (start n clock) as) :
    (∀ d, .busy (.working d) ∈ s.pool.workers ∨ d ∈ s.executed → d.task.executeAt ≤ d.time) ∧
    (s.executed.map fun d => d.task.number).Nodup ∧
    (∀ d ∈ s.executed, d.task ∈ s.scheduled) ∧
    s.scheduled.map Task.func = funcsOf as ∧
    s.scheduled.map Task.number = List.range (funcsOf as).length ∧
    (s.pool.Joined → (s.executed.map Dequeued.task).Perm s.scheduled) := by
  have hinv : Inv as s :=
    run_history (fun _ _ _ _ hs hP hst => hs.step hP (step_spec hst)) (inv_start hn clock)
      hcalls hrun
  have hlength : s.scheduled.length = (funcsOf as).length := by
    rw [← hinv.funcs, List.length_map]
  -- what has been executed is part of what was scheduled, with multiplicity
  have hle : ((s.executed.map Dequeued.task : List (Task F)) : Multiset (Task F))
      ≤ s.scheduled := by
    rw [← hinv.account]
    exact Multiset.le_add_left _ _
  refine ⟨?_, ?_, fun d hd => ?_, hinv.funcs, hlength ▸ hinv.numbers, fun hjoined => ?_⟩
  · rintro d (hd | hd)
    · exact hinv.inTime d hd
    · exact hinv.executedInTime d hd
  · have hnodup : (s.scheduled.map Task.number).Nodup := by
      rw [hinv.numbers]
      exact List.nodup_range
    have hmap := Multiset.map_le_map (f := Task.number) hle
    rw [Multiset.map_coe, Multiset.map_coe, List.map_map] at hmap
    exact Multiset.coe_nodup.mp (Multiset.nodup_of_le hmap (Multiset.coe_nodup.mpr hnodup))
  · exact Multiset.mem_of_le hle (by simpa using ⟨d, hd, rfl⟩)
  · have hnone : pending s = 0 := hinv.alive.settled hjoined
    have haccount := hinv.account
    rw [hinv.calls (hinv.alive.drained hjoined).2, hnone] at haccount
    exact Multiset.coe_eq_coe.mp (by simpa using haccount)

/-- Two tasks, the second of which is due later than `shutDown`, with one worker. -/
def delayed : List (Act ℕ) :=
  [.schedule 7 10, .push 0, .schedule 8 20, .push 0, .work 0 0, .tick 10, .work 0 0, .work 0 0,
    .shutDown, .work 0 0, .work 0 0, .tick 15, .work 0 0, .work 0 0, .work 0 0]

theorem scheduler_exact_delayed : ∃ s : State ℕ,
    run step (start 1 0) delayed = some s ∧
    s.executed = [⟨⟨0, 7, 10⟩, 10⟩, ⟨⟨1, 8, 20⟩, 25⟩] ∧
    (s.executed.map Dequeued.task).Perm s.scheduled :=
  ⟨_, rfl, by decide,
    (scheduler_exact 1 (by decide) 0 delayed _ rfl (by decide)).2.2.2.2.2 (by decide)⟩

end TaskSchedulers
