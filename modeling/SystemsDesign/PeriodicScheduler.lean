/-
# The scheduler for periodic tasks

Model of `concurrency/TaskScheduler_periodic_execution.cpp`.  Tasks are numbered by `schedule`, may
be cancelled by their number, and a periodic task is put back into the heap after each execution.

A cancelled task is dropped when it is dequeued (under the mutex); before a periodic task is put
back the cancellations are looked at again (without the mutex).  The increment of `next_task_id`
in `schedule` is not guarded either, so that reading and writing it are two moves, and so are
reading the clock and pushing the task.  The state remembers the numbers of the tasks whose
execution has begun.

Results: if one client calls `schedule`, there is never more than one instance of a task, and after
`cancelTask` at most one more execution of the task begins.  After `shutDown` at most as many
executions begin as there are tasks, provided that the tasks which are put into the heap from then
on are cancelled ones; without that, a periodic task goes on.
-/
import SystemsDesign.TimedPool
import SystemsDesign.TransitionSystem

namespace PeriodicSchedulers

open ThreadList TimedPool TransitionSystem WorkerPool

variable {F : Type*}

/-! ## The scheduler -/

/-- `Task`. -/
structure Task (F : Type*) where
  taskId : ℤ
  func : F
  executeAt : ℤ
  periodic : Bool := false
  intervalMilliseconds : ℤ := 0
  deriving DecidableEq

/-- The arguments of `schedule`. -/
structure Request (F : Type*) where
  func : F
  delayInMillisecond : ℤ
  periodic : Bool := false
  intervalMilliseconds : ℤ := 0
  deriving DecidableEq

/-- Where a call of `schedule` is: it has read `next_task_id`, has written it back, or has read the
clock and made its task. -/
inductive Call (F : Type*) where
  | numbering (taskId : ℤ) (r : Request F)
  | numbered (taskId : ℤ) (r : Request F)
  | pushing (t : Task F)
  deriving DecidableEq

/-- What a worker does with a task: it has dequeued it, has executed it, is about to compute its
next time, or to put it back. -/
inductive Hand (F : Type*) where
  | dequeued (t : Task F)
  | executed (t : Task F)
  | again (t : Task F)
  | inserting (t : Task F)
  deriving DecidableEq

/-- The clock, the data members of `TaskScheduler` (the heap with `stop` and the workers is the
pool), the calls of `schedule` under way, and the executions begun. -/
structure State (F : Type*) where
  clock : ℤ
  nextTaskId : ℤ
  cancelledTasks : Finset ℤ
  calls : List (Call F)
  pool : Pool (Task F) (Timed (Hand F))
  started : List ℤ
  deriving DecidableEq

/-- The constructor, at the time `clock`. -/
def start (numThreads : ℕ) (clock : ℤ) : State F where
  clock := clock
  nextTaskId := 1
  cancelledTasks := ∅
  calls := []
  pool := .start numThreads
  started := []

/-- Who moves. -/
inductive Act (F : Type*) where
  /-- The clock goes on. -/
  | tick (duration : ℕ)
  /-- A client calls `schedule`. -/
  | schedule (r : Request F)
  /-- The call of `schedule` at position `j` goes on. -/
  | call (j : ℕ)
  /-- A client calls `cancelTask`. -/
  | cancelTask (taskId : ℤ)
  /-- `shutDown` up to the joins. -/
  | shutDown
  /-- The turn of worker `w`, with the top of the heap at position `i`. -/
  | work (w i : ℕ)
  deriving DecidableEq

/-- The heap is ordered by `executeAt`. -/
def due (t : Task F) : ℤ := t.executeAt

/-- A worker drops a cancelled task that it has dequeued, and goes on with any other. -/
def dispatch (cancelledTasks : Finset ℤ) (t : Task F) : Worker (Timed (Hand F)) :=
  if t.taskId ∈ cancelledTasks then .waiting else .busy (.working (.dequeued t))

/-- A worker puts a periodic task back after its execution, unless it is cancelled by then. -/
def afterwards (cancelledTasks : Finset ℤ) (t : Task F) : Worker (Timed (Hand F)) :=
  if t.periodic ∧ t.taskId ∉ cancelledTasks then .busy (.working (.again t)) else .waiting

/-- A periodic task is due again one interval later. -/
def Task.next (t : Task F) (clock : ℤ) : Task F :=
  { t with executeAt := clock + t.intervalMilliseconds }

/-- The task of a request. -/
def Request.task (r : Request F) (taskId clock : ℤ) : Task F where
  taskId := taskId
  func := r.func
  executeAt := clock + r.delayInMillisecond
  periodic := r.periodic
  intervalMilliseconds := r.intervalMilliseconds

/-- The rest of `schedule`, move by move. -/
def proceed (s : State F) (j : ℕ) : Call F → State F
  -- what is written back is one more than what was read, whatever others have written since
  | .numbering taskId r =>
    { s with nextTaskId := taskId + 1, calls := s.calls.set j (.numbered taskId r) }
  | .numbered taskId r => { s with calls := s.calls.set j (.pushing (r.task taskId s.clock)) }
  | .pushing t => { s with calls := s.calls.eraseIdx j, pool := s.pool.push t }

/-- The turn of a worker that has a task. -/
def handle (s : State F) (w : ℕ) : Hand F → State F
  | .dequeued t =>
    { s with
      pool := s.pool.goto w (.busy (.working (.executed t)))
      started := s.started ++ [t.taskId] }
  -- the cancellations are read without the mutex, and `stop` is not read at all
  | .executed t => { s with pool := s.pool.goto w (afterwards s.cancelledTasks t) }
  | .again t => { s with pool := s.pool.goto w (.busy (.working (.inserting (t.next s.clock)))) }
  | .inserting t => { s with pool := (s.pool.push t).goto w .waiting }

/-- One move. -/
def step (s : State F) : Act F → Option (State F)
  | .tick duration => some { s with clock := s.clock + duration }
  | .schedule r => some { s with calls := s.calls ++ [.numbering s.nextTaskId r] }
  | .call j => (s.calls[j]?).map (proceed s j)
  | .cancelTask taskId => some { s with cancelledTasks := insert taskId s.cancelledTasks }
  | .shutDown => some { s with pool := s.pool.halt }
  | .work w i =>
    match s.pool.workers[w]? with
    | some (.busy (.working k)) => some (handle s w k)
    | _ => (turn due s.pool s.clock w i (dispatch s.cancelledTasks)).map fun pool => { s with pool }

/-- The task that a move puts into the heap. -/
def pushed (s : State F) : Act F → Option (Task F)
  | .call j => match s.calls[j]? with
    | some (.pushing t) => some t
    | _ => none
  | .work w _ => match s.pool.workers[w]? with
    | some (.busy (.working (.inserting t))) => some t
    | _ => none
  | _ => none

/-- What a move can be. -/
inductive Step (s : State F) : Act F → State F → Prop where
  | tick (duration : ℕ) : Step s (.tick duration) { s with clock := s.clock + duration }
  | schedule (r : Request F) : Step s (.schedule r)
      { s with calls := s.calls ++ [.numbering s.nextTaskId r] }
  | call {j : ℕ} {c : Call F} (hj : s.calls[j]? = some c) : Step s (.call j) (proceed s j c)
  | cancelTask (taskId : ℤ) : Step s (.cancelTask taskId)
      { s with cancelledTasks := insert taskId s.cancelledTasks }
  | shutDown : Step s .shutDown { s with pool := s.pool.halt }
  | handle {w i : ℕ} {k : Hand F} (hw : s.pool.workers[w]? = some (.busy (.working k))) :
      Step s (.work w i) (handle s w k)
  | turn {w i : ℕ} {pool : Pool (Task F) (Timed (Hand F))}
      (ht : Turn due s.pool s.clock w i (dispatch s.cancelledTasks) pool) :
      Step s (.work w i) { s with pool }

theorem step_spec {s s' : State F} {a : Act F} (h : step s a = some s') : Step s a s' := by
  cases a with
  | tick duration =>
    obtain rfl := Option.some.inj h
    exact .tick duration
  | schedule r =>
    obtain rfl := Option.some.inj h
    exact .schedule r
  | call j =>
    obtain ⟨c, hj, rfl⟩ := Option.map_eq_some_iff.mp h
    exact .call hj
  | cancelTask taskId =>
    obtain rfl := Option.some.inj h
    exact .cancelTask taskId
  | shutDown =>
    obtain rfl := Option.some.inj h
    exact .shutDown
  | work w i =>
    simp only [step] at h
    split at h
    next k hw =>
      obtain rfl := Option.some.inj h
      exact .handle hw
    next =>
      obtain ⟨pool, hpool, rfl⟩ := Option.map_eq_some_iff.mp h
      exact .turn (turn_spec hpool)

/-! ## Instances of tasks -/

/-- The task that a worker handles. -/
def Hand.task : Hand F → Task F
  | .dequeued t => t
  | .executed t => t
  | .again t => t
  | .inserting t => t

/-- The number of the task in the hands of a worker. -/
def inHands : Timed (Hand F) → Multiset ℤ
  | .sleeping _ => 0
  | .working k => {k.task.taskId}

/-- The numbers of the tasks in the heap and in the hands of workers. -/
def instances (s : State F) : Multiset ℤ := s.pool.account Task.taskId inHands

section Instances

variable {s : State F} {w i : ℕ} {k : Hand F} {pool : Pool (Task F) (Timed (Hand F))}

/-- A worker that handles a task keeps it, puts it back or drops it. -/
theorem instances_handle (hw : s.pool.workers[w]? = some (.busy (.working k))) :
    instances (handle s w k) ≤ instances s := by
  have hfinish : (s.pool.goto w .waiting).account Task.taskId inHands + {k.task.taskId}
      = instances s := Pool.account_finish hw
  cases k with
  | dequeued t => exact le_of_eq (Pool.account_goto_same hw rfl)
  | executed t =>
    unfold handle afterwards
    dsimp only
    split_ifs
    · exact le_of_eq (Pool.account_goto_same hw rfl)
    · rw [← hfinish]
      exact Multiset.le_add_right _ _
  | again t => exact le_of_eq (Pool.account_goto_same hw rfl)
  | inserting t =>
    refine le_of_eq (Eq.trans ?_ hfinish)
    exact Pool.account_push Task.taskId inHands (s.pool.goto w .waiting) t

/-- A worker that looks at the heap takes a task into its hands or drops it. -/
theorem instances_turn (ht : Turn due s.pool s.clock w i (dispatch s.cancelledTasks) pool) :
    instances { s with pool } ≤ instances s := by
  have hsleep : ∀ deadline, inHands (.sleeping deadline : Timed (Hand F)) = 0 := fun _ => rfl
  rcases ht.untouched_or_take hsleep with ⟨hqueue, hhands⟩ | ⟨t, hw, hx, rfl⟩
  · exact le_of_eq (Pool.account_congr hqueue hhands)
  · unfold dispatch
    split_ifs
    · have hdrop : (s.pool.take i w .waiting).account Task.taskId inHands + {t.taskId}
          = instances s := (Pool.account_take hx hw .waiting).trans (add_zero _)
      rw [← hdrop]
      exact Multiset.le_add_right _ _
    · exact le_of_eq (Pool.account_hold hx hw rfl)

end Instances

/-! ## Executions -/

/-- A worker that has dequeued a task is going to execute it. -/
def beginning : Timed (Hand F) → Multiset ℤ
  | .working (.dequeued t) => {t.taskId}
  | _ => 0

/-- The executions that have begun or are going to. -/
def decided (s : State F) : Multiset ℤ :=
  s.started + total (Pool.inHands beginning) s.pool.workers

section Decided

variable {s s' : State F} {a : Act F} {w i : ℕ}

/-- Tasks that are going to be executed are in the hands of workers. -/
theorem total_beginning_le (s : State F) :
    total (Pool.inHands beginning) s.pool.workers
      ≤ total (Pool.inHands inHands) s.pool.workers := by
  refine total_le (fun c => ?_) _
  cases c with
  | busy k =>
    cases k with
    | sleeping deadline => exact le_rfl
    | working k =>
      cases k with
      | dequeued t => exact le_rfl
      | _ => exact Multiset.zero_le _
  | _ => exact le_rfl

theorem decided_congr {pool : Pool (Task F) (Timed (Hand F))}
    (hhands : total (Pool.inHands beginning) pool.workers
      = total (Pool.inHands beginning) s.pool.workers) : decided { s with pool } = decided s := by
  unfold decided
  rw [hhands]

/-- A worker that goes on from something else than a dequeued task decides nothing. -/
theorem decided_goto {k : Timed (Hand F)} {c : Worker (Timed (Hand F))}
    (hw : s.pool.workers[w]? = some (.busy k)) {pool : Pool (Task F) (Timed (Hand F))}
    (hpool : pool.workers = s.pool.workers.set w c) (hk : beginning k = 0)
    (hc : Pool.inHands beginning c = 0) : decided { s with pool } = decided s := by
  have hset := total_set (Pool.inHands beginning) hw c
  rw [hc, show Pool.inHands beginning (.busy k) = 0 from hk, add_zero, add_zero] at hset
  exact decided_congr (hpool ▸ hset)

/-- Handling a task decides nothing: the execution that begins had been decided. -/
theorem decided_handle {k : Hand F} (hw : s.pool.workers[w]? = some (.busy (.working k))) :
    decided (handle s w k) = decided s := by
  cases k with
  | dequeued t =>
    have hset : total (Pool.inHands beginning)
          (s.pool.workers.set w (.busy (.working (.executed t)))) + {t.taskId}
        = total (Pool.inHands beginning) s.pool.workers :=
      (total_set _ hw (.busy (.working (.executed t)))).trans (add_zero _)
    show ((s.started ++ [t.taskId] : List ℤ) : Multiset ℤ) + _ = _ + _
    rw [← hset, ← Multiset.coe_add, Multiset.coe_singleton]
    abel
  | executed t =>
    apply decided_goto hw rfl rfl
    unfold afterwards
    split_ifs <;> rfl
  | again t => exact decided_goto hw rfl rfl rfl
  | inserting t => exact decided_goto hw rfl rfl rfl

/-- A worker that looks at the heap decides to execute the task it takes, unless that is
cancelled. -/
theorem decided_turn {pool : Pool (Task F) (Timed (Hand F))}
    (ht : Turn due s.pool s.clock w i (dispatch s.cancelledTasks) pool) :
    pool.queue = s.pool.queue ∧ decided { s with pool } = decided s ∨
    ∃ t, s.pool.queue[i]? = some t ∧ pool.queue = s.pool.queue.eraseIdx i ∧
      decided { s with pool }
        = decided s + if t.taskId ∈ s.cancelledTasks then 0 else {t.taskId} := by
  have hsleep : ∀ deadline, beginning (.sleeping deadline : Timed (Hand F)) = 0 := fun _ => rfl
  rcases ht.untouched_or_take hsleep with ⟨hqueue, hhands⟩ | ⟨t, hw, hx, rfl⟩
  · exact .inl ⟨hqueue, decided_congr hhands⟩
  · refine .inr ⟨t, hx, rfl, ?_⟩
    have hset : total (Pool.inHands beginning) (s.pool.workers.set w (dispatch s.cancelledTasks t))
        = total (Pool.inHands beginning) s.pool.workers
          + Pool.inHands beginning (dispatch s.cancelledTasks t) :=
      (add_zero _).symm.trans (total_set _ hw _)
    show _ + total _ (s.pool.workers.set w (dispatch s.cancelledTasks t)) = _ + _ + _
    rw [hset, ← add_assoc]
    unfold dispatch
    split_ifs <;> rfl

theorem decided_proceed (s : State F) (j : ℕ) (c : Call F) :
    decided (proceed s j c) = decided s := by
  cases c <;> rfl

end Decided

/-! ## One client -/

/-- The condition that one client calls `schedule`: no other call is under way. -/
def OneClient (s : State F) : Act F → Prop
  | .schedule _ => s.calls = []
  | _ => True

instance [DecidableEq F] (s : State F) (a : Act F) : Decidable (OneClient s a) := by
  cases a <;> unfold OneClient <;> infer_instance

/-- The number that a call of `schedule` has taken. -/
def Call.number : Call F → Multiset ℤ
  | .numbering _ _ => 0
  | .numbered taskId _ => {taskId}
  | .pushing t => {t.taskId}

/-- The numbers of all tasks, those on their way into the heap included. -/
def numbers (s : State F) : Multiset ℤ := total Call.number s.calls + instances s

/-- With one client every task has a number of its own, below the next one. -/
structure Unique (s : State F) : Prop where
  single : s.calls.length ≤ 1
  fresh : ∀ taskId r, .numbering taskId r ∈ s.calls → taskId = s.nextTaskId
  nodup : (numbers s).Nodup
  below : ∀ taskId ∈ numbers s, taskId < s.nextTaskId

section Unique

variable {s s' : State F} {a : Act F}

theorem Unique.of_le (h : Unique s) (hcalls : s'.calls = s.calls)
    (hnext : s'.nextTaskId = s.nextTaskId) (hle : instances s' ≤ instances s) : Unique s' := by
  have hnumbers : numbers s' ≤ numbers s := by
    unfold numbers
    rw [hcalls]
    exact add_le_add le_rfl hle
  exact {
    single := hcalls ▸ h.single
    fresh := by
      rw [hcalls, hnext]
      exact h.fresh
    nodup := Multiset.nodup_of_le hnumbers h.nodup
    below := fun taskId hmem => hnext ▸ h.below taskId (Multiset.mem_of_le hnumbers hmem) }

/-- The call of `schedule` under way is the only one. -/
theorem Unique.calls_eq (h : Unique s) {j : ℕ} {c : Call F} (hj : s.calls[j]? = some c) :
    j = 0 ∧ s.calls = [c] := by
  have hsingle := h.single
  obtain ⟨hlt, rfl⟩ := List.getElem?_eq_some_iff.mp hj
  obtain rfl : j = 0 := by omega
  obtain ⟨d, hd⟩ := List.length_eq_one_iff.mp (show s.calls.length = 1 by omega)
  exact ⟨rfl, by simp [hd]⟩

theorem numbers_of_calls {c : Call F} (hcalls : s.calls = [c]) :
    numbers s = c.number + instances s := by
  simp [numbers, hcalls]

theorem Unique.proceed (h : Unique s) {j : ℕ} {c : Call F} (hj : s.calls[j]? = some c) :
    Unique (proceed s j c) := by
  obtain ⟨rfl, hcalls⟩ := h.calls_eq hj
  have hnodup := h.nodup
  have hbelow := h.below
  rw [numbers_of_calls hcalls] at hnodup hbelow
  cases c with
  | numbering taskId r =>
    -- the number is the next one, so no task has it yet
    obtain rfl : taskId = s.nextTaskId := h.fresh taskId r (by simp [hcalls])
    have hcalls' : (PeriodicSchedulers.proceed s 0 (.numbering s.nextTaskId r)).calls
        = [.numbered s.nextTaskId r] := by simp [PeriodicSchedulers.proceed, hcalls]
    have hnumbers := numbers_of_calls hcalls'
    rw [show Call.number (.numbering s.nextTaskId r) = 0 from rfl, zero_add] at hnodup hbelow
    refine ⟨by simp [hcalls'], by simp [hcalls'], ?_, fun taskId hmem => ?_⟩
    · rw [hnumbers]
      exact Multiset.nodup_cons.mpr ⟨fun hmem => (hbelow _ hmem).false, hnodup⟩
    · rw [hnumbers] at hmem
      show taskId < s.nextTaskId + 1
      rcases Multiset.mem_cons.mp hmem with rfl | hmem
      · exact lt_add_one _
      · exact (hbelow taskId hmem).trans (lt_add_one _)
  | numbered taskId r =>
    have hcalls' : (PeriodicSchedulers.proceed s 0 (.numbered taskId r)).calls
        = [.pushing (r.task taskId s.clock)] := by simp [PeriodicSchedulers.proceed, hcalls]
    have hnumbers := numbers_of_calls hcalls'
    exact ⟨by simp [hcalls'], by simp [hcalls'], hnumbers ▸ hnodup, hnumbers ▸ hbelow⟩
  | pushing t =>
    have hcalls' : (PeriodicSchedulers.proceed s 0 (.pushing t)).calls = [] := by
      simp [PeriodicSchedulers.proceed, hcalls]
    have hnumbers : numbers (PeriodicSchedulers.proceed s 0 (.pushing t))
        = {t.taskId} + instances s := by
      unfold numbers
      rw [hcalls', total_nil, zero_add, add_comm]
      exact Pool.account_push _ _ _ _
    exact ⟨by simp [hcalls'], by simp [hcalls'], hnumbers ▸ hnodup, hnumbers ▸ hbelow⟩

/-- **Every move keeps the numbers unique.** -/
theorem Unique.step (h : Unique s) (hclient : OneClient s a) (hs : Step s a s') : Unique s' := by
  cases hs with
  | tick duration => exact h.of_le rfl rfl le_rfl
  | schedule r =>
    have hcalls : s.calls = [] := hclient
    have hnumbers : numbers { s with calls := s.calls ++ [.numbering s.nextTaskId r] }
        = numbers s := by
      simp only [numbers, hcalls, List.nil_append, total_cons, total_nil]
      rfl
    refine ⟨by simp [hcalls], fun taskId r' hmem => ?_, hnumbers ▸ h.nodup, hnumbers ▸ h.below⟩
    rw [hcalls, List.nil_append, List.mem_singleton] at hmem
    exact (Call.numbering.inj hmem).1
  | call hj => exact h.proceed hj
  | cancelTask taskId => exact h.of_le rfl rfl le_rfl
  | shutDown => exact h.of_le rfl rfl le_rfl
  | @handle w i k hw =>
    have hcalls : (PeriodicSchedulers.handle s w k).calls = s.calls := by cases k <;> rfl
    have hnext : (PeriodicSchedulers.handle s w k).nextTaskId = s.nextTaskId := by
      cases k <;> rfl
    exact h.of_le hcalls hnext (instances_handle hw)
  | turn ht => exact h.of_le rfl rfl (instances_turn ht)

end Unique

theorem unique_start (n : ℕ) (clock : ℤ) : Unique (start n clock : State F) where
  single := Nat.zero_le _
  fresh := by simp [start]
  nodup := by simp [numbers, instances, start]
  below := by simp [numbers, instances, start]

/-! ## Cancellation -/

section Cancel

variable {s s' : State F} {a : Act F} {taskId : ℤ}

/-- **No execution of a cancelled task is decided.** -/
theorem count_decided_step (hcancelled : taskId ∈ s.cancelledTasks) (hs : Step s a s') :
    taskId ∈ s'.cancelledTasks ∧ (decided s').count taskId = (decided s).count taskId := by
  cases hs with
  | tick duration => exact ⟨hcancelled, rfl⟩
  | schedule r => exact ⟨hcancelled, rfl⟩
  | @call j c hj =>
    refine ⟨?_, by rw [decided_proceed]⟩
    cases c <;> exact hcancelled
  | cancelTask other => exact ⟨Finset.mem_insert_of_mem hcancelled, rfl⟩
  | shutDown => exact ⟨hcancelled, rfl⟩
  | @handle w i k hw =>
    refine ⟨?_, by rw [decided_handle hw]⟩
    cases k <;> exact hcancelled
  | turn ht =>
    refine ⟨hcancelled, ?_⟩
    rcases decided_turn ht with ⟨-, hsame⟩ | ⟨t, -, -, htake⟩
    · rw [hsame]
    · rw [htake, Multiset.count_add]
      split_ifs with ht
      · rfl
      · have hne : taskId ≠ t.taskId := fun heq => ht (heq ▸ hcancelled)
        rw [Multiset.count_singleton, if_neg hne]
        rfl

theorem count_decided_run {as : List (Act F)} (hcancelled : taskId ∈ s.cancelledTasks)
    (hrun : run step s as = some s') : (decided s').count taskId = (decided s).count taskId := by
  have hinv : taskId ∈ s'.cancelledTasks ∧
      (decided s').count taskId = (decided s).count taskId := by
    refine @run_invariant _ _ step
      (fun t => taskId ∈ t.cancelledTasks ∧ (decided t).count taskId = (decided s).count taskId)
      (fun t a t' ht hst => ?_) _ _ _ ⟨hcancelled, rfl⟩ hrun
    obtain ⟨hmem, hsame⟩ := count_decided_step ht.1 (step_spec hst)
    exact ⟨hmem, hsame.trans ht.2⟩
  exact hinv.2

theorem count_started_le (s : State F) (taskId : ℤ) :
    s.started.count taskId ≤ (decided s).count taskId := by
  rw [decided, Multiset.count_add, Multiset.coe_count]
  exact Nat.le_add_right _ _

theorem count_decided_le (s : State F) (taskId : ℤ) :
    (decided s).count taskId ≤ s.started.count taskId + (instances s).count taskId := by
  rw [decided, Multiset.count_add, Multiset.coe_count]
  -- a worker's hands are part of the instances, whatever is in the heap
  have hle : total (Pool.inHands beginning) s.pool.workers ≤ instances s :=
    (total_beginning_le s).trans (Multiset.le_add_left _ _)
  exact Nat.add_le_add_left (Multiset.count_le_of_le taskId hle) _

end Cancel

/-- **One instance, and one more execution.**  For every number of workers, every clock and every
run in which one client calls `schedule`: a task is at most once in the heap and in the hands of
workers; and after `cancelTask` at most one more execution of the task begins, however the run goes
on. -/
theorem cancelTask_effective (n : ℕ) (clock : ℤ) :
    (∀ (as : List (Act F)) (s : State F), run step (start n clock) as = some s →
      Along step OneClient (start n clock) as → ∀ taskId, (instances s).count taskId ≤ 1) ∧
    ∀ (as₁ as₂ : List (Act F)) (taskId : ℤ) (s₁ s₂ s₃ : State F),
      run step (start n clock) as₁ = some s₁ → Along step OneClient (start n clock) as₁ →
      step s₁ (.cancelTask taskId) = some s₂ →
      run step s₂ as₂ = some s₃ →
      s₃.started.count taskId ≤ s₂.started.count taskId + 1 := by
  have hunique : ∀ (as : List (Act F)) (s : State F), run step (start n clock) as = some s →
      Along step OneClient (start n clock) as → ∀ taskId, (instances s).count taskId ≤ 1 := by
    intro as s hrun hclient taskId
    have hinv : Unique s :=
      run_invariant_along (fun _ _ _ hI hP hst => hI.step hP (step_spec hst)) (unique_start n clock)
        hclient hrun
    have hle : instances s ≤ numbers s := Multiset.le_add_left _ _
    exact Multiset.nodup_iff_count_le_one.mp (Multiset.nodup_of_le hle hinv.nodup) taskId
  refine ⟨hunique, fun as₁ as₂ taskId s₁ s₂ s₃ hrun₁ hclient hcancel hrun₂ => ?_⟩
  have hs₂ : s₂ = { s₁ with cancelledTasks := insert taskId s₁.cancelledTasks } :=
    (Option.some.inj hcancel).symm
  have hinstances : (instances s₂).count taskId ≤ 1 := by
    rw [hs₂]
    exact hunique as₁ s₁ hrun₁ hclient taskId
  have hcancelled : taskId ∈ s₂.cancelledTasks := by simp [hs₂]
  calc s₃.started.count taskId ≤ (decided s₃).count taskId := count_started_le s₃ taskId
    _ = (decided s₂).count taskId := count_decided_run hcancelled hrun₂
    _ ≤ s₂.started.count taskId + (instances s₂).count taskId := count_decided_le s₂ taskId
    _ ≤ s₂.started.count taskId + 1 := Nat.add_le_add_left hinstances _

/-- A periodic task, dequeued by the only worker. -/
def heartbeat : List (Act ℕ) :=
  [.schedule ⟨7, 0, true, 10⟩, .call 0, .call 0, .call 0, .work 0 0]

/-- The rest of the run after the cancellation of the task: its execution, and the look at the
heap ten milliseconds later. -/
def heartbeatEnds : List (Act ℕ) := [.work 0 0, .work 0 0, .tick 10]

theorem cancelTask_effective_heartbeat : ∃ s₁ s₂ s₃ : State ℕ,
    run step (start 1 0) heartbeat = some s₁ ∧ step s₁ (.cancelTask 1) = some s₂ ∧
    run step s₂ heartbeatEnds = some s₃ ∧ s₃.started = [1] ∧ instances s₃ = 0 ∧
    s₃.started.count 1 ≤ s₂.started.count 1 + 1 :=
  ⟨_, _, _, rfl, rfl, rfl, by decide, by decide,
    (cancelTask_effective 1 0).2 heartbeat heartbeatEnds 1 _ _ _ rfl (by decide) rfl rfl⟩

/-! ## Shutdown -/

/-- The condition that after `shutDown` only cancelled tasks are put into the heap. -/
def CancelledAfterStop (s : State F) (a : Act F) : Prop :=
  s.pool.stop = true → ∀ t ∈ pushed s a, t.taskId ∈ s.cancelledTasks

instance (s : State F) (a : Act F) : Decidable (CancelledAfterStop s a) := by
  unfold CancelledAfterStop
  infer_instance

/-- The executions that have begun, are going to, or wait in the heap. -/
def ahead (s : State F) : ℕ :=
  (decided s).card + s.pool.queue.countP fun t => t.taskId ∉ s.cancelledTasks

section Shutdown

variable {s s' : State F} {a : Act F}

theorem countP_push (s : State F) {t : Task F} (ht : t.taskId ∈ s.cancelledTasks) :
    (s.pool.push t).queue.countP (fun t => t.taskId ∉ s.cancelledTasks)
      = s.pool.queue.countP fun t => t.taskId ∉ s.cancelledTasks := by
  simp [Pool.push, List.countP_append, ht]

/-- A task that is taken out of the heap is executed unless it is cancelled. -/
theorem countP_take {i : ℕ} {t : Task F} (hi : s.pool.queue[i]? = some t) :
    ((s.pool.queue.eraseIdx i).countP fun t => t.taskId ∉ s.cancelledTasks)
        + (if t.taskId ∈ s.cancelledTasks then (0 : Multiset ℤ) else {t.taskId}).card
      = s.pool.queue.countP fun t => t.taskId ∉ s.cancelledTasks := by
  have hperm := congrArg (Multiset.countP fun t : Task F => t.taskId ∉ s.cancelledTasks)
    (coe_eraseIdx_add hi)
  rw [Multiset.countP_add, Multiset.coe_countP, Multiset.coe_countP] at hperm
  rw [← hperm]
  rw [Multiset.countP_eq_card_filter, Multiset.filter_singleton]
  split_ifs with ht <;> rfl

/-- **Once the stop flag is set, no move adds an execution**, if it puts only cancelled tasks into
the heap. -/
theorem ahead_step (hstop : s.pool.stop = true) (hpush : CancelledAfterStop s a)
    (hs : Step s a s') : s'.pool.stop = true ∧ ahead s' ≤ ahead s := by
  have hpush := hpush hstop
  cases hs with
  | tick duration => exact ⟨hstop, le_rfl⟩
  | schedule r => exact ⟨hstop, le_rfl⟩
  | @call j c hj =>
    cases c with
    | numbering taskId r => exact ⟨hstop, le_rfl⟩
    | numbered taskId r => exact ⟨hstop, le_rfl⟩
    | pushing t =>
      have ht : t.taskId ∈ s.cancelledTasks := hpush t (by simp [pushed, hj])
      exact ⟨hstop, le_of_eq (congrArg₂ (· + ·) rfl (countP_push s ht))⟩
  | cancelTask taskId =>
    -- tasks in the heap may become cancelled, none becomes uncancelled
    refine ⟨hstop, Nat.add_le_add_left (List.countP_mono_left fun t _ ht => ?_) _⟩
    rw [decide_eq_true_eq] at ht ⊢
    exact fun hmem => ht (Finset.mem_insert_of_mem hmem)
  | shutDown => exact ⟨rfl, le_rfl⟩
  | @handle w i k hw =>
    have hdecided : (decided (handle s w k)).card = (decided s).card := by rw [decided_handle hw]
    cases k with
    | dequeued t => exact ⟨hstop, le_of_eq (congrArg₂ (· + ·) hdecided rfl)⟩
    | executed t => exact ⟨hstop, le_of_eq (congrArg₂ (· + ·) hdecided rfl)⟩
    | again t => exact ⟨hstop, le_of_eq (congrArg₂ (· + ·) hdecided rfl)⟩
    | inserting t =>
      have ht : t.taskId ∈ s.cancelledTasks := hpush t (by simp [pushed, hw])
      exact ⟨hstop, le_of_eq (congrArg₂ (· + ·) hdecided (countP_push s ht))⟩
  | @turn w i pool ht =>
    refine ⟨ht.stop_eq.trans hstop, ?_⟩
    show (decided { s with pool }).card + pool.queue.countP (fun t => t.taskId ∉ s.cancelledTasks)
      ≤ (decided s).card + s.pool.queue.countP fun t => t.taskId ∉ s.cancelledTasks
    rcases decided_turn ht with ⟨hqueue, hsame⟩ | ⟨t, hi, hqueue, htake⟩
    · rw [hsame, hqueue]
    · rw [htake, hqueue, ← countP_take hi, Multiset.card_add]
      omega

theorem ahead_run {as : List (Act F)} (hstop : s.pool.stop = true)
    (hpush : Along step CancelledAfterStop s as) (hrun : run step s as = some s') :
    ahead s' ≤ ahead s := by
  have hinv : s'.pool.stop = true ∧ ahead s' ≤ ahead s := by
    refine @run_invariant_along _ _ step CancelledAfterStop
      (fun t => t.pool.stop = true ∧ ahead t ≤ ahead s) (fun t a t' ht hP hst => ?_) _ _ _
      ⟨hstop, le_rfl⟩ hpush hrun
    obtain ⟨hstop', hle⟩ := ahead_step ht.1 hP (step_spec hst)
    exact ⟨hstop', hle.trans ht.2⟩
  exact hinv.2

theorem started_le_ahead (s : State F) : s.started.length ≤ ahead s := by
  unfold ahead decided
  rw [Multiset.card_add, Multiset.coe_card]
  omega

theorem ahead_le (s : State F) : ahead s ≤ s.started.length + (instances s).card := by
  have hhands : (total (Pool.inHands beginning) s.pool.workers).card
      ≤ (total (Pool.inHands inHands) s.pool.workers).card :=
    Multiset.card_le_card (total_beginning_le s)
  have hqueue : (s.pool.queue.countP fun t => t.taskId ∉ s.cancelledTasks) ≤ s.pool.queue.length :=
    List.countP_le_length
  have hinstances : (instances s).card
      = s.pool.queue.length + (total (Pool.inHands inHands) s.pool.workers).card := by
    simp [instances, Pool.account]
  unfold ahead decided
  rw [Multiset.card_add, Multiset.coe_card, hinstances]
  omega

end Shutdown

/-- **The executions after `shutDown`.**  Whatever happened before, and for every run from then on:
if after `shutDown` only cancelled tasks are put into the heap, at most as many executions begin as
there were tasks in the heap and in the hands of workers. -/
theorem shutDown_bounded (as : List (Act F)) (s₁ s₂ s₃ : State F)
    (hshut : step s₁ .shutDown = some s₂) (hrun : run step s₂ as = some s₃)
    (hpush : Along step CancelledAfterStop s₂ as) :
    s₃.started.length ≤ s₂.started.length + (instances s₂).card := by
  have hstop : s₂.pool.stop = true := by
    rw [← Option.some.inj hshut]
    rfl
  calc s₃.started.length ≤ ahead s₃ := started_le_ahead s₃
    _ ≤ ahead s₂ := ahead_run hstop hpush hrun
    _ ≤ s₂.started.length + (instances s₂).card := ahead_le s₂

/-- The periodic task is cancelled when it is being put back: it is pushed, taken out again and
dropped, and the worker returns. -/
def heartbeatDropped : List (Act ℕ) :=
  [.work 0 0, .work 0 0, .work 0 0, .cancelTask 1, .work 0 0, .tick 10, .work 0 0, .work 0 0]

theorem shutDown_bounded_heartbeat : ∃ s₁ s₂ s₃ : State ℕ,
    run step (start 1 0) heartbeat = some s₁ ∧ step s₁ .shutDown = some s₂ ∧
    run step s₂ heartbeatDropped = some s₃ ∧ s₃.pool.Joined ∧
    s₂.started.length + (instances s₂).card = 1 ∧
    s₃.started.length ≤ s₂.started.length + (instances s₂).card :=
  ⟨_, _, _, rfl, rfl, rfl, by decide, by decide,
    shutDown_bounded heartbeatDropped _ _ _ rfl rfl (by decide)⟩

/-- The periodic task is not cancelled: it is put back, and executed again. -/
def heartbeatGoesOn : List (Act ℕ) :=
  [.work 0 0, .work 0 0, .work 0 0, .work 0 0, .tick 10, .work 0 0, .work 0 0]

/-- Then two executions begin after `shutDown`, although there was one task. -/
theorem shutDown_goes_on : ∃ s₁ s₂ s₃ : State ℕ,
    run step (start 1 0) heartbeat = some s₁ ∧ step s₁ .shutDown = some s₂ ∧
    run step s₂ heartbeatGoesOn = some s₃ ∧
    s₂.started.length = 0 ∧ (instances s₂).card = 1 ∧ s₃.started.length = 2 :=
  ⟨_, _, _, rfl, rfl, rfl, by decide, by decide, by decide⟩

end PeriodicSchedulers
