/-
# The parallel query executor

Model of `multi-stage-pipeline/Parallel_query_executor.cpp`: `SELECT SUM(salary) ... WHERE age > 30`
on a table that is cut into ranges of rows.  `execute` starts a worker for every range and joins
them; a worker scans its range into a local sum and adds it to `final_result` under the mutex.

The threads take turns as a schedule says.  The two critical sections of a worker do not block, so
each is one step; every other access to a shared variable is a step of its own.  A row outside of
the table is never read: that step would not be enabled.

Result: the ranges cut the table into consecutive pieces, whatever the number of threads, and every
schedule ends with the sum over the whole table.
-/
import SystemsDesign.ThreadList
import SystemsDesign.TransitionSystem

namespace ParallelQueryExecutors

open ThreadList TransitionSystem

/-! ## The executor -/

/-- A row of the table. -/
structure Row where
  id : ℤ
  salary : ℤ
  age : ℤ
  deriving DecidableEq

/-- The data members of `ParallelQueryExecutor` besides the mutex. -/
structure ParallelQueryExecutor where
  table : List Row
  finalResult : ℤ
  deriving DecidableEq

/-- The constructor. -/
def ParallelQueryExecutor.new (rows : List Row) : ParallelQueryExecutor where
  table := rows
  finalResult := 0

/-- Where a worker is: before the critical section that announces it, in the scan, with
`local_result`, before the critical section that merges, or at its end. -/
inductive Phase where
  | announcing
  | scanning (i : ℕ) (sumSalary : ℤ)
  | merging (sumSalary : ℤ)
  | returned
  deriving DecidableEq

/-- A worker thread with its arguments. -/
structure Worker where
  workerId : ℕ
  start : ℕ
  stop : ℕ
  phase : Phase
  deriving DecidableEq

/-- Where `execute` is: in the loop that starts the workers, in the one that joins them, or at its
end. -/
inductive Main where
  | spawning (i : ℕ)
  | joining (i : ℕ)
  | returned (result : ℤ)
  deriving DecidableEq

/-- The executor and its threads. -/
structure State where
  executor : ParallelQueryExecutor
  main : Main
  workers : List Worker
  deriving DecidableEq

/-- The call of `execute`. -/
def start (executor : ParallelQueryExecutor) : State where
  executor := executor
  main := .spawning 0
  workers := []

/-- `chunk_size`, for `n` rows. -/
def chunkSize (n numThreads : ℕ) : ℕ := (n + numThreads - 1) / numThreads

/-- The next step of `execute(numThreads)`. -/
def stepMain (numThreads : ℕ) (s : State) : Option State :=
  let n := s.executor.table.length
  let chunkSize := chunkSize n numThreads
  match s.main with
  | .spawning i =>
    if i < numThreads then
      if i * chunkSize ≥ n then some { s with main := .joining 0 }
      else
        let worker : Worker :=
          { workerId := i + 1
            start := i * chunkSize
            stop := min (i * chunkSize + chunkSize) n
            phase := .announcing }
        some { s with main := .spawning (i + 1), workers := s.workers ++ [worker] }
    else some { s with main := .joining 0 }
  | .joining i =>
    match s.workers[i]? with
    | some worker =>
      if worker.phase = .returned then some { s with main := .joining (i + 1) } else none
    | none => some { s with main := .returned s.executor.finalResult }
  | .returned _ => none

/-- What a row adds to the sum. -/
def Row.selected (row : Row) : ℤ := if row.age > 30 then row.salary else 0

/-- The next phase of a worker, and what it adds to `final_result`. -/
def Worker.next (table : List Row) (worker : Worker) : Option (Phase × ℤ) :=
  match worker.phase with
  | .announcing => some (.scanning worker.start 0, 0)
  | .scanning i sumSalary =>
    if i < worker.stop then
      match table[i]? with
      | some row => some (.scanning (i + 1) (sumSalary + row.selected), 0)
      | none => none
    else some (.merging sumSalary, 0)
  | .merging sumSalary => some (.returned, sumSalary)
  | .returned => none

/-- The next step of worker `w`. -/
def stepWorker (s : State) (w : ℕ) : Option State :=
  match s.workers[w]? with
  | none => none
  | some worker =>
    match worker.next s.executor.table with
    | none => none
    | some (phase, sum) =>
      some { s with
        executor := { s.executor with finalResult := s.executor.finalResult + sum }
        workers := s.workers.set w { worker with phase := phase } }

/-- Who moves. -/
inductive Act where
  | main
  | worker (w : ℕ)
  deriving DecidableEq

/-- One step of one thread. -/
def step (numThreads : ℕ) (s : State) : Act → Option State
  | .main => stepMain numThreads s
  | .worker w => stepWorker s w

/-- What the next phase of a worker can be, and what it adds to `final_result` then. -/
inductive Worker.Moves (table : List Row) (worker : Worker) : Phase → ℤ → Prop where
  | announce (hphase : worker.phase = .announcing) :
      worker.Moves table (.scanning worker.start 0) 0
  | scan {i : ℕ} {sumSalary : ℤ} {row : Row} (hphase : worker.phase = .scanning i sumSalary)
      (hi : i < worker.stop) (hrow : table[i]? = some row) :
      worker.Moves table (.scanning (i + 1) (sumSalary + row.selected)) 0
  | finish {i : ℕ} {sumSalary : ℤ} (hphase : worker.phase = .scanning i sumSalary)
      (hi : worker.stop ≤ i) : worker.Moves table (.merging sumSalary) 0
  | merge {sumSalary : ℤ} (hphase : worker.phase = .merging sumSalary) :
      worker.Moves table .returned sumSalary

theorem Worker.moves_of_next {table : List Row} {worker : Worker} {phase : Phase} {sum : ℤ}
    (h : worker.next table = some (phase, sum)) : worker.Moves table phase sum := by
  unfold Worker.next at h
  split at h
  next hphase =>
    cases h
    exact .announce hphase
  next i sumSalary hphase =>
    split_ifs at h with hi
    · split at h
      next row hrow =>
        cases h
        exact .scan hphase hi hrow
      next => cases h
    · cases h
      exact .finish hphase (not_lt.mp hi)
  next sumSalary hphase =>
    cases h
    exact .merge hphase
  next => cases h

theorem Worker.Moves.running {table : List Row} {worker : Worker} {phase : Phase} {sum : ℤ}
    (h : worker.Moves table phase sum) : worker.phase ≠ .returned := by
  cases h with
  | announce hphase => simp [hphase]
  | scan hphase => simp [hphase]
  | finish hphase => simp [hphase]
  | merge hphase => simp [hphase]

/-- What a step can be. -/
inductive Step (numThreads : ℕ) (s s' : State) : Prop where
  | spawn {i : ℕ} {worker : Worker} (hmain : s.main = .spawning i) (hi : i < numThreads)
      (hstart : worker.start = i * chunkSize s.executor.table.length numThreads)
      (hlt : worker.start < s.executor.table.length)
      (hstop : worker.stop = min (worker.start + chunkSize s.executor.table.length numThreads)
        s.executor.table.length)
      (hphase : worker.phase = .announcing)
      (hs : s' = { s with main := .spawning (i + 1), workers := s.workers ++ [worker] })
  | join {i : ℕ} (hmain : s.main = .spawning i)
      (hi : numThreads ≤ i ∨
        s.executor.table.length ≤ i * chunkSize s.executor.table.length numThreads)
      (hs : s' = { s with main := .joining 0 })
  | joined {i : ℕ} {worker : Worker} (hmain : s.main = .joining i)
      (hi : s.workers[i]? = some worker) (hphase : worker.phase = .returned)
      (hs : s' = { s with main := .joining (i + 1) })
  | finish {i : ℕ} (hmain : s.main = .joining i) (hi : s.workers[i]? = none)
      (hs : s' = { s with main := .returned s.executor.finalResult })
  | work {w : ℕ} {worker : Worker} {phase : Phase} {sum : ℤ} (hw : s.workers[w]? = some worker)
      (hmoves : worker.Moves s.executor.table phase sum)
      (hs : s' = { s with
        executor := { s.executor with finalResult := s.executor.finalResult + sum }
        workers := s.workers.set w { worker with phase := phase } })

theorem step_spec {numThreads : ℕ} {s s' : State} {a : Act} (h : step numThreads s a = some s') :
    Step numThreads s s' := by
  cases a with
  | main =>
    simp only [step, stepMain] at h
    split at h
    next i hmain =>
      split_ifs at h with hi hstart
      · exact .join hmain (.inr hstart) (Option.some.inj h).symm
      · exact .spawn hmain hi rfl (not_le.mp hstart) rfl rfl (Option.some.inj h).symm
      · exact .join hmain (.inl (not_lt.mp hi)) (Option.some.inj h).symm
    next i hmain =>
      split at h
      next worker hi =>
        split_ifs at h with hphase
        exact .joined hmain hi hphase (Option.some.inj h).symm
      next hi => exact .finish hmain hi (Option.some.inj h).symm
    next => cases h
  | worker w =>
    simp only [step, stepWorker] at h
    split at h
    next => cases h
    next worker hw =>
      split at h
      next => cases h
      next phase sum hnext =>
        exact .work hw (Worker.moves_of_next hnext) (Option.some.inj h).symm

/-! ## The ranges -/

section Ranges

variable {n numThreads i : ℕ}

/-- The ranges of all threads together are long enough. -/
theorem le_mul_chunkSize (h : 1 ≤ numThreads) : n ≤ numThreads * chunkSize n numThreads := by
  have hdiv := Nat.div_add_mod (n + numThreads - 1) numThreads
  have hmod := Nat.mod_lt (n + numThreads - 1) h
  unfold chunkSize
  omega

/-- The end of no range, before it is clipped, is above `n + numThreads`. -/
theorem mul_chunkSize_lt (hi : i < numThreads) :
    i * chunkSize n numThreads + chunkSize n numThreads < n + numThreads := by
  have hdiv := Nat.div_mul_le_self (n + numThreads - 1) numThreads
  have hmul : (i + 1) * chunkSize n numThreads ≤ numThreads * chunkSize n numThreads :=
    Nat.mul_le_mul_right _ hi
  rw [add_mul, one_mul, Nat.mul_comm numThreads] at hmul
  unfold chunkSize at hmul ⊢
  omega

/-- The rows of a worker. -/
def Worker.rows (worker : Worker) : List ℕ :=
  List.range' worker.start (worker.stop - worker.start)

/-- The rows that have been given to workers when `execute` is at some place. -/
def Main.given (n numThreads : ℕ) : Main → ℕ
  | .spawning i => min (i * chunkSize n numThreads) n
  | _ => n

theorem range_append_range' {a b : ℕ} (h : a ≤ b) :
    List.range a ++ List.range' a (b - a) = List.range b := by
  rw [List.range_eq_range', List.range_eq_range']
  have happend := @List.range'_append 0 a (b - a) 1
  rw [one_mul, zero_add, Nat.add_sub_cancel' h] at happend
  exact happend

end Ranges

/-! ## The sums -/

section Sums

variable {table : List Row} {worker : Worker} {a i : ℕ} {row : Row}

/-- What row `i` adds to the sum. -/
def value (table : List Row) (i : ℕ) : ℤ := ((table[i]?).map Row.selected).getD 0

/-- The sum over some rows. -/
def sumOver (table : List Row) (rows : List ℕ) : ℤ := (rows.map (value table)).sum

theorem sumOver_append (table : List Row) (rows more : List ℕ) :
    sumOver table (rows ++ more) = sumOver table rows + sumOver table more := by
  unfold sumOver
  rw [List.map_append, List.sum_append]

theorem sumOver_range'_succ (hrow : table[i]? = some row) (ha : a ≤ i) :
    sumOver table (List.range' a (i + 1 - a))
      = sumOver table (List.range' a (i - a)) + row.selected := by
  have hlength : i + 1 - a = (i - a) + 1 := by omega
  have hlast : a + 1 * (i - a) = i := by omega
  rw [hlength, List.range'_concat, sumOver_append, hlast]
  unfold sumOver value
  rw [List.map_singleton, List.sum_singleton, hrow]
  rfl

theorem map_value_range (table : List Row) :
    (List.range table.length).map (value table) = table.map Row.selected := by
  apply List.ext_getElem (by simp)
  intro i hi _
  have hlt : i < table.length := by simpa using hi
  simp [value, List.getElem?_eq_getElem hlt]

/-- The sum over the whole table is that over the rows of the query. -/
theorem sumOver_range (table : List Row) :
    sumOver table (List.range table.length)
      = ((table.filter fun row => row.age > 30).map Row.salary).sum := by
  unfold sumOver
  rw [map_value_range]
  induction table with
  | nil => rfl
  | cons row table ih =>
    rw [List.map_cons, List.sum_cons, ih, List.filter_cons]
    by_cases hage : row.age > 30
    · simp [Row.selected, hage]
    · simp [Row.selected, hage]

theorem total_sumOver_rows (table : List Row) (workers : List Worker) :
    total (fun worker => sumOver table worker.rows) workers
      = sumOver table (workers.flatMap Worker.rows) := by
  induction workers with
  | nil => rfl
  | cons worker workers ih => rw [total_cons, ih, List.flatMap_cons, sumOver_append]

/-- What a worker knows: in the scan it has the sum over the rows it has seen, and then over all of
its rows. -/
structure Worker.Valid (table : List Row) (worker : Worker) : Prop where
  start_le : worker.start ≤ worker.stop
  stop_le : worker.stop ≤ table.length
  scanning : ∀ i sum, worker.phase = .scanning i sum → worker.start ≤ i ∧ i ≤ worker.stop ∧
    sum = sumOver table (List.range' worker.start (i - worker.start))
  merging : ∀ sum, worker.phase = .merging sum → sum = sumOver table worker.rows

/-- What a worker has added to `final_result`. -/
def Worker.merged (table : List Row) (worker : Worker) : ℤ :=
  if worker.phase = .returned then sumOver table worker.rows else 0

variable {phase : Phase} {sum : ℤ}

/-- **A step of a worker** keeps what it knows, and it adds to `final_result` the sum over its rows
when it returns. -/
theorem Worker.Valid.moves (h : worker.Valid table) (hmoves : worker.Moves table phase sum) :
    ({ worker with phase := phase } : Worker).Valid table ∧
      ({ worker with phase := phase } : Worker).merged table = worker.merged table + sum := by
  cases hmoves with
  | announce hphase =>
    refine ⟨⟨h.start_le, h.stop_le, ?_, by simp⟩, by simp [Worker.merged, hphase]⟩
    rintro i sum ⟨⟩
    exact ⟨le_rfl, h.start_le, by simp [sumOver]⟩
  | @scan i sumSalary row hphase hi hrow =>
    obtain ⟨hstart, -, hsum⟩ := h.scanning i sumSalary hphase
    refine ⟨⟨h.start_le, h.stop_le, ?_, by simp⟩, by simp [Worker.merged, hphase]⟩
    rintro j sum ⟨⟩
    refine ⟨hstart.trans (Nat.le_succ i), hi, ?_⟩
    rw [sumOver_range'_succ hrow hstart, hsum]
  | @finish i sumSalary hphase hi =>
    obtain ⟨-, hstop, hsum⟩ := h.scanning i sumSalary hphase
    obtain rfl : i = worker.stop := le_antisymm hstop hi
    refine ⟨⟨h.start_le, h.stop_le, by simp, ?_⟩, by simp [Worker.merged, hphase]⟩
    rintro sum ⟨⟩
    exact hsum
  | merge hphase =>
    refine ⟨⟨h.start_le, h.stop_le, by simp, by simp⟩, ?_⟩
    simp only [Worker.merged, hphase, if_true, reduceCtorEq, if_false, zero_add]
    exact (h.merging sum hphase).symm

/-- A worker that has not returned can go on. -/
theorem Worker.Valid.exists_next (h : worker.Valid table) (hphase : worker.phase ≠ .returned) :
    ∃ phase sum, worker.next table = some (phase, sum) := by
  unfold Worker.next
  cases hworker : worker.phase with
  | announcing => exact ⟨_, _, rfl⟩
  | scanning i sumSalary =>
    dsimp only
    by_cases hi : i < worker.stop
    · rw [if_pos hi, List.getElem?_eq_getElem (hi.trans_le h.stop_le)]
      exact ⟨_, _, rfl⟩
    · rw [if_neg hi]
      exact ⟨_, _, rfl⟩
  | merging sumSalary => exact ⟨_, _, rfl⟩
  | returned => exact absurd hworker hphase

end Sums

/-! ## Runs -/

/-- Where `execute` may be: in the loop over the threads, with no more workers than turns, or behind
workers that have returned. -/
def Main.Valid (numThreads : ℕ) (workers : List Worker) (result : ℤ) : Main → Prop
  | .spawning i => i ≤ numThreads ∧ workers.length ≤ i
  | .joining i => workers.length ≤ numThreads ∧ i ≤ workers.length ∧
      ∀ j < i, ∃ worker, workers[j]? = some worker ∧ worker.phase = .returned
  | .returned r => r = result ∧ ∀ worker ∈ workers, worker.phase = .returned

/-- What holds in every run of `execute` on an executor. -/
structure Inv (numThreads : ℕ) (executor : ParallelQueryExecutor) (s : State) : Prop where
  table : s.executor.table = executor.table
  main : s.main.Valid numThreads s.workers s.executor.finalResult
  workers : ∀ worker ∈ s.workers, worker.Valid executor.table
  rows : s.workers.flatMap Worker.rows
    = List.range (s.main.given executor.table.length numThreads)
  result : s.executor.finalResult
    = executor.finalResult + total (Worker.merged executor.table) s.workers

variable {numThreads : ℕ} {executor : ParallelQueryExecutor} {s s' : State}

/-- At the start nothing has been given out. -/
theorem inv_start (numThreads : ℕ) (executor : ParallelQueryExecutor) :
    Inv numThreads executor (start executor) where
  table := rfl
  main := ⟨Nat.zero_le _, le_rfl⟩
  workers := by simp [start]
  rows := by simp [start, Main.given]
  result := by simp [start]

section Step

variable {i w : ℕ} {worker : Worker} {phase : Phase} {sum : ℤ}

/-- A worker is started for the next range, which begins where the rows before it end. -/
theorem Inv.spawn (h : Inv numThreads executor s) (hmain : s.main = .spawning i)
    (hi : i < numThreads)
    (hstart : worker.start = i * chunkSize executor.table.length numThreads)
    (hlt : worker.start < executor.table.length)
    (hstop : worker.stop = min (worker.start + chunkSize executor.table.length numThreads)
      executor.table.length)
    (hphase : worker.phase = .announcing) :
    Inv numThreads executor
      { s with main := .spawning (i + 1), workers := s.workers ++ [worker] } := by
  have hvalid := h.main
  have hrows := h.rows
  rw [hmain] at hvalid
  rw [hmain, Main.given, ← hstart, min_eq_left hlt.le] at hrows
  have hle : worker.start ≤ worker.stop := by omega
  refine ⟨h.table, ⟨hi, ?_⟩, ?_, ?_, ?_⟩
  · have hlength := hvalid.2
    rw [List.length_append, List.length_singleton]
    omega
  · intro worker' hmem
    rcases List.mem_append.mp hmem with hmem | hmem
    · exact h.workers worker' hmem
    · obtain rfl := List.mem_singleton.mp hmem
      exact ⟨hle, by omega, by simp [hphase], by simp [hphase]⟩
  · show (s.workers ++ [worker]).flatMap Worker.rows
      = List.range (min ((i + 1) * chunkSize executor.table.length numThreads) _)
    rw [List.flatMap_append, List.flatMap_singleton, hrows, Worker.rows, range_append_range' hle,
      hstop, hstart, add_mul, one_mul]
  · have hmerged : worker.merged executor.table = 0 := by simp [Worker.merged, hphase]
    show s.executor.finalResult = _ + total _ (s.workers ++ [worker])
    rw [h.result, total, total, List.map_append, List.sum_append, List.map_singleton,
      List.sum_singleton, hmerged, add_zero]

/-- The loop that starts the workers stops: at the end of the table, or after all threads, whose
ranges are long enough. -/
theorem Inv.join (hthreads : 1 ≤ numThreads) (h : Inv numThreads executor s)
    (hmain : s.main = .spawning i)
    (hi : numThreads ≤ i ∨
      executor.table.length ≤ i * chunkSize executor.table.length numThreads) :
    Inv numThreads executor { s with main := .joining 0 } := by
  have hvalid := h.main
  have hrows := h.rows
  rw [hmain] at hvalid
  have hall : executor.table.length ≤ i * chunkSize executor.table.length numThreads := by
    rcases hi with hi | hi
    · obtain rfl : i = numThreads := le_antisymm hvalid.1 hi
      exact le_mul_chunkSize hthreads
    · exact hi
  rw [hmain, Main.given, min_eq_right hall] at hrows
  refine ⟨h.table, ⟨hvalid.2.trans hvalid.1, Nat.zero_le _, ?_⟩, h.workers, hrows, h.result⟩
  intro j hj
  exact absurd hj (Nat.not_lt_zero j)

theorem Inv.joined (h : Inv numThreads executor s) (hmain : s.main = .joining i)
    (hi : s.workers[i]? = some worker) (hphase : worker.phase = .returned) :
    Inv numThreads executor { s with main := .joining (i + 1) } := by
  have hvalid := h.main
  have hrows := h.rows
  rw [hmain] at hvalid hrows
  have hlt : i < s.workers.length := (List.getElem?_eq_some_iff.mp hi).1
  refine ⟨h.table, ⟨hvalid.1, hlt, ?_⟩, h.workers, hrows, h.result⟩
  intro j hj
  rcases Nat.lt_succ_iff_lt_or_eq.mp hj with hj | rfl
  · exact hvalid.2.2 j hj
  · exact ⟨worker, hi, hphase⟩

theorem Inv.finish (h : Inv numThreads executor s) (hmain : s.main = .joining i)
    (hi : s.workers[i]? = none) :
    Inv numThreads executor { s with main := .returned s.executor.finalResult } := by
  have hvalid := h.main
  have hrows := h.rows
  rw [hmain] at hvalid hrows
  refine ⟨h.table, ⟨rfl, ?_⟩, h.workers, hrows, h.result⟩
  intro worker hworker
  obtain ⟨j, hj⟩ := List.mem_iff_getElem?.mp hworker
  have hlt : j < i :=
    (List.getElem?_eq_some_iff.mp hj).1.trans_le (List.getElem?_eq_none_iff.mp hi)
  obtain ⟨worker', hworker', hphase⟩ := hvalid.2.2 j hlt
  rwa [Option.some.inj (hj.symm.trans hworker')]

/-- A step of a worker that has not returned does not concern `execute`. -/
theorem Main.Valid.set {main : Main} {workers : List Worker} {result result' : ℤ}
    (h : main.Valid numThreads workers result) (hw : workers[w]? = some worker)
    (hrunning : worker.phase ≠ .returned) (worker' : Worker) :
    main.Valid numThreads (workers.set w worker') result' := by
  cases main with
  | spawning i =>
    refine ⟨h.1, ?_⟩
    rw [List.length_set]
    exact h.2
  | joining i =>
    refine ⟨?_, ?_, fun j hj => ?_⟩
    · rw [List.length_set]
      exact h.1
    · rw [List.length_set]
      exact h.2.1
    · obtain ⟨joined, hjoined, hphase⟩ := h.2.2 j hj
      have hne : w ≠ j := by
        rintro rfl
        obtain rfl := Option.some.inj (hw.symm.trans hjoined)
        exact hrunning hphase
      exact ⟨joined, (List.getElem?_set_ne hne).trans hjoined, hphase⟩
  | returned r => exact absurd (h.2 worker (List.mem_of_getElem? hw)) hrunning

/-- A step of a worker does not change the ranges. -/
theorem flatMap_rows_set {workers : List Worker} (hw : workers[w]? = some worker) (phase : Phase) :
    (workers.set w { worker with phase := phase }).flatMap Worker.rows
      = workers.flatMap Worker.rows := by
  have hrows : (workers.set w { worker with phase := phase }).map Worker.rows
      = workers.map Worker.rows := by
    obtain ⟨hlt, rfl⟩ := List.getElem?_eq_some_iff.mp hw
    have hself := @List.set_getElem_self _ (workers.map Worker.rows) w (by simpa using hlt)
    rw [List.getElem_map] at hself
    rw [List.map_set]
    exact hself
  rw [List.flatMap_def, hrows, ← List.flatMap_def]

theorem Inv.work (h : Inv numThreads executor s) (hw : s.workers[w]? = some worker)
    (hmoves : worker.Moves executor.table phase sum) :
    Inv numThreads executor { s with
      executor := { s.executor with finalResult := s.executor.finalResult + sum }
      workers := s.workers.set w { worker with phase := phase } } := by
  obtain ⟨hvalid, hmerged⟩ := (h.workers worker (List.mem_of_getElem? hw)).moves hmoves
  have hset := total_set (Worker.merged executor.table) hw { worker with phase := phase }
  refine ⟨h.table, h.main.set hw hmoves.running _, ?_, ?_, ?_⟩
  · intro worker' hworker'
    rcases List.mem_or_eq_of_mem_set hworker' with hworker' | rfl
    · exact h.workers worker' hworker'
    · exact hvalid
  · show (s.workers.set w _).flatMap Worker.rows = _
    rw [flatMap_rows_set hw]
    exact h.rows
  · show s.executor.finalResult + sum = _
    rw [h.result]
    rw [hmerged] at hset
    linarith

end Step

/-- **Every step keeps the invariant.** -/
theorem Inv.step (hthreads : 1 ≤ numThreads) (h : Inv numThreads executor s)
    (hs : Step numThreads s s') : Inv numThreads executor s' := by
  cases hs with
  | spawn hmain hi hstart hlt hstop hphase hs =>
    rw [h.table] at hstart hlt hstop
    exact hs ▸ h.spawn hmain hi hstart hlt hstop hphase
  | join hmain hi hs =>
    rw [h.table] at hi
    exact hs ▸ h.join hthreads hmain hi
  | joined hmain hi hphase hs => exact hs ▸ h.joined hmain hi hphase
  | finish hmain hi hs => exact hs ▸ h.finish hmain hi
  | work hw hmoves hs =>
    rw [h.table] at hmoves
    exact hs ▸ h.work hw hmoves

theorem inv_of_run (hthreads : 1 ≤ numThreads) {schedule : List Act}
    (h : run (step numThreads) (start executor) schedule = some s) : Inv numThreads executor s :=
  run_invariant (fun _ _ _ hinv hs => hinv.step hthreads (step_spec hs))
    (inv_start numThreads executor) h

/-! ## The result -/

/-- What `execute` returns is what there was and the sum over the table. -/
theorem Inv.returned {r : ℤ} (h : Inv numThreads executor s) (hr : s.main = .returned r) :
    r = executor.finalResult + sumOver executor.table (List.range executor.table.length) := by
  have hmain := h.main
  have hrows := h.rows
  rw [hr] at hmain hrows
  have hmerged : total (Worker.merged executor.table) s.workers
      = total (fun worker => sumOver executor.table worker.rows) s.workers := by
    unfold total
    congr 1
    apply List.map_congr_left
    intro worker hworker
    rw [Worker.merged, if_pos (hmain.2 worker hworker)]
  rw [hmain.1, h.result, hmerged, total_sumOver_rows, hrows]
  rfl

/-- Until `execute` has returned, some thread can go on. -/
theorem Inv.progress (h : Inv numThreads executor s) :
    (∃ r, s.main = .returned r) ∨ ∃ a s', ParallelQueryExecutors.step numThreads s a = some s' := by
  cases hmain : s.main with
  | returned r => exact .inl ⟨r, rfl⟩
  | spawning i =>
    refine .inr ⟨.main, ?_⟩
    simp only [ParallelQueryExecutors.step, stepMain, hmain]
    split_ifs
    · exact ⟨_, rfl⟩
    · exact ⟨_, rfl⟩
    · exact ⟨_, rfl⟩
  | joining i =>
    right
    cases hi : s.workers[i]? with
    | none =>
      refine ⟨.main, { s with main := .returned s.executor.finalResult }, ?_⟩
      simp only [ParallelQueryExecutors.step, stepMain, hmain, hi]
    | some worker =>
      by_cases hphase : worker.phase = .returned
      · refine ⟨.main, { s with main := .joining (i + 1) }, ?_⟩
        simp only [ParallelQueryExecutors.step, stepMain, hmain, hi, if_pos hphase]
      · -- the worker that is waited for
        have hvalid := h.workers worker (List.mem_of_getElem? hi)
        rw [← h.table] at hvalid
        obtain ⟨phase, sum, hnext⟩ := hvalid.exists_next hphase
        refine ⟨.worker i, ?_⟩
        simp only [ParallelQueryExecutors.step, stepWorker, hi, hnext]
        exact ⟨_, rfl⟩

/-- How many steps a worker has left, at most. -/
def Worker.left (worker : Worker) : ℕ :=
  match worker.phase with
  | .announcing => worker.stop - worker.start + 3
  | .scanning i _ => worker.stop - i + 2
  | .merging _ => 1
  | .returned => 0

/-- How many steps `execute` and the workers it will still start have left, at most. -/
def Main.left (n numThreads : ℕ) : Main → ℕ
  | .spawning i => (numThreads - i) * (n + 4) + numThreads + 2
  | .joining i => numThreads - i + 1
  | .returned _ => 0

/-- How many steps a state has left, at most. -/
def left (numThreads : ℕ) (s : State) : ℕ :=
  s.main.left s.executor.table.length numThreads + total Worker.left s.workers

theorem Worker.Moves.left_lt {table : List Row} {worker : Worker} {phase : Phase} {sum : ℤ}
    (h : worker.Moves table phase sum) :
    ({ worker with phase := phase } : Worker).left < worker.left := by
  cases h with
  | announce hphase => simp [Worker.left, hphase]
  | scan hphase hi hrow =>
    simp only [Worker.left, hphase]
    omega
  | finish hphase hi =>
    simp only [Worker.left, hphase]
    omega
  | merge hphase => simp [Worker.left, hphase]

/-- **Every step is one less.** -/
theorem Inv.left_lt (h : Inv numThreads executor s) (hs : Step numThreads s s') :
    ParallelQueryExecutors.left numThreads s' < ParallelQueryExecutors.left numThreads s := by
  have hmainv := h.main
  unfold ParallelQueryExecutors.left
  cases hs with
  | @spawn i worker hmain hi hstart hlt hstop hphase hs =>
    subst hs
    have hworker : worker.left ≤ s.executor.table.length + 3 := by
      simp only [Worker.left, hphase]
      omega
    have hturn : numThreads - i = numThreads - (i + 1) + 1 := by omega
    simp only [hmain, Main.left, total, List.map_append, List.sum_append, List.map_singleton,
      List.sum_singleton]
    rw [hturn, add_mul, one_mul]
    omega
  | @join i hmain hi hs =>
    subst hs
    simp only [hmain, Main.left]
    omega
  | @joined i worker hmain hi hphase hs =>
    subst hs
    rw [hmain] at hmainv
    have hlt : i < s.workers.length := (List.getElem?_eq_some_iff.mp hi).1
    have hle := hmainv.1
    simp only [hmain, Main.left]
    omega
  | @finish i hmain hi hs =>
    subst hs
    simp only [hmain, Main.left]
    omega
  | @work w worker phase sum hw hmoves hs =>
    subst hs
    have hset := total_set Worker.left hw { worker with phase := phase }
    have hlt := hmoves.left_lt
    dsimp only
    omega

/-- **The parallel aggregate is the sequential one.**  For every table and at least one thread: no
number that is computed for the ranges reaches `n + numThreads`, and in every schedule of a fresh
executor

* once `execute` is in its second loop, the ranges of the workers, one after the other, are the rows
  of the table, each once;
* what it returns is the sum of the salaries over the rows with `age > 30`;
* some thread can go on until it has returned, and it returns after a bounded number of steps. -/
theorem execute_eq_sequential (table : List Row) (numThreads : ℕ) (hthreads : 1 ≤ numThreads) :
    (∀ i < numThreads, i * chunkSize table.length numThreads + chunkSize table.length numThreads
      < table.length + numThreads) ∧
    ∀ schedule s, run (step numThreads) (start (.new table)) schedule = some s →
      ((∃ i, s.main = .spawning i) ∨
        s.workers.flatMap Worker.rows = List.range table.length) ∧
      (∀ r, s.main = .returned r →
        r = ((table.filter fun row => row.age > 30).map Row.salary).sum) ∧
      ((∃ r, s.main = .returned r) ∨ ∃ a s', step numThreads s a = some s') ∧
      schedule.length ≤ numThreads * (table.length + 4) + numThreads + 2 := by
  refine ⟨fun i hi => mul_chunkSize_lt hi, fun schedule s hrun => ?_⟩
  have hinv : Inv numThreads (.new table) s := inv_of_run hthreads hrun
  refine ⟨?_, ?_, hinv.progress, ?_⟩
  · have hrows := hinv.rows
    cases hmain : s.main with
    | spawning i => exact .inl ⟨i, rfl⟩
    | joining i =>
      rw [hmain] at hrows
      exact .inr hrows
    | returned r =>
      rw [hmain] at hrows
      exact .inr hrows
  · intro r hr
    have hresult := hinv.returned hr
    rw [hresult, ← sumOver_range]
    exact zero_add _
  · have hlength := run_length_le (fun _ _ _ hi hs => hi.step hthreads (step_spec hs))
      (fun _ _ _ hi hs => hi.left_lt (step_spec hs)) (inv_start numThreads (.new table)) hrun
    have hleft : left numThreads (start (.new table))
        = numThreads * (table.length + 4) + numThreads + 2 := by
      simp [left, start, Main.left, ParallelQueryExecutor.new]
    omega

theorem execute_eq_sequential_two :
    let table : List Row := [⟨1, 1000, 21⟩, ⟨2, 2000, 32⟩, ⟨3, 3000, 43⟩]
    ∀ schedule s, run (step 2) (start (.new table)) schedule = some s →
      ∀ r, s.main = .returned r → r = 5000 := by
  intro table schedule s hrun r hr
  exact ((execute_eq_sequential table 2 (by decide)).2 schedule s hrun).2.1 r hr

end ParallelQueryExecutors
