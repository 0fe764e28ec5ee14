/-
# A parallel build system

Model of `multi-stage-pipeline/BuildSystem_Make_Bazel.cpp`.  `add_dependency` records edges and
counts for every target how many of its dependencies are still to be built; `build` queues the
targets that wait for none and starts the workers.  A worker pops a target under the mutex,
builds it without, and then, under the mutex again, counts it off at its children and queues
those that wait for nothing more.

The critical sections of the workers, two on `mtx` and two on `cout_mtx` per target, interleave
as a schedule says (`step`).  The iteration of an `unordered_map` may go in any order, so the
order in which `build` queues the first targets is a parameter.
-/
import SystemsDesign.CountingDown

namespace BuildSystems

open CountingDown

/-! ## The shared state -/

/-- The members of `BuildSystem` that `mtx` guards.  `graph` has the empty vector where the map
has no entry: `operator[]` would make one. -/
structure BuildSystem where
  graph : String → List String := fun _ => []
  indegree : AList fun _ : String => ℤ := ∅
  readyQueue : List String := []
  processedTargets : ℕ := 0
  totalTargets : ℕ := 0
  activeWorkers : ℤ := 0
  done : Bool := false

namespace BuildSystem

/-- `indegree[target]`. -/
def degree (b : BuildSystem) (target : String) : ℤ := (b.indegree.lookup target).getD 0

/-- `add_dependency`. -/
def addDependency (b : BuildSystem) (target dependency : String) : BuildSystem :=
  let indegree := b.indegree.insert target (b.degree target + 1)
  { b with
    graph := Function.update b.graph dependency (b.graph dependency ++ [target])
    indegree := if dependency ∈ indegree then indegree else indegree.insert dependency 0 }

/-- The first critical section of `worker`: nothing while the wait goes on, no target when the
worker returns. -/
def take (b : BuildSystem) : Option (Option String × BuildSystem) :=
  match b.readyQueue with
  | [] => if b.done then some (none, b) else none
  | target :: rest =>
    some (some target, { b with readyQueue := rest, activeWorkers := b.activeWorkers + 1 })

/-- The loop body of the second critical section of `worker`. -/
def releaseChild (b : BuildSystem) (child : String) : BuildSystem :=
  let b := { b with indegree := b.indegree.insert child (b.degree child - 1) }
  if b.degree child = 0 then { b with readyQueue := b.readyQueue ++ [child] } else b

/-- The second critical section of `worker`. -/
def complete (b : BuildSystem) (target : String) : BuildSystem :=
  let b := (b.graph target).foldl releaseChild b
  let b := { b with
    activeWorkers := b.activeWorkers - 1
    processedTargets := b.processedTargets + 1 }
  if b.processedTargets = b.totalTargets ∨ b.readyQueue = [] ∧ b.activeWorkers = 0 then
    { b with done := true }
  else b

/-- The targets that `build` queues before it starts the workers. -/
def sources (b : BuildSystem) : List String :=
  b.indegree.keys.filter fun target => b.degree target = 0

end BuildSystem

/-! ## The workers -/

/-- Where a worker is: before its first critical section, before it prints that it builds,
before it prints that it has finished, before its second critical section, or gone. -/
inductive Phase where
  | waiting
  | taken (target : String)
  | building (target : String)
  | finished (target : String)
  | returned
  deriving DecidableEq

/-- The lines the workers print. -/
inductive Event where
  | building (id : ℕ) (target : String)
  | finished (id : ℕ) (target : String)
  deriving DecidableEq

/-- The shared state, the workers and what was printed. -/
structure State where
  system : BuildSystem
  workers : List Phase
  output : List Event := []

/-- The state in which `build` has started its workers, when it found the first targets in
the order `order`. -/
def start (b : BuildSystem) (order : List String) (numThreads : ℕ) : State where
  system := { b with
    totalTargets := b.indegree.keys.length
    readyQueue := b.readyQueue ++ order }
  workers := List.replicate numThreads .waiting

/-- The next critical section of the worker at position `i`, whose `id` is `i + 1`. -/
def step (s : State) (i : ℕ) : Option State :=
  match s.workers[i]? with
  | some .waiting =>
    match s.system.take with
    | some (some target, b) =>
      some { s with system := b, workers := s.workers.set i (.taken target) }
    | some (none, b) => some { s with system := b, workers := s.workers.set i .returned }
    | none => none
  | some (.taken target) =>
    some { s with
      workers := s.workers.set i (.building target)
      output := s.output ++ [.building (i + 1) target] }
  | some (.building target) =>
    some { s with
      workers := s.workers.set i (.finished target)
      output := s.output ++ [.finished (i + 1) target] }
  | some (.finished target) =>
    some { s with
      system := s.system.complete target
      workers := s.workers.set i .waiting }
  | some .returned => none
  | none => none

/-- All workers have returned, so that `build` goes on behind the joins. -/
def State.Joined (s : State) : Prop := ∀ p ∈ s.workers, p = .returned

instance (s : State) : Decidable s.Joined := inferInstanceAs (Decidable (∀ p ∈ s.workers, _))

/-- What `build` prints at its end. -/
def State.report (s : State) : String :=
  if s.system.processedTargets = s.system.totalTargets then "Build Completed Successfully.\n"
  else "Cycle detected! Build Failed.\n"

/-! ## The dependency graph -/

/-- The build system after the calls `add_dependency(target, dependency)`, in this order. -/
def load (deps : List (String × String)) : BuildSystem :=
  deps.foldl (fun b p => b.addDependency p.1 p.2) {}

/-- `target` depends on `dependency`. -/
def Needs (deps : List (String × String)) (dependency target : String) : Prop :=
  (target, dependency) ∈ deps

/-- The calls in `main`. -/
def mainDeps : List (String × String) :=
  [("parser", "lexer"), ("parser", "ast"), ("main", "parser"), ("main", "utils")]

/-! ### What `add_dependency` records -/

namespace BuildSystem

variable (b : BuildSystem) (target dependency : String)

theorem count_graph_addDependency (d t : String) :
    ((b.addDependency target dependency).graph d).count t
      = (b.graph d).count t + if (target, dependency) = (t, d) then 1 else 0 := by
  unfold addDependency
  by_cases hd : dependency = d
  · subst hd
    simp [List.count_singleton]
  · simp [hd, Ne.symm hd]

theorem getD_lookup_insert (m : AList fun _ : String => ℤ) (c t : String) (n : ℤ) :
    ((m.insert c n).lookup t).getD 0 = if c = t then n else (m.lookup t).getD 0 := by
  by_cases hc : c = t
  · subst hc
    simp
  · rw [AList.lookup_insert_ne (Ne.symm hc), if_neg hc]

theorem degree_addDependency (t : String) :
    (b.addDependency target dependency).degree t
      = b.degree t + if target = t then 1 else 0 := by
  have hinsert : ((b.indegree.insert target (b.degree target + 1)).lookup t).getD 0
      = b.degree t + if target = t then 1 else 0 := by
    rw [getD_lookup_insert]
    split_ifs with ht
    · rw [ht]
    · exact (add_zero _).symm
  rw [← hinsert]
  unfold addDependency
  show (AList.lookup t (ite _ _ _)).getD 0 = _
  split_ifs with hmem
  · rfl
  · rw [getD_lookup_insert]
    split_ifs with ht
    · rw [← ht, AList.lookup_eq_none.mpr hmem]
      rfl
    · rfl

/-- Both targets are known afterwards. -/
theorem mem_addDependency (t : String) :
    t ∈ (b.addDependency target dependency).indegree
      ↔ t ∈ b.indegree ∨ t = target ∨ t = dependency := by
  unfold addDependency
  dsimp only
  split_ifs with hmem
  · rw [AList.mem_insert] at hmem ⊢
    constructor
    · tauto
    · rintro (h | h | rfl)
      · exact Or.inr h
      · exact Or.inl h
      · exact hmem
  · rw [AList.mem_insert, AList.mem_insert]
    tauto

end BuildSystem

section Load

variable (deps : List (String × String))

theorem load_snoc (p : String × String) :
    load (deps ++ [p]) = (load deps).addDependency p.1 p.2 := by
  simp [load]

/-- The children of `d` are the targets that depend on it, as often as they were declared to. -/
theorem count_graph_load (d t : String) :
    ((load deps).graph d).count t = deps.count (t, d) := by
  induction deps using List.reverseRecOn with
  | nil => rfl
  | append_singleton deps p ih =>
    rw [load_snoc, BuildSystem.count_graph_addDependency, ih, List.count_append,
      List.count_singleton]
    simp

/-- The indegree of `t` is the number of its declared dependencies. -/
theorem degree_load (t : String) :
    (load deps).degree t = (deps.countP fun p => p.1 = t : ℕ) := by
  induction deps using List.reverseRecOn with
  | nil => rfl
  | append_singleton deps p ih =>
    rw [load_snoc, BuildSystem.degree_addDependency, ih, List.countP_append]
    simp [List.countP_cons]

theorem mem_load (t : String) :
    t ∈ (load deps).indegree ↔ ∃ p ∈ deps, t = p.1 ∨ t = p.2 := by
  induction deps using List.reverseRecOn with
  | nil => simp [load]
  | append_singleton deps p ih =>
    rw [load_snoc, BuildSystem.mem_addDependency, ih]
    simp only [List.mem_append, List.mem_singleton, or_and_right, exists_or, exists_eq_left]

/-- The calls touch neither the queue nor the counters. -/
theorem load_idle :
    (load deps).readyQueue = [] ∧ (load deps).processedTargets = 0 ∧
      (load deps).activeWorkers = 0 ∧ (load deps).done = false := by
  induction deps using List.reverseRecOn with
  | nil => exact ⟨rfl, rfl, rfl, rfl⟩
  | append_singleton deps p ih =>
    rw [load_snoc]
    exact ih

end Load

/-! ### What `worker` does to the counts -/

namespace BuildSystem

/-- A dependency is counted off at `c`, which is queued when that was the last one. -/
theorem releaseChild_eq (b : BuildSystem) (c : String) :
    b.releaseChild c = { b with
      indegree := b.indegree.insert c (b.degree c - 1)
      readyQueue := b.readyQueue ++ if b.degree c = 1 then [c] else [] } := by
  have hdegree : ((b.indegree.insert c (b.degree c - 1)).lookup c).getD 0 = b.degree c - 1 := by
    rw [getD_lookup_insert, if_pos rfl]
  unfold releaseChild
  dsimp only
  by_cases hc : b.degree c = 1
  · rw [if_pos hc, if_pos]
    exact hdegree.trans (by omega)
  · rw [if_neg hc, if_neg, List.append_nil]
    exact fun h => hc (by have := hdegree.symm.trans h; omega)

theorem degree_releaseChild (b : BuildSystem) (c : String) :
    (b.releaseChild c).degree = lower b.degree c := by
  funext t
  rw [releaseChild_eq, degree, getD_lookup_insert, lower_apply]
  split_ifs with ht
  · rw [ht]
  · exact (sub_zero _).symm

/-- The loop over the children counts them off and queues those it releases. -/
theorem foldl_releaseChild (b : BuildSystem) (children : List String) :
    (children.foldl releaseChild b).degree = children.foldl lower b.degree ∧
      ∃ indegree, children.foldl releaseChild b = { b with
        indegree := indegree
        readyQueue := b.readyQueue ++ released b.degree children } := by
  induction children generalizing b with
  | nil => exact ⟨rfl, b.indegree, by rw [List.foldl_nil, released, List.append_nil]⟩
  | cons c cs ih =>
    obtain ⟨hdegree, indegree, hfold⟩ := ih (b.releaseChild c)
    rw [degree_releaseChild] at hdegree hfold
    refine ⟨hdegree, indegree, ?_⟩
    rw [List.foldl_cons, hfold, releaseChild_eq, released]
    dsimp only
    split_ifs
    · rw [List.append_assoc, List.singleton_append]
    · rw [List.append_nil]

/-- What the second critical section of `worker` does. -/
structure Completes (b : BuildSystem) (target : String) (b' : BuildSystem) : Prop where
  graph : b'.graph = b.graph
  total : b'.totalTargets = b.totalTargets
  degree : ∀ t, b'.degree t = b.degree t - (b.graph target).count t
  queue : b'.readyQueue = b.readyQueue ++ released b.degree (b.graph target)
  active : b'.activeWorkers = b.activeWorkers - 1
  processed : b'.processedTargets = b.processedTargets + 1
  done : b'.done = true ↔ b.done = true ∨ b'.processedTargets = b'.totalTargets ∨
    b'.readyQueue = [] ∧ b'.activeWorkers = 0

/-- The second critical section of `worker`. -/
theorem complete_spec (b : BuildSystem) (target : String) :
    b.Completes target (b.complete target) := by
  obtain ⟨hlower, indegree, hfold⟩ := b.foldl_releaseChild (b.graph target)
  have hdegree : ∀ t, (indegree.lookup t).getD 0 = b.degree t - (b.graph target).count t := by
    intro t
    rw [← foldl_lower, ← hlower, hfold]
    rfl
  unfold complete
  rw [hfold]
  dsimp only
  split_ifs with hdone
  · exact ⟨rfl, rfl, hdegree, rfl, rfl, rfl, iff_of_true rfl (.inr hdone)⟩
  · exact ⟨rfl, rfl, hdegree, rfl, rfl, rfl, (or_iff_left hdone).symm⟩

theorem take_target {b b' : BuildSystem} {target : String}
    (h : b.take = some (some target, b')) :
    ∃ rest, b.readyQueue = target :: rest ∧
      b' = { b with readyQueue := rest, activeWorkers := b.activeWorkers + 1 } := by
  unfold take at h
  split at h
  · split_ifs at h
    simp at h
  next t rest hqueue =>
    obtain ⟨ht, rfl⟩ := Prod.mk.inj (Option.some.inj h)
    obtain rfl := Option.some.inj ht
    exact ⟨rest, hqueue, rfl⟩

/-- A worker that returns found the queue empty and everything done. -/
theorem take_none {b b' : BuildSystem} (h : b.take = some (none, b')) :
    b.readyQueue = [] ∧ b.done = true ∧ b' = b := by
  unfold take at h
  split at h
  next hqueue =>
    split_ifs at h with hdone
    exact ⟨hqueue, hdone, (Prod.mk.inj (Option.some.inj h)).2.symm⟩
  · simp at h

end BuildSystem

/-! ### The steps -/

/-- The critical sections of a worker.  `others` are the other workers. -/
inductive Move (s : State) : State → Prop where
  | take {target : String} {rest : List String} {workers others : List Phase}
      (hold : s.workers.Perm (.waiting :: others))
      (hnew : workers.Perm (.taken target :: others))
      (hqueue : s.system.readyQueue = target :: rest) :
      Move s { s with
        system := { s.system with
          readyQueue := rest
          activeWorkers := s.system.activeWorkers + 1 }
        workers := workers }
  | leave {workers others : List Phase} (hold : s.workers.Perm (.waiting :: others))
      (hnew : workers.Perm (.returned :: others)) (hqueue : s.system.readyQueue = [])
      (hdone : s.system.done = true) :
      Move s { s with workers := workers }
  | announce {target : String} {id : ℕ} {workers others : List Phase}
      (hold : s.workers.Perm (.taken target :: others))
      (hnew : workers.Perm (.building target :: others)) :
      Move s { s with
        workers := workers
        output := s.output ++ [.building id target] }
  | finish {target : String} {id : ℕ} {workers others : List Phase}
      (hold : s.workers.Perm (.building target :: others))
      (hnew : workers.Perm (.finished target :: others)) :
      Move s { s with
        workers := workers
        output := s.output ++ [.finished id target] }
  | complete {target : String} {workers others : List Phase}
      (hold : s.workers.Perm (.finished target :: others))
      (hnew : workers.Perm (.waiting :: others)) :
      Move s { s with
        system := s.system.complete target
        workers := workers }

theorem exists_others {workers : List Phase} {i : ℕ} {p : Phase} (hi : workers[i]? = some p)
    (q : Phase) :
    ∃ others, workers.Perm (p :: others) ∧ (workers.set i q).Perm (q :: others) := by
  obtain ⟨hlt, rfl⟩ := List.getElem?_eq_some_iff.mp hi
  exact ⟨workers.eraseIdx i, (List.getElem_cons_eraseIdx_perm hlt).symm,
    List.set_perm_cons_eraseIdx hlt q⟩

theorem move_of_step {s s' : State} {i : ℕ} (h : step s i = some s') : Move s s' := by
  unfold step at h
  split at h
  next hi =>
    split at h
    next target b htake =>
      obtain rfl := Option.some.inj h
      obtain ⟨rest, hqueue, rfl⟩ := BuildSystem.take_target htake
      obtain ⟨others, hold, hnew⟩ := exists_others hi (.taken target)
      exact .take hold hnew hqueue
    next b htake =>
      obtain rfl := Option.some.inj h
      obtain ⟨hqueue, hdone, rfl⟩ := BuildSystem.take_none htake
      obtain ⟨others, hold, hnew⟩ := exists_others hi .returned
      exact .leave hold hnew hqueue hdone
    next => simp at h
  next target hi =>
    obtain rfl := Option.some.inj h
    obtain ⟨others, hold, hnew⟩ := exists_others hi (.building target)
    exact .announce hold hnew
  next target hi =>
    obtain rfl := Option.some.inj h
    obtain ⟨others, hold, hnew⟩ := exists_others hi (.finished target)
    exact .finish hold hnew
  next target hi =>
    obtain rfl := Option.some.inj h
    obtain ⟨others, hold, hnew⟩ := exists_others hi .waiting
    exact .complete hold hnew
  next => simp at h
  next => simp at h

end BuildSystems
