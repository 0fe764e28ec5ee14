/-
# When a parallel build returns

A target costs four critical sections and a worker one more, to return: no schedule is longer
(`Kahn.left_move`, by the variant rule).  And as long as something is queued or held, or
everything is done, some worker that has not returned can go on (`can_step`).  Only a build in
which no target is free of dependencies never gets that far: its workers wait for ever, and no
cycle is reported (`waits_of_no_source`).  So a build hangs exactly in that case
(`neverHangs_iff`).
-/
import SystemsDesign.BuildOrder

namespace BuildSystems

open AcyclicRelations TransitionSystem

variable {deps : List (String × String)} {processed : List String} {s s' : State}

/-! ## The length of a schedule -/

/-- The critical sections a worker has before it, up to the end of its round. -/
def Phase.left : Phase → ℕ
  | .waiting => 1
  | .taken _ => 4
  | .building _ => 3
  | .finished _ => 2
  | .returned => 0

/-- The critical sections of the workers' rounds and of the targets not yet taken. -/
def State.left (s : State) : ℕ :=
  (s.workers.map Phase.left).sum
    + 4 * (s.system.totalTargets - (s.system.processedTargets + (held s.workers).length))

theorem sum_left {workers others : List Phase} {p : Phase} (h : workers.Perm (p :: others)) :
    (workers.map Phase.left).sum = p.left + (others.map Phase.left).sum := by
  rw [(h.map Phase.left).sum_eq, List.map_cons, List.sum_cons]

theorem length_held {workers others : List Phase} {p : Phase} (h : workers.Perm (p :: others)) :
    (held workers).length = p.target.toList.length + (held others).length := by
  rw [held, (filterMap_perm h Phase.target).length_eq, List.length_append]
  rfl

theorem Kahn.left_move (h : Kahn deps processed s) (hmove : Move s s') : s'.left < s.left := by
  unfold State.left
  cases hmove with
  | @take t rest workers others hold hnew hqueue =>
    have hle := h.started.length_le
    rw [← h.total, List.length_append, List.length_append, ← h.count, hqueue,
      List.length_cons, length_held hold] at hle
    rw [sum_left hold, sum_left hnew, length_held hold, length_held hnew]
    simp only [Phase.left, Phase.target, Option.toList, List.length_nil,
      List.length_singleton] at hle ⊢
    omega
  | leave hold hnew _ _ | announce hold hnew | finish hold hnew =>
    rw [sum_left hold, sum_left hnew, length_held hold, length_held hnew]
    simp only [Phase.left, Phase.target, Option.toList, List.length_nil, List.length_singleton]
    omega
  | @complete d workers others hold hnew =>
    have hkahn := h.complete hold hnew
    have hcount : (s.system.complete d).processedTargets = _ := hkahn.count
    have htotal : (s.system.complete d).totalTargets = _ := hkahn.total
    rw [List.length_append, List.length_singleton, ← h.count] at hcount
    rw [hcount, htotal, ← h.total, sum_left hold, sum_left hnew, length_held hold,
      length_held hnew]
    simp only [Phase.left, Phase.target, Option.toList, List.length_nil, List.length_singleton]
    omega

/-! ## No worker is stuck -/

/-- Something is left to do, or the workers know that nothing is. -/
def Busy (s : State) : Prop :=
  s.system.done = true ∨ s.system.readyQueue ≠ [] ∨ held s.workers ≠ []

theorem Kahn.busy_move (h : Kahn deps processed s) (hbusy : Busy s) (hmove : Move s s') :
    Busy s' := by
  have hsame : ∀ {p q : Phase} {workers others : List Phase} (output : List Event),
      s.workers.Perm (p :: others) → workers.Perm (q :: others) → q.target = p.target →
      Busy ⟨s.system, workers, output⟩ := by
    intro p q workers others output hold hnew htarget
    refine hbusy.imp_right (Or.imp_right fun hne hnil => hne ?_)
    exact List.nil_perm.mp (hnil ▸ filterMap_perm_of_eq hold hnew htarget)
  cases hmove with
  | @take t rest workers others hold hnew hqueue =>
    refine .inr (.inr fun hnil => ?_)
    have hlength := length_held hnew
    rw [show held workers = [] from hnil] at hlength
    simp only [Phase.target, Option.toList, List.length_nil, List.length_singleton] at hlength
    omega
  | leave hold hnew _ _ => exact hsame _ hold hnew rfl
  | announce hold hnew => exact hsame _ hold hnew rfl
  | finish hold hnew => exact hsame _ hold hnew rfl
  | @complete d workers others hold hnew =>
    by_cases hqueue : (s.system.complete d).readyQueue = []
    · by_cases hheld : held workers = []
      · -- the second critical section notices that nothing is queued or built any more
        refine .inl ((s.system.complete_spec d).done.mpr (.inr (.inr ⟨hqueue, ?_⟩)))
        have hactive : (s.system.complete d).activeWorkers = (held workers).length :=
          (h.complete hold hnew).active
        rw [hactive, hheld]
        rfl
      · exact .inr (.inr hheld)
    · exact .inr (.inl hqueue)

/-- A worker that holds a target can go on, and so can one that waits, unless it waits
rightly. -/
theorem can_step (hbusy : Busy s) (hjoined : ¬ s.Joined) : ∃ i, (step s i).isSome = true := by
  by_cases hheld : ∃ (p : Phase) (t : String), p ∈ s.workers ∧ p.target = some t
  · obtain ⟨p, t, hp, ht⟩ := hheld
    obtain ⟨i, hi⟩ := List.mem_iff_getElem?.mp hp
    refine ⟨i, ?_⟩
    unfold step
    rw [hi]
    cases p with
    | waiting | returned => exact absurd ht (by simp [Phase.target])
    | taken | building | finished => rfl
  · push Not at hheld
    unfold State.Joined at hjoined
    push Not at hjoined
    obtain ⟨p, hp, hreturned⟩ := hjoined
    obtain ⟨i, hi⟩ := List.mem_iff_getElem?.mp hp
    refine ⟨i, ?_⟩
    unfold step
    rw [hi]
    cases p with
    | returned => exact absurd rfl hreturned
    | taken t | building t | finished t => exact absurd rfl (hheld _ t hp)
    | waiting =>
      have hnil : held s.workers = [] := by
        apply List.filterMap_eq_nil_iff.mpr
        intro q hq
        exact Option.eq_none_iff_forall_ne_some.mpr fun t => hheld q t hq
      dsimp only
      unfold BuildSystem.take
      cases hqueue : s.system.readyQueue with
      | cons t rest => rfl
      | nil =>
        have hdone : s.system.done = true := by
          rcases hbusy with hd | hq | hh
          · exact hd
          · exact absurd hqueue hq
          · exact absurd hnil hh
        simp [hdone]

theorem busy_step {i : ℕ} (h : (∃ processed, Inv deps processed s) ∧ Busy s)
    (hstep : step s i = some s') : (∃ processed, Inv deps processed s') ∧ Busy s' := by
  obtain ⟨⟨processed, hinv⟩, hbusy⟩ := h
  have hmove := move_of_step hstep
  exact ⟨hinv.move hmove, hinv.kahn.busy_move hbusy hmove⟩

theorem busy_start {order : List String} (horder : order.Perm (load deps).sources)
    (hsource : (load deps).sources ≠ []) (n : ℕ) :
    (∃ processed, Inv deps processed (start (load deps) order n)) ∧
      Busy (start (load deps) order n) := by
  refine ⟨⟨[], inv_start horder n⟩, .inr (.inl fun hnil => hsource ?_)⟩
  have hnil' := (List.append_eq_nil_iff.mp hnil).2
  exact List.nil_perm.mp (hnil' ▸ horder)

/-- **A build with a target to begin with returns.**  Whatever the schedule, it ends after at
most four critical sections for each target and one for each worker, and as long as a worker
has not returned, one can go on. -/
theorem build_returns (deps : List (String × String)) (order : List String)
    (horder : order.Perm (load deps).sources) (hsource : (load deps).sources ≠ [])
    (numThreads : ℕ) (schedule : List ℕ) (s : State)
    (hrun : run step (start (load deps) order numThreads) schedule = some s) :
    schedule.length ≤ 4 * (load deps).indegree.keys.length + numThreads ∧
      (s.Joined ∨ ∃ i, (step s i).isSome = true) := by
  have hleft : ∀ s i s', (∃ processed, Inv deps processed s) ∧ Busy s → step s i = some s' →
      s'.left < s.left := by
    rintro s i s' ⟨⟨processed, h⟩, -⟩ hs'
    exact h.kahn.left_move (move_of_step hs')
  have hstart := busy_start horder hsource numThreads
  refine ⟨?_, ?_⟩
  · have hle := run_length_le (fun _ _ _ h hs => busy_step h hs) hleft hstart hrun
    have hinit : (start (load deps) order numThreads).left
        = numThreads + 4 * (load deps).indegree.keys.length := by
      simp [State.left, start, held_waiting, Phase.left, (load_idle deps).2.1]
    omega
  · by_cases hjoined : s.Joined
    · exact .inl hjoined
    · exact .inr (can_step (run_invariant (fun _ _ _ h hs => busy_step h hs) hstart hrun).2
        hjoined)

theorem build_returns_main :
    ∃ s, run step (start (load mainDeps) ["lexer", "utils", "ast"] 2) mainSchedule = some s ∧
      (s.Joined ∨ ∃ i, (step s i).isSome = true) := by
  have hsome : (run step (start (load mainDeps) ["lexer", "utils", "ast"] 2)
      mainSchedule).isSome = true := by
    decide
  obtain ⟨s, hs⟩ := Option.isSome_iff_exists.mp hsome
  exact ⟨s, hs, (build_returns mainDeps _ (by decide) (by decide) 2 mainSchedule s hs).2⟩

/-- When every target has a dependency, no worker ever gets beyond its first wait. -/
theorem waits_of_no_source {order : List String} (horder : order.Perm (load deps).sources)
    (hsource : (load deps).sources = []) (numThreads i : ℕ) :
    step (start (load deps) order numThreads) i = none := by
  obtain ⟨hqueue, -, -, hdone⟩ := load_idle deps
  have htake : (start (load deps) order numThreads).system.take = none := by
    rw [hsource] at horder
    simp [start, BuildSystem.take, hqueue, List.perm_nil.mp horder, hdone]
  unfold step
  rw [htake]
  cases hi : (start (load deps) order numThreads).workers[i]? with
  | none => rfl
  | some p =>
    obtain rfl := List.eq_of_mem_replicate (List.mem_of_getElem? hi)
    rfl

/-! ## Builds that hang -/

/-- All workers wait, nothing is queued or built, and nobody has noticed the end. -/
def Hung (s : State) : Prop :=
  (∀ p ∈ s.workers, p = .waiting) ∧ s.system.readyQueue = [] ∧ s.system.activeWorkers = 0 ∧
    s.system.done = false

/-- No schedule of the build leads to a state in which it hangs. -/
def NeverHangs (deps : List (String × String)) (numThreads : ℕ) : Prop :=
  ∀ order schedule s, order.Perm (load deps).sources →
    run step (start (load deps) order numThreads) schedule = some s → ¬ Hung s

/-- The targets that `build` queues are the dependencies that were never declared to depend on
anything. -/
theorem mem_sources {t : String} :
    t ∈ (load deps).sources ↔ (∃ p ∈ deps, t = p.2) ∧ ∀ q ∈ deps, q.1 ≠ t := by
  have hfree : (load deps).degree t = 0 ↔ ∀ q ∈ deps, q.1 ≠ t := by
    rw [degree_load, Nat.cast_eq_zero, List.countP_eq_zero]
    simp
  rw [BuildSystem.sources, List.mem_filter, decide_eq_true_eq, hfree, ← AList.mem_keys, mem_load]
  constructor
  · rintro ⟨⟨p, hp, heq | heq⟩, hq⟩
    · exact absurd heq.symm (hq p hp)
    · exact ⟨⟨p, hp, heq⟩, hq⟩
  · rintro ⟨⟨p, hp, heq⟩, hq⟩
    exact ⟨⟨p, hp, .inr heq⟩, hq⟩

example : (load mainDeps).sources = ["utils", "ast", "lexer"] := by decide

/-- **A build never hangs exactly if some dependency has no dependencies itself.** -/
theorem neverHangs_iff (deps : List (String × String)) (numThreads : ℕ) :
    NeverHangs deps numThreads ↔ ∃ p ∈ deps, ∀ q ∈ deps, q.1 ≠ p.2 := by
  constructor
  · intro h
    by_contra hnone
    push Not at hnone
    have hsources : (load deps).sources = [] := by
      apply List.eq_nil_iff_forall_not_mem.mpr
      intro t ht
      obtain ⟨⟨p, hp, rfl⟩, hfree⟩ := mem_sources.mp ht
      obtain ⟨q, hq, heq⟩ := hnone p hp
      exact hfree q hq heq
    -- the very first state is one in which all workers wait for ever
    obtain ⟨hqueue, -, hactive, hdone⟩ := load_idle deps
    refine h [] [] _ (by rw [hsources]) rfl ⟨?_, ?_, hactive, hdone⟩
    · exact fun p hp => List.eq_of_mem_replicate hp
    · show (load deps).readyQueue ++ [] = []
      rw [hqueue, List.append_nil]
  · rintro ⟨p, hp, hfree⟩ order schedule s horder hrun ⟨hwaiting, hqueue, -, hdone⟩
    have hsource : (load deps).sources ≠ [] :=
      List.ne_nil_of_mem (mem_sources.mpr ⟨⟨p, hp, rfl⟩, hfree⟩)
    have hbusy := (run_invariant (fun _ _ _ h hs => busy_step h hs)
      (busy_start horder hsource numThreads) hrun).2
    rcases hbusy with hd | hq | hheld
    · rw [hdone] at hd
      cases hd
    · exact hq hqueue
    · refine hheld (List.filterMap_eq_nil_iff.mpr fun q hq => ?_)
      rw [hwaiting q hq]
      rfl

/-- Two targets that depend on each other: the worker waits for ever. -/
theorem cyclic_build_hangs : ¬ NeverHangs [("a", "b"), ("b", "a")] 1 ∧
    ∀ i, step (start (load [("a", "b"), ("b", "a")]) [] 1) i = none := by
  refine ⟨fun h => ?_, waits_of_no_source (by decide) (by decide) 1⟩
  exact h [] [] (start (load [("a", "b"), ("b", "a")]) [] 1) (by decide) rfl
    ⟨by decide, by decide, by decide, by decide⟩

end BuildSystems
