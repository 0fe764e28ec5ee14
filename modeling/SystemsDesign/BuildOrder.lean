/-
# The order of a parallel build

Kahn's algorithm, run by several workers.  Write `processed` for the targets that were counted
off so far, in this order.  The indegree of a target is the number of its declared
dependencies that are not among them (`missing`); the targets processed, held by a worker or
queued are pairwise different, and they are those that miss nothing (`Started`).  From this
everything else follows: a target is taken once and after its dependencies, `processed` is a
topological order, and when nothing is held or queued the targets left over all miss another of
them, so that they contain a cycle.

`build_order` is the result about `build`; `BuildTermination` says when it returns.
-/
import SystemsDesign.AcyclicRelations
import SystemsDesign.BuildSystem
import SystemsDesign.TransitionSystem

namespace BuildSystems

open AcyclicRelations CountingDown TransitionSystem

variable {deps : List (String × String)} {processed : List String}

/-! ## Missing dependencies -/

/-- How many of the declared dependencies of `t` are not processed. -/
def missing (deps : List (String × String)) (processed : List String) (t : String) : ℕ :=
  deps.countP fun p => p.1 = t ∧ p.2 ∉ processed

theorem missing_eq_zero {t : String} :
    missing deps processed t = 0 ↔ ∀ d, Needs deps d t → d ∈ processed := by
  rw [missing, List.countP_eq_zero]
  constructor
  · intro h d hd
    have hp := h (t, d) hd
    simpa using hp
  · rintro h ⟨t', d⟩ hp
    simp only [decide_eq_true_eq, not_and, not_not]
    rintro rfl
    exact h d hp

/-- Processing `d` settles the dependencies on it. -/
theorem missing_snoc {d : String} (hd : d ∉ processed) (t : String) :
    missing deps processed t = missing deps (processed ++ [d]) t + deps.count (t, d) := by
  unfold missing
  induction deps with
  | nil => rfl
  | cons p deps ih =>
    simp only [List.countP_cons, List.count_cons, ih, decide_eq_true_eq, List.mem_append,
      List.mem_singleton, not_or, beq_iff_eq]
    obtain ⟨t', d'⟩ := p
    by_cases ht : t' = t
    · by_cases hd' : d' = d
      · subst ht hd'
        simp [hd]
        omega
      · simp [ht, hd']
        omega
    · simp [ht]

/-- The targets that were queued at some time: pairwise different, and those that miss
nothing. -/
structure Started (deps : List (String × String)) (processed l : List String) : Prop where
  nodup : l.Nodup
  mem : ∀ t, t ∈ l ↔ t ∈ (load deps).indegree ∧ missing deps processed t = 0

theorem Started.perm {l l' : List String} (h : Started deps processed l) (hl : l.Perm l') :
    Started deps processed l' :=
  ⟨hl.nodup_iff.mp h.nodup, fun t => hl.mem_iff.symm.trans (h.mem t)⟩

theorem Started.length_le {l : List String} (h : Started deps processed l) :
    l.length ≤ (load deps).indegree.keys.length :=
  (List.subperm_of_subset h.nodup fun t ht => AList.mem_keys.mp ((h.mem t).mp ht).1).length_le

/-- Processing `d` starts those of its children that were missing nothing else. -/
theorem Started.release {l released : List String} {d : String} (h : Started deps processed l)
    (hd : d ∉ processed) (hnodup : released.Nodup)
    (hmem : ∀ t, t ∈ released ↔
      t ∈ (load deps).graph d ∧ missing deps processed t = deps.count (t, d)) :
    Started deps (processed ++ [d]) (l ++ released) := by
  have hpos : ∀ t, t ∈ (load deps).graph d ↔ 0 < deps.count (t, d) := by
    intro t
    rw [← List.count_pos_iff, count_graph_load]
  refine ⟨List.nodup_append.mpr ⟨h.nodup, hnodup, ?_⟩, fun t => ?_⟩
  · -- a released target was missing something before
    rintro t ht _ hr rfl
    obtain ⟨hgraph, hmissing⟩ := (hmem t).mp hr
    have hzero := ((h.mem t).mp ht).2
    have := (hpos t).mp hgraph
    omega
  · have hsnoc : missing deps processed t = _ := missing_snoc hd t
    rw [List.mem_append, h.mem, hmem, hpos]
    constructor
    · rintro (⟨hin, hzero⟩ | ⟨hcount, hmissing⟩)
      · exact ⟨hin, by omega⟩
      · exact ⟨(mem_load deps t).mpr ⟨(t, d), List.count_pos_iff.mp hcount, .inl rfl⟩, by omega⟩
    · rintro ⟨hin, hzero⟩
      by_cases hcount : 0 < deps.count (t, d)
      · exact .inr ⟨hcount, by omega⟩
      · exact .inl ⟨hin, by omega⟩

/-! ## The invariant of the counters -/

/-- The target a worker holds. -/
def Phase.target : Phase → Option String
  | .taken target | .building target | .finished target => some target
  | .waiting | .returned => none

/-- The targets that the workers hold. -/
def held (workers : List Phase) : List String := workers.filterMap Phase.target

/-- The shared state and the workers, after `processed` was counted off. -/
structure Kahn (deps : List (String × String)) (processed : List String) (s : State) :
    Prop where
  graph : s.system.graph = (load deps).graph
  degree : ∀ t, s.system.degree t = missing deps processed t
  started : Started deps processed (processed ++ held s.workers ++ s.system.readyQueue)
  order : Topological (Needs deps) processed
  active : s.system.activeWorkers = (held s.workers).length
  count : s.system.processedTargets = processed.length
  total : s.system.totalTargets = (load deps).indegree.keys.length
  idle : s.system.done = true → held s.workers = [] ∧ s.system.readyQueue = []
  done : .returned ∈ s.workers → s.system.done = true

/-- What a list of workers has of one kind, when one of them is singled out. -/
theorem filterMap_perm {workers others : List Phase} {p : Phase}
    (h : workers.Perm (p :: others)) (f : Phase → Option String) :
    (workers.filterMap f).Perm ((f p).toList ++ others.filterMap f) := by
  apply (h.filterMap f).trans
  rw [List.filterMap_cons]
  cases f p <;> exact List.Perm.refl _

theorem filterMap_perm_of_eq {workers workers' others : List Phase} {p q : Phase}
    {f : Phase → Option String} (hold : workers.Perm (p :: others))
    (hnew : workers'.Perm (q :: others)) (hf : f q = f p) :
    (workers'.filterMap f).Perm (workers.filterMap f) := by
  have hq := filterMap_perm hnew f
  rw [hf] at hq
  exact hq.trans (filterMap_perm hold f).symm

theorem returned_mem {workers workers' others : List Phase} {p q : Phase}
    (hold : workers.Perm (p :: others)) (hnew : workers'.Perm (q :: others))
    (hq : q ≠ .returned) (hr : .returned ∈ workers') : .returned ∈ workers := by
  rcases List.mem_cons.mp (hnew.mem_iff.mp hr) with hr | hr
  · exact absurd hr.symm hq
  · exact hold.mem_iff.mpr (List.mem_cons_of_mem _ hr)

namespace Kahn

variable {s : State} (h : Kahn deps processed s)
include h

theorem started_held {others : List Phase} {p : Phase} {t : String}
    (hold : s.workers.Perm (p :: others)) (ht : p.target = some t) :
    Started deps processed (processed ++ (t :: held others) ++ s.system.readyQueue) := by
  refine h.started.perm ((List.Perm.append_left _ ?_).append_right _)
  have hperm := filterMap_perm hold Phase.target
  rwa [ht] at hperm

theorem of_held {others : List Phase} {p : Phase} {t : String}
    (hold : s.workers.Perm (p :: others)) (ht : p.target = some t) :
    (∀ d, Needs deps d t → d ∈ processed) ∧ t ∉ processed := by
  have hstarted := h.started_held hold ht
  have hmem : t ∈ processed ++ (t :: held others) ++ s.system.readyQueue := by simp
  refine ⟨missing_eq_zero.mp ((hstarted.mem t).mp hmem).2, fun hp => ?_⟩
  have hnodup := (List.nodup_append.mp hstarted.nodup).1
  exact (List.nodup_append.mp hnodup).2.2 t hp t List.mem_cons_self rfl

/-- Steps that move a worker without touching the shared state or the targets that are held. -/
theorem of_workers {workers : List Phase} (output : List Event)
    (hheld : (held workers).Perm (held s.workers))
    (hdone : .returned ∈ workers → s.system.done = true) :
    Kahn deps processed ⟨s.system, workers, output⟩ where
  graph := h.graph
  degree := h.degree
  started := h.started.perm ((hheld.symm.append_left _).append_right _)
  order := h.order
  active := h.active.trans (by rw [hheld.length_eq])
  count := h.count
  total := h.total
  idle hd := ⟨List.perm_nil.mp ((h.idle hd).1 ▸ hheld), (h.idle hd).2⟩
  done := hdone

/-- Popping a target moves it from the queue to the worker. -/
theorem take {t : String} {rest : List String} {workers others : List Phase}
    (hold : s.workers.Perm (.waiting :: others)) (hnew : workers.Perm (.taken t :: others))
    (hqueue : s.system.readyQueue = t :: rest) :
    Kahn deps processed { s with
      system := { s.system with
        readyQueue := rest
        activeWorkers := s.system.activeWorkers + 1 }
      workers := workers } := by
  have hheld : (held s.workers).Perm (held others) := filterMap_perm hold Phase.target
  have hheld' : (held workers).Perm (t :: held others) := filterMap_perm hnew Phase.target
  have hnotDone : s.system.done ≠ true := by
    intro hd
    rw [(h.idle hd).2] at hqueue
    exact List.cons_ne_nil _ _ hqueue.symm
  refine ⟨h.graph, h.degree, ?_, h.order, ?_, h.count, h.total, fun hd => absurd hd hnotDone, ?_⟩
  · apply h.started.perm
    rw [hqueue, List.append_assoc, List.append_assoc]
    apply List.Perm.append_left _
    exact (hheld.append_right _).trans (List.perm_middle.trans (hheld'.symm.append_right rest))
  · show s.system.activeWorkers + 1 = _
    rw [h.active, hheld.length_eq, hheld'.length_eq, List.length_cons]
    push_cast
    rfl
  · exact fun hr => h.done (returned_mem hold hnew (by simp) hr)

/-- Counting off a target moves it to the processed ones and queues the children that were
missing nothing else. -/
theorem complete {d : String} {workers others : List Phase}
    (hold : s.workers.Perm (.finished d :: others)) (hnew : workers.Perm (.waiting :: others)) :
    Kahn deps (processed ++ [d]) { s with
      system := s.system.complete d
      workers := workers } := by
  obtain ⟨hneeds, hd⟩ := h.of_held hold rfl
  have hheld : (held s.workers).Perm (d :: held others) := filterMap_perm hold Phase.target
  have hheld' : (held workers).Perm (held others) := filterMap_perm hnew Phase.target
  have hcount : ∀ t, (s.system.graph d).count t = deps.count (t, d) := by
    intro t
    rw [h.graph, count_graph_load]
  have hsnoc : ∀ t, missing deps processed t
      = missing deps (processed ++ [d]) t + deps.count (t, d) := missing_snoc hd
  have hc := s.system.complete_spec d
  have hle : ∀ t, ((s.system.graph d).count t : ℤ) ≤ s.system.degree t := by
    intro t
    rw [hcount, h.degree, hsnoc]
    omega
  have hstarted : Started deps (processed ++ [d])
      (processed ++ [d] ++ held workers ++ (s.system.complete d).readyQueue) := by
    refine ((h.started_held hold rfl).release hd (nodup_released hle) fun t => ?_).perm ?_
    · rw [mem_released hle, h.graph, h.degree, count_graph_load, Nat.cast_inj]
    · rw [hc.queue, ← List.append_assoc]
      refine List.Perm.append_right _ (List.Perm.append_right _ ?_)
      rw [List.append_assoc]
      exact List.Perm.append_left _ (hheld'.symm.cons d)
  have hactive : (s.system.complete d).activeWorkers = (held workers).length := by
    rw [hc.active, h.active, hheld.length_eq, hheld'.length_eq, List.length_cons]
    push_cast
    omega
  have hprocessed : (s.system.complete d).processedTargets = (processed ++ [d]).length := by
    rw [hc.processed, h.count, List.length_append, List.length_singleton]
  refine ⟨hc.graph.trans h.graph, fun t => ?_, hstarted, .snoc h.order hneeds, hactive,
    hprocessed, hc.total.trans h.total, fun hdone => ?_, fun hr => ?_⟩
  · show (s.system.complete d).degree t = _
    rw [hc.degree, h.degree, hcount, hsnoc]
    omega
  · -- the two ways to be done leave no room for other started targets
    show held workers = [] ∧ (s.system.complete d).readyQueue = []
    rcases hc.done.mp hdone with hdone | hall | ⟨hqueue, hzero⟩
    · have hnil := (h.idle hdone).1 ▸ hheld
      exact absurd (List.nil_perm.mp hnil) (List.cons_ne_nil _ _)
    · have hle := hstarted.length_le
      rw [hprocessed, hc.total, h.total] at hall
      rw [List.length_append, List.length_append, ← hall] at hle
      exact ⟨List.eq_nil_of_length_eq_zero (by omega),
        List.eq_nil_of_length_eq_zero (by omega)⟩
    · rw [hactive] at hzero
      exact ⟨List.eq_nil_of_length_eq_zero (by omega), hqueue⟩
  · exact hc.done.mpr (.inl (h.done (returned_mem hold hnew (by simp) hr)))

end Kahn

theorem held_waiting (n : ℕ) : held (List.replicate n .waiting) = [] := by
  simp [held, Phase.target]

theorem kahn_start {order : List String} (horder : order.Perm (load deps).sources) (n : ℕ) :
    Kahn deps [] (start (load deps) order n) := by
  obtain ⟨hqueue, hprocessed, hactive, hdone⟩ := load_idle deps
  have hdegree : ∀ t, (load deps).degree t = missing deps [] t := by
    intro t
    rw [degree_load, missing]
    simp
  refine ⟨rfl, hdegree, ?_, .nil, ?_, hprocessed, rfl, ?_, ?_⟩
  · show Started deps [] ([] ++ held (List.replicate n Phase.waiting)
      ++ ((load deps).readyQueue ++ order))
    rw [held_waiting, hqueue]
    refine ⟨horder.nodup_iff.mpr ((load deps).indegree.keys_nodup.filter _), fun t => ?_⟩
    rw [List.nil_append, List.nil_append, List.nil_append, horder.mem_iff, BuildSystem.sources,
      List.mem_filter, decide_eq_true_eq, hdegree, AList.mem_keys, Nat.cast_eq_zero]
  · show (load deps).activeWorkers = _
    rw [hactive]
    show 0 = ((held (List.replicate n Phase.waiting)).length : ℤ)
    rw [held_waiting]
    rfl
  · intro hd
    exact absurd (hd.symm.trans hdone) (by decide)
  · intro hr
    exact absurd (List.eq_of_mem_replicate hr) (by decide)

/-! ## The invariant of the output -/

/-- The target whose building a line announces. -/
def Event.begun : Event → Option String
  | .building _ target => some target
  | .finished _ _ => none

/-- The target that a line says is finished. -/
def Event.ended : Event → Option String
  | .building _ _ => none
  | .finished _ target => some target

/-- The target whose building was announced by a worker that is not yet through with it. -/
def Phase.begun : Phase → Option String
  | .building target | .finished target => some target
  | .waiting | .taken _ | .returned => none

/-- The target a worker has finished and not counted off. -/
def Phase.ended : Phase → Option String
  | .finished target => some target
  | .waiting | .taken _ | .building _ | .returned => none

/-- The lines of one kind are about the processed targets and those of the workers in the
phases of that kind, each once. -/
def Accounts (g : Event → Option String) (f : Phase → Option String) (processed : List String)
    (workers : List Phase) (output : List Event) : Prop :=
  (output.filterMap g).Perm (processed ++ workers.filterMap f)

namespace Accounts

variable {g : Event → Option String} {f : Phase → Option String} {workers workers' : List Phase}
  {others : List Phase} {output : List Event} {p q : Phase}
  (h : Accounts g f processed workers output) (hold : workers.Perm (p :: others))
  (hnew : workers'.Perm (q :: others))
include h hold hnew

/-- A step within or outside the phases of the kind, with no line of that kind. -/
theorem keep (hf : f q = f p) {output' : List Event}
    (hlines : output'.filterMap g = output.filterMap g) :
    Accounts g f processed workers' output' := by
  unfold Accounts
  rw [hlines]
  exact h.trans ((filterMap_perm_of_eq hold hnew hf).symm.append_left _)

theorem print {e : Event} (hp : f p = none) (hq : f q = g e) :
    Accounts g f processed workers' (output ++ [e]) := by
  have hp' := filterMap_perm hold f
  have hq' := filterMap_perm hnew f
  rw [hp] at hp'
  rw [hq] at hq'
  have he : [e].filterMap g = (g e).toList := by
    rw [List.filterMap_cons, List.filterMap_nil]
    cases g e <;> rfl
  unfold Accounts
  rw [List.filterMap_append, he]
  have hsnoc : (output.filterMap g ++ (g e).toList).Perm
      (processed ++ (others.filterMap f ++ (g e).toList)) := by
    rw [← List.append_assoc]
    exact (h.trans (hp'.append_left _)).append_right _
  exact hsnoc.trans ((List.perm_append_comm.trans hq'.symm).append_left _)

/-- A step out of the phases of the kind counts its target off. -/
theorem count {d : String} (hp : f p = some d) (hq : f q = none) :
    Accounts g f (processed ++ [d]) workers' output := by
  have hp' := filterMap_perm hold f
  have hq' := filterMap_perm hnew f
  rw [hp] at hp'
  rw [hq] at hq'
  unfold Accounts
  rw [List.append_assoc]
  exact h.trans ((hp'.trans (hq'.symm.append_left [d])).append_left _)

end Accounts

/-- Each announcement comes after the dependencies were finished. -/
def Ordered (deps : List (String × String)) (output : List Event) : Prop :=
  ∀ before id t after, output = before ++ .building id t :: after →
    ∀ d, Needs deps d t → d ∈ before.filterMap Event.ended

/-- One more line keeps the order when it announces nothing, or a target whose dependencies
were finished. -/
theorem Ordered.snoc {output : List Event} {e : Event} (h : Ordered deps output)
    (he : ∀ id t, e = .building id t →
      ∀ d, Needs deps d t → d ∈ output.filterMap Event.ended) :
    Ordered deps (output ++ [e]) := by
  intro before id t after heq
  rcases List.eq_nil_or_concat after with rfl | ⟨after, e', rfl⟩
  · obtain ⟨rfl, hcons⟩ := List.append_inj' heq rfl
    exact he id t (List.cons.inj hcons).1
  · rw [List.concat_eq_append, ← List.cons_append, ← List.append_assoc] at heq
    exact h before id t after (List.append_inj' heq rfl).1

/-- The whole invariant, after `processed` was counted off. -/
structure Inv (deps : List (String × String)) (processed : List String) (s : State) : Prop where
  kahn : Kahn deps processed s
  begun : Accounts Event.begun Phase.begun processed s.workers s.output
  ended : Accounts Event.ended Phase.ended processed s.workers s.output
  ordered : Ordered deps s.output

/-- **Every critical section keeps the invariant.** -/
theorem Inv.move {s s' : State} (h : Inv deps processed s) (hmove : Move s s') :
    ∃ processed', Inv deps processed' s' := by
  cases hmove with
  | take hold hnew hqueue =>
    exact ⟨processed, h.kahn.take hold hnew hqueue, h.begun.keep hold hnew rfl rfl,
      h.ended.keep hold hnew rfl rfl, h.ordered⟩
  | leave hold hnew hqueue hdone =>
    have hheld := filterMap_perm_of_eq (f := Phase.target) hold hnew rfl
    exact ⟨processed, h.kahn.of_workers _ hheld fun _ => hdone, h.begun.keep hold hnew rfl rfl,
      h.ended.keep hold hnew rfl rfl, h.ordered⟩
  | @announce target id workers others hold hnew =>
    have hheld := filterMap_perm_of_eq (f := Phase.target) hold hnew rfl
    refine ⟨processed, h.kahn.of_workers _ hheld ?_, h.begun.print hold hnew rfl rfl,
      h.ended.keep hold hnew rfl (by simp [Event.ended]), h.ordered.snoc ?_⟩
    · exact fun hr => h.kahn.done (returned_mem hold hnew (by simp) hr)
    · -- the worker holds the target, so its dependencies were counted off
      rintro id' t ht d hd
      obtain ⟨-, rfl⟩ := Event.building.inj ht
      exact h.ended.mem_iff.mpr (List.mem_append_left _ ((h.kahn.of_held hold rfl).1 d hd))
  | finish hold hnew =>
    have hheld := filterMap_perm_of_eq (f := Phase.target) hold hnew rfl
    refine ⟨processed, h.kahn.of_workers _ hheld ?_,
      h.begun.keep hold hnew rfl (by simp [Event.begun]), h.ended.print hold hnew rfl rfl,
      h.ordered.snoc (by simp)⟩
    exact fun hr => h.kahn.done (returned_mem hold hnew (by simp) hr)
  | complete hold hnew =>
    exact ⟨_, h.kahn.complete hold hnew, h.begun.count hold hnew rfl rfl,
      h.ended.count hold hnew rfl rfl, h.ordered⟩

theorem inv_start {order : List String} (horder : order.Perm (load deps).sources) (n : ℕ) :
    Inv deps [] (start (load deps) order n) := by
  refine ⟨kahn_start horder n, ?_, ?_, ?_⟩
  · simp [Accounts, start, Phase.begun]
  · simp [Accounts, start, Phase.ended]
  · intro before id t after heq
    simp [start] at heq

theorem inv_run {order : List String} (horder : order.Perm (load deps).sources) {n : ℕ}
    {schedule : List ℕ} {s : State}
    (hrun : run step (start (load deps) order n) schedule = some s) :
    ∃ processed, Inv deps processed s := by
  have hstep : ∀ s i s', (∃ processed, Inv deps processed s) → step s i = some s' →
      ∃ processed, Inv deps processed s' := by
    rintro s i s' ⟨processed, h⟩ hs'
    exact h.move (move_of_step hs')
  exact run_invariant hstep ⟨[], inv_start horder n⟩ hrun

/-! ## The verdict -/

theorem Started.perm_keys {l : List String} (h : Started deps processed l)
    (hlen : l.length = (load deps).indegree.keys.length) : l.Perm (load deps).indegree.keys :=
  (List.subperm_of_subset h.nodup fun t ht =>
    AList.mem_keys.mp ((h.mem t).mp ht).1).perm_of_length_le hlen.ge

/-- When everything started is processed, what is left over of an acyclic graph would have a
source, and a source misses nothing. -/
theorem Started.all_of_acyclic (h : Started deps processed processed)
    (hacyclic : Acyclic (Needs deps)) {t : String} (ht : t ∈ (load deps).indegree) :
    t ∈ processed := by
  by_contra hnot
  have hfin : {t | t ∈ (load deps).indegree ∧ t ∉ processed}.Finite :=
    (load deps).indegree.keys.toFinset.finite_toSet.subset fun x hx => by
      simpa using AList.mem_keys.mp hx.1
  obtain ⟨x, ⟨hx, hxnot⟩, hsource⟩ := hacyclic.exists_source hfin ⟨t, ht, hnot⟩
  refine hxnot ((h.mem x).mpr ⟨hx, missing_eq_zero.mpr fun d hd => ?_⟩)
  by_contra hdnot
  exact hsource d ⟨(mem_load deps d).mpr ⟨(x, d), hd, .inr rfl⟩, hdnot⟩ hd

/-- When everything started is processed, all targets are exactly if there is no cycle. -/
theorem Started.length_eq_iff (h : Started deps processed processed)
    (horder : Topological (Needs deps) processed) :
    processed.length = (load deps).indegree.keys.length ↔ Acyclic (Needs deps) := by
  constructor
  · intro hlen
    refine horder.acyclic fun d t hd => (h.perm_keys hlen).mem_iff.mpr (AList.mem_keys.mp ?_)
    exact (mem_load deps t).mpr ⟨(t, d), hd, .inl rfl⟩
  · intro hacyclic
    refine ((List.perm_ext_iff_of_nodup h.nodup (load deps).indegree.keys_nodup).mpr
      fun t => ⟨fun ht => ?_, fun ht => ?_⟩).length_eq
    · exact AList.mem_keys.mp ((h.mem t).mp ht).1
    · exact h.all_of_acyclic hacyclic (AList.mem_keys.mpr ht)

theorem Move.length_eq {s s' : State} (h : Move s s') : s'.workers.length = s.workers.length := by
  cases h with
  | take hold hnew _ | leave hold hnew _ _ | announce hold hnew | finish hold hnew
  | complete hold hnew => exact hnew.length_eq.trans hold.length_eq.symm

theorem length_run {b : BuildSystem} {order : List String} {n : ℕ} {schedule : List ℕ}
    {s : State} (hrun : run step (start b order n) schedule = some s) :
    s.workers.length = n := by
  have hstep : ∀ s i s', s.workers.length = n → step s i = some s' → s'.workers.length = n :=
    fun s i s' hs hs' => (move_of_step hs').length_eq.trans hs
  exact run_invariant hstep List.length_replicate hrun

/-- The workers whose building was announced hold their targets. -/
theorem begun_sublist (workers : List Phase) :
    (workers.filterMap Phase.begun).Sublist (held workers) := by
  induction workers with
  | nil => exact List.Sublist.refl _
  | cons p workers ih =>
    cases p with
    | waiting | returned => exact ih
    | taken t => exact ih.cons t
    | building t | finished t => exact ih.cons_cons t

theorem Inv.begun_nodup {s : State} (h : Inv deps processed s) :
    (s.output.filterMap Event.begun).Nodup := by
  apply h.begun.nodup_iff.mpr
  have hnodup := (List.nodup_append.mp h.kahn.started.nodup).1
  exact hnodup.sublist ((List.Sublist.refl _).append (begun_sublist _))

/-- When all workers have returned, everything started is processed, begun and ended. -/
theorem Inv.of_joined {s : State} (h : Inv deps processed s) (hjoined : s.Joined)
    (hne : s.workers ≠ []) :
    Started deps processed processed ∧ (s.output.filterMap Event.begun).Perm processed ∧
      (s.output.filterMap Event.ended).Perm processed := by
  have hnil : ∀ f : Phase → Option String, f .returned = none → s.workers.filterMap f = [] := by
    intro f hf
    apply List.filterMap_eq_nil_iff.mpr
    intro p hp
    rw [hjoined p hp, hf]
  obtain ⟨p, hp⟩ := List.exists_mem_of_ne_nil _ hne
  obtain ⟨hheld, hqueue⟩ := h.kahn.idle (h.kahn.done (hjoined p hp ▸ hp))
  refine ⟨?_, ?_, ?_⟩
  · have hstarted := h.kahn.started
    rwa [hheld, hqueue, List.append_nil, List.append_nil] at hstarted
  · have hbegun := h.begun
    rwa [Accounts, hnil Phase.begun rfl, List.append_nil] at hbegun
  · have hended := h.ended
    rwa [Accounts, hnil Phase.ended rfl, List.append_nil] at hended

/-- **Parallel build order.**  Whatever dependencies are declared, whatever the order in which
the first targets are queued, the number of workers and the schedule: each target is built at
most once; its building starts after all its dependencies have finished; and when `build`
returns, it reports success exactly if the dependency graph has no cycle, and then each target
was built exactly once. -/
theorem build_order (deps : List (String × String)) (order : List String)
    (horder : order.Perm (load deps).sources) (numThreads : ℕ) (hthreads : 1 ≤ numThreads)
    (schedule : List ℕ) (s : State)
    (hrun : run step (start (load deps) order numThreads) schedule = some s) :
    (∀ t, (s.output.filterMap Event.begun).count t ≤ 1) ∧
      (∀ before id t after, s.output = before ++ .building id t :: after →
        ∀ d, Needs deps d t → ∃ id', .finished id' d ∈ before) ∧
      (s.Joined →
        (s.report = "Build Completed Successfully.\n" ↔ Acyclic (Needs deps)) ∧
        (Acyclic (Needs deps) → ∀ t, (∃ p ∈ deps, t = p.1 ∨ t = p.2) →
          (s.output.filterMap Event.begun).count t = 1 ∧
          (s.output.filterMap Event.ended).count t = 1)) := by
  obtain ⟨processed, h⟩ := inv_run horder hrun
  refine ⟨List.nodup_iff_count_le_one.mp h.begun_nodup, ?_, fun hjoined => ?_⟩
  · intro before id t after heq d hd
    obtain ⟨e, he, hed⟩ := List.mem_filterMap.mp (h.ordered before id t after heq d hd)
    cases e with
    | building => exact absurd hed (by simp [Event.ended])
    | finished id' d' =>
      obtain rfl := Option.some.inj hed
      exact ⟨id', he⟩
  · have hne : s.workers ≠ [] := by
      apply List.ne_nil_of_length_pos
      rw [length_run hrun]
      exact hthreads
    obtain ⟨hstarted, hbegun, hended⟩ := h.of_joined hjoined hne
    refine ⟨?_, fun hacyclic t ht => ?_⟩
    · rw [← hstarted.length_eq_iff h.kahn.order, ← h.kahn.count, ← h.kahn.total, State.report]
      split_ifs with hall
      · exact iff_of_true rfl hall
      · exact iff_of_false (by decide) hall
    · have hmem := hstarted.all_of_acyclic hacyclic ((mem_load deps t).mpr ht)
      rw [hbegun.count_eq, hended.count_eq]
      exact ⟨List.count_eq_one_of_mem hstarted.nodup hmem,
        List.count_eq_one_of_mem hstarted.nodup hmem⟩

/-- Two workers build the targets of `main`: each takes a leaf, the first also takes the third,
and then it goes up while the second waits. -/
def mainSchedule : List ℕ :=
  [0, 1, 0, 1, 1, 0, 0, 0, 1, 0, 0, 0, 0, 0, 0, 0, 0, 0, 0, 0, 1, 0]

theorem build_order_main :
    ∃ s, run step (start (load mainDeps) ["lexer", "utils", "ast"] 2) mainSchedule = some s ∧
      s.Joined ∧ s.report = "Build Completed Successfully.\n" ∧ Acyclic (Needs mainDeps) ∧
      (s.output.filterMap Event.begun).count "parser" = 1 := by
  have hrun : (run step (start (load mainDeps) ["lexer", "utils", "ast"] 2) mainSchedule).map
      (fun s => (s.workers, s.report))
        = some ([.returned, .returned], "Build Completed Successfully.\n") := by
    decide
  obtain ⟨s, hs, hboth⟩ := Option.map_eq_some_iff.mp hrun
  obtain ⟨hworkers, hreport⟩ := Prod.mk.inj hboth
  have hjoined : s.Joined := by
    unfold State.Joined
    rw [hworkers]
    decide
  obtain ⟨-, -, hend⟩ := build_order mainDeps ["lexer", "utils", "ast"] (by decide) 2 (by decide)
    mainSchedule s hs
  obtain ⟨hiff, honce⟩ := hend hjoined
  have hacyclic := hiff.mp hreport
  exact ⟨s, hs, hjoined, hreport, hacyclic, (honce hacyclic "parser" (by decide)).1⟩

end BuildSystems
