/-
# Deadlock of overlapping elections

`startElection` keeps the node's own mutex while it calls `requestVote` on the peers, and
each call waits for the mutex of the peer.  Two nodes whose elections overlap can therefore
wait for each other for ever (`two_elections_deadlock`).

The wait-for graph is bounded by a larger one: who has still to ask whom (`Asks`).  Steps
inside an election only remove edges from it, and a node that starts its election while
nobody has still to ask it adds edges out of itself only.  So runs without overlapping
starts never deadlock (`noDeadlock_of_no_overlap`).  The condition cannot be dropped: once
two elections overlap, neither of them ever ends (`overlap_never_ends`).
-/
import SystemsDesign.RaftSafety
import SystemsDesign.AcyclicRelations

namespace RaftElection

open TransitionSystem AcyclicRelations

variable {n : ℕ}

/-! ## Who waits for whom -/

/-- The peers that an election in progress has still to ask. -/
def Worker.toAsk : Worker n → List (Fin n)
  | .electing _ rest => rest
  | _ => []

/-- Node `i` is inside `startElection` and waits in `requestVote` for the mutex of `j`, which
`j` holds inside its own `startElection`. -/
def Waits (c : Cluster n) (i j : Fin n) : Prop :=
  j ≠ i ∧ c.locked j = true ∧ ∃ votes rest, c.worker i = .electing votes (j :: rest)

/-- No cycle of nodes each of which waits for the next. -/
def NoDeadlock (c : Cluster n) : Prop := Acyclic (Waits c)

/-- Node `i` has still to ask `j`, which holds its own mutex. -/
def Asks (c : Cluster n) (i j : Fin n) : Prop :=
  j ≠ i ∧ c.locked j = true ∧ j ∈ (c.worker i).toAsk

theorem Waits.asks {c : Cluster n} {i j : Fin n} (h : Waits c i j) : Asks c i j := by
  obtain ⟨hne, hlock, votes, rest, hw⟩ := h
  refine ⟨hne, hlock, ?_⟩
  rw [hw]
  exact List.mem_cons_self

/-- The step starts the election of a node that another election has still to ask. -/
def Overlaps (c : Cluster n) (a : Fin n × Bool) : Prop :=
  c.worker a.1 = .lockOwn ∧ ∃ k, k ≠ a.1 ∧ a.1 ∈ (c.worker k).toAsk

instance (c : Cluster n) (a : Fin n × Bool) : Decidable (Overlaps c a) :=
  inferInstanceAs (Decidable (_ ∧ _))

/-! ## What a step does to the graph -/

/-- The worker stays in its election with fewer peers to ask, or is in none. -/
def Worker.Shrinks (w w' : Worker n) : Prop :=
  (∀ votes rest, w' ≠ .electing votes rest) ∨
    ∃ votes votes' rest rest', w = .electing votes rest ∧ w' = .electing votes' rest' ∧
      rest' ⊆ rest

/-- A step starts an election, or moves one worker without adding anybody to ask. -/
theorem worker_step {c c' : Cluster n} {a : Fin n × Bool} (h : c.step a = some c') :
    (c.worker a.1 = .lockOwn ∧ c'.worker
        = Function.update c.worker a.1 (.electing 1 (peers n))) ∨
      ∃ w, c'.worker = Function.update c.worker a.1 w ∧ (c.worker a.1).Shrinks w := by
  cases Cluster.move_of_step h with
  | idles hw =>
    refine Or.inr ⟨.run, ?_, Or.inl (by simp)⟩
    rw [← hw, Function.update_eq_self]
  | timesOut => exact Or.inr ⟨_, rfl, Or.inl (by simp)⟩
  | leads => exact Or.inr ⟨_, rfl, Or.inl (by simp)⟩
  | begins hw => exact Or.inl ⟨hw, rfl⟩
  | skips votes rest hw =>
    exact Or.inr ⟨_, rfl, Or.inr ⟨_, _, _, _, hw, rfl, List.subset_cons_self _ _⟩⟩
  | granted p votes rest hw =>
    exact Or.inr ⟨_, rfl, Or.inr ⟨_, _, _, _, hw, rfl, List.subset_cons_self _ _⟩⟩
  | refused p votes rest hw =>
    exact Or.inr ⟨_, rfl, Or.inr ⟨_, _, _, _, hw, rfl, List.subset_cons_self _ _⟩⟩
  | wins => exact Or.inr ⟨_, rfl, Or.inl (by simp)⟩
  | loses => exact Or.inr ⟨_, rfl, Or.inl (by simp)⟩
  | passes => exact Or.inr ⟨_, rfl, Or.inl (by simp)⟩
  | reads => exact Or.inr ⟨_, rfl, Or.inl (by simp)⟩
  | delivers => exact Or.inr ⟨_, rfl, Or.inl (by simp)⟩
  | returns => exact Or.inr ⟨_, rfl, Or.inl (by simp)⟩

theorem locked_iff {c : Cluster n} {i : Fin n} :
    c.locked i = true ↔ ∃ votes rest, c.worker i = .electing votes rest := by
  unfold Cluster.locked
  cases c.worker i <;> simp

theorem Worker.Shrinks.toAsk_subset {w w' : Worker n} (h : w.Shrinks w') :
    w'.toAsk ⊆ w.toAsk := by
  rcases h with h | ⟨votes, votes', rest, rest', rfl, rfl, hsub⟩
  · cases w' with
    | electing votes rest => exact absurd rfl (h votes rest)
    | _ => exact List.nil_subset _
  · exact hsub

/-- Where a worker shrinks, no edge is added. -/
theorem asks_of_shrinks {c c' : Cluster n} {m : Fin n} {w : Worker n}
    (hworker : c'.worker = Function.update c.worker m w) (h : (c.worker m).Shrinks w)
    {i j : Fin n} (hasks : Asks c' i j) : Asks c i j := by
  obtain ⟨hne, hlock, hj⟩ := hasks
  refine ⟨hne, ?_, ?_⟩
  · obtain ⟨votes, rest, hw⟩ := locked_iff.mp hlock
    rw [hworker] at hw
    by_cases hjm : j = m
    · rw [hjm, Function.update_self] at hw
      rcases h with h | ⟨votes₁, -, rest₁, -, hold, -⟩
      · exact absurd hw (h votes rest)
      · exact locked_iff.mpr ⟨votes₁, rest₁, hjm ▸ hold⟩
    · rw [Function.update_of_ne hjm] at hw
      exact locked_iff.mpr ⟨votes, rest, hw⟩
  · rw [hworker] at hj
    by_cases him : i = m
    · rw [him, Function.update_self] at hj
      exact him ▸ h.toAsk_subset hj
    · rwa [Function.update_of_ne him] at hj

/-- A step that starts no overlapping election keeps the graph acyclic. -/
theorem acyclic_asks_step {c c' : Cluster n} {a : Fin n × Bool} (h : Acyclic (Asks c))
    (hover : ¬ Overlaps c a) (hstep : c.step a = some c') : Acyclic (Asks c') := by
  rcases worker_step hstep with ⟨hown, hworker⟩ | ⟨w, hworker, hshrink⟩
  · have hother : ∀ i, i ≠ a.1 → c'.worker i = c.worker i := by
      intro i hi
      rw [hworker, Function.update_of_ne hi]
    -- nobody has still to ask the node, so it only adds edges out of itself
    have hsource : ∀ i, ¬ Asks c' i a.1 := by
      rintro i ⟨hne, -, hmem⟩
      rw [hother i hne.symm] at hmem
      exact hover ⟨hown, i, hne.symm, hmem⟩
    refine h.add_source (fun i j hij => ?_) hsource
    by_cases hi : i = a.1
    · exact Or.inr hi
    · have hj : j ≠ a.1 := fun hj => hsource i (hj ▸ hij)
      obtain ⟨hne, hlock, hmem⟩ := hij
      rw [hother i hi] at hmem
      obtain ⟨votes, rest, hw⟩ := locked_iff.mp hlock
      rw [hother j hj] at hw
      exact Or.inl ⟨hne, locked_iff.mpr ⟨votes, rest, hw⟩, hmem⟩
  · exact h.mono fun i j hij => asks_of_shrinks hworker hshrink hij

/-- **No deadlock without overlapping starts.**  In every run in which no node starts its
election while another election has still to ask it, no cycle of nodes waits for each
other's mutexes. -/
theorem noDeadlock_of_no_overlap (id : Fin n → ℤ) (schedule : List (Fin n × Bool))
    (h : Along Cluster.step (fun c a => ¬ Overlaps c a) (Cluster.start id) schedule)
    (c : Cluster n) (hrun : run Cluster.step (Cluster.start id) schedule = some c) :
    NoDeadlock c := by
  have hstart : Acyclic (Asks (Cluster.start id)) := by
    intro i hi
    obtain ⟨k, -, hlock, -⟩ := exists_edge_into hi
    simp [Cluster.start, Cluster.locked] at hlock
  have hasks : Acyclic (Asks c) :=
    run_invariant_along (fun _ _ _ hs hover hst => acyclic_asks_step hs hover hst) hstart h hrun
  exact hasks.mono fun i j hij => hij.asks

theorem noDeadlock_of_no_overlap_twoElections :
    ∃ c, run Cluster.step (Cluster.start fun i : Fin 3 => (i : ℤ) + 1)
        (soloElection 0 ++ soloElection 1) = some c ∧ NoDeadlock c := by
  have hsome : (run Cluster.step (Cluster.start fun i : Fin 3 => (i : ℤ) + 1)
      (soloElection 0 ++ soloElection 1)).isSome = true := by
    decide
  obtain ⟨c, hc⟩ := Option.isSome_iff_exists.mp hsome
  exact ⟨c, hc, noDeadlock_of_no_overlap _ _ (by decide) c hc⟩

/-- Both nodes of a cluster of two time out, start their elections and ask each other. -/
theorem two_elections_deadlock :
    ∃ c, run Cluster.step (Cluster.start fun i : Fin 2 => (i : ℤ) + 1)
        [(0, true), (1, true), (0, true), (1, true), (0, true)] = some c ∧ ¬ NoDeadlock c := by
  have hrun : (run Cluster.step (Cluster.start fun i : Fin 2 => (i : ℤ) + 1)
      [(0, true), (1, true), (0, true), (1, true), (0, true)]).map
        (fun c => (c.worker 0, c.worker 1)) = some (.electing 1 [1], .electing 1 [0, 1]) := by
    decide
  obtain ⟨c, hc, hworkers⟩ := Option.map_eq_some_iff.mp hrun
  obtain ⟨hzero, hone⟩ := Prod.mk.inj hworkers
  refine ⟨c, hc, fun h => h 0 ?_⟩
  have h01 : Waits c 0 1 := ⟨by decide, locked_iff.mpr ⟨_, _, hone⟩, _, _, hzero⟩
  have h10 : Waits c 1 0 := ⟨by decide, locked_iff.mpr ⟨_, _, hzero⟩, _, _, hone⟩
  exact Relation.TransGen.head h01 (.single h10)

/-! ## Overlapping elections never end -/

/-- Two elections in progress, each of which has still to ask the node of the other. -/
def Entangled (c : Cluster n) (i k : Fin n) : Prop := Asks c i k ∧ Asks c k i

theorem entangled_of_overlaps {c c' : Cluster n} {a : Fin n × Bool} (h : Overlaps c a)
    (hstep : c.step a = some c') : ∃ k, Entangled c' a.1 k := by
  obtain ⟨hown, k, hk, hmem⟩ := h
  have hc' : c' = c.beginElection a.1 := by
    unfold Cluster.step at hstep
    rw [hown] at hstep
    exact (Option.some.inj hstep).symm
  have hself : c'.worker a.1 = .electing 1 (peers n) := by
    rw [hc']
    exact Function.update_self ..
  have hother : c'.worker k = c.worker k := by
    rw [hc']
    exact Function.update_of_ne hk _ _
  have hlock : c'.locked k = true := by
    apply locked_iff.mpr
    rw [hother]
    cases hw : c.worker k with
    | electing votes rest => exact ⟨votes, rest, rfl⟩
    | _ => simp [hw, Worker.toAsk] at hmem
  refine ⟨k, ⟨hk, hlock, ?_⟩, hk.symm, locked_iff.mpr ⟨_, _, hself⟩, ?_⟩
  · rw [hself]
    exact List.mem_finRange k
  · rw [hother]
    exact hmem

/-- A step of a node that has still to ask a locked node leaves it so, and locked. -/
theorem asks_kept {c c' : Cluster n} {a : Fin n × Bool} (hstep : c.step a = some c') {k : Fin n}
    (h : Asks c a.1 k) :
    ∃ votes rest, c'.worker = Function.update c.worker a.1 (.electing votes rest) ∧ k ∈ rest := by
  obtain ⟨hne, hlock, hmem⟩ := h
  have hnot : ∀ {w : Worker n}, c.worker a.1 = w → w.toAsk = [] → False := by
    intro w hw hnil
    rw [hw, hnil] at hmem
    simp at hmem
  cases Cluster.move_of_step hstep with
  | skips votes rest hw =>
    rw [hw] at hmem
    exact ⟨votes, rest, rfl, (List.mem_cons.mp hmem).resolve_left hne⟩
  | granted p votes rest hw _ hp =>
    rw [hw] at hmem
    refine ⟨votes + 1, rest, rfl, (List.mem_cons.mp hmem).resolve_left fun hkp => hp ?_⟩
    rw [← hkp]
    exact hlock
  | refused p votes rest hw _ hp =>
    rw [hw] at hmem
    refine ⟨votes, rest, rfl, (List.mem_cons.mp hmem).resolve_left fun hkp => hp ?_⟩
    rw [← hkp]
    exact hlock
  | idles hw => exact (hnot hw rfl).elim
  | timesOut hw => exact (hnot hw rfl).elim
  | leads hw => exact (hnot hw rfl).elim
  | begins hw => exact (hnot hw rfl).elim
  | wins votes hw => exact (hnot hw rfl).elim
  | loses votes hw => exact (hnot hw rfl).elim
  | passes rest hw => exact (hnot hw rfl).elim
  | reads p rest hw => exact (hnot hw rfl).elim
  | delivers p t rest hw => exact (hnot hw rfl).elim
  | returns hw => exact (hnot hw rfl).elim

/-- What a node has still to ask, and whom it keeps locked, depends on the two workers. -/
theorem Asks.congr {c c' : Cluster n} {i k : Fin n} (h : Asks c i k)
    (hi : c'.worker i = c.worker i) (hk : c'.worker k = c.worker k) : Asks c' i k := by
  obtain ⟨hne, hlock, hmem⟩ := h
  obtain ⟨votes, rest, hw⟩ := locked_iff.mp hlock
  exact ⟨hne, locked_iff.mpr ⟨votes, rest, hk.trans hw⟩, hi ▸ hmem⟩

/-- A step of one of two entangled nodes leaves them entangled. -/
theorem Entangled.step_self {c c' : Cluster n} {a : Fin n × Bool} {k : Fin n}
    (h : Entangled c a.1 k) (hstep : c.step a = some c') : Entangled c' a.1 k := by
  obtain ⟨votes, rest, hworker, hmem⟩ := asks_kept hstep h.1
  obtain ⟨⟨hne, hlock, -⟩, -, -, hmem'⟩ := h
  have hself : c'.worker a.1 = .electing votes rest := by
    rw [hworker, Function.update_self]
  have hother : c'.worker k = c.worker k := by
    rw [hworker, Function.update_of_ne hne]
  obtain ⟨votes', rest', hw⟩ := locked_iff.mp hlock
  refine ⟨⟨hne, locked_iff.mpr ⟨votes', rest', hother.trans hw⟩, ?_⟩, hne.symm,
    locked_iff.mpr ⟨votes, rest, hself⟩, ?_⟩
  · rw [hself]
    exact hmem
  · rw [hother]
    exact hmem'

theorem Entangled.step {c c' : Cluster n} {a : Fin n × Bool} {i k : Fin n}
    (h : Entangled c i k) (hstep : c.step a = some c') : Entangled c' i k := by
  by_cases hi : a.1 = i
  · subst hi
    exact h.step_self hstep
  · by_cases hk : a.1 = k
    · subst hk
      exact (Entangled.step_self h.symm hstep).symm
    · have hother : ∀ m, a.1 ≠ m → c'.worker m = c.worker m := by
        intro m hm
        rcases worker_step hstep with ⟨-, hworker⟩ | ⟨w, hworker, -⟩
        · rw [hworker, Function.update_of_ne (Ne.symm hm)]
        · rw [hworker, Function.update_of_ne (Ne.symm hm)]
      exact ⟨h.1.congr (hother i hi) (hother k hk), h.2.congr (hother k hk) (hother i hi)⟩

/-- **Overlapping elections never end.**  After a node has started its election while
another one had still to ask it, both stay inside `startElection` with each other to ask,
whatever the schedule. -/
theorem overlap_never_ends {c c' : Cluster n} {a : Fin n × Bool} (h : Overlaps c a)
    (hstep : c.step a = some c') :
    ∃ k, ∀ schedule d, run Cluster.step c' schedule = some d → Entangled d a.1 k := by
  obtain ⟨k, hk⟩ := entangled_of_overlaps h hstep
  have hkeep : ∀ (s : Cluster n) (b : Fin n × Bool) (s' : Cluster n),
      Entangled s a.1 k → s.step b = some s' → Entangled s' a.1 k :=
    fun _ _ _ he hst => he.step hst
  exact ⟨k, fun schedule d hd => run_invariant hkeep hk hd⟩

theorem overlap_never_ends_twoNodes :
    ∃ c c' : Cluster 2, Overlaps c (1, true) ∧ c.step (1, true) = some c' ∧
      ∃ k, ∀ schedule d, run Cluster.step c' schedule = some d → Entangled d 1 k := by
  have hrun : (run Cluster.step (Cluster.start fun i : Fin 2 => (i : ℤ) + 1)
      [(0, true), (1, true), (0, true)]).map
        (fun c => (decide (Overlaps c (1, true)), (c.step (1, true)).isSome))
        = some (true, true) := by
    decide
  obtain ⟨c, -, hboth⟩ := Option.map_eq_some_iff.mp hrun
  obtain ⟨hover, hsome⟩ := Prod.mk.inj hboth
  obtain ⟨c', hc'⟩ := Option.isSome_iff_exists.mp hsome
  exact ⟨c, c', of_decide_eq_true hover, hc', overlap_never_ends (of_decide_eq_true hover) hc'⟩

end RaftElection
