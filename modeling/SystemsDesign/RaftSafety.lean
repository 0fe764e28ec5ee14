/-
# Election safety of the Raft simulation

The cluster of `RaftElection.lean` refines the contest of `LockStepRounds.lean`: the
round of a node is its `currTerm`, a node is locked while it runs an election, and it
has still to visit the peers left in its vote loop (`Cluster.ledger`,
`ledger_step`).  Every move of a worker is one move of the contest, whatever the
votes: a vote request that is refused still leaves the peer at the candidate's term.

`electionSafety` is then the uniqueness of winners.  It needs neither the quorum nor
`votedFor`, which `receiveHeartbeat` clears inside a term.
-/
import SystemsDesign.LockStepRounds
import SystemsDesign.RaftElection

namespace RaftElection

open TransitionSystem LockStepRounds

variable {n : ℕ}

/-! ## The cluster as a contest for terms -/

/-- The peers a worker has still to ask while it holds its own mutex. -/
def Worker.pending : Worker n → Option (Set (Fin n))
  | .electing _ rest => some {p | p ∈ rest}
  | _ => none

/-- The contest the cluster plays: terms, held mutexes and the elections won. -/
def Cluster.ledger (c : Cluster n) : Ledger (Fin n) ℤ where
  round i := (c.node i).currTerm
  pending i := (c.worker i).pending
  won := {w | Event.becomesLeader w.1 w.2 ∈ c.log}

namespace Cluster

theorem ledger_setNode (c : Cluster n) (i : Fin n) (nd : RaftNode) :
    (c.setNode i nd).ledger
      = { c.ledger with round := Function.update c.ledger.round i nd.currTerm } := by
  unfold ledger
  congr 1
  funext j
  by_cases hj : j = i
  · rw [hj]; simp
  · simp [Function.update_of_ne hj]

/-- Moving a worker changes what it has still to visit only. -/
theorem ledger_setWorker (c : Cluster n) (i : Fin n) (w : Worker n) :
    (c.setWorker i w).ledger
      = { c.ledger with pending := Function.update c.ledger.pending i w.pending } := by
  unfold ledger
  congr 1
  funext j
  by_cases hj : j = i
  · rw [hj]; simp
  · simp [Function.update_of_ne hj]

/-- Only a node that becomes leader adds a win. -/
theorem ledger_print (c : Cluster n) (e : Event n) (he : ∀ i t, e ≠ .becomesLeader i t) :
    (c.print e).ledger = c.ledger := by
  unfold ledger
  congr 1
  ext ⟨i, t⟩
  simp [(he i t).symm]

theorem ledger_print_becomesLeader (c : Cluster n) (i : Fin n) (t : ℤ) :
    (c.print (.becomesLeader i t)).ledger
      = { c.ledger with won := insert (i, t) c.ledger.won } := by
  unfold ledger
  congr 1
  ext ⟨j, u⟩
  simp [Prod.ext_iff]

theorem pending_of_not_locked {c : Cluster n} {i : Fin n} (h : ¬ c.locked i = true) :
    c.ledger.pending i = none := by
  unfold locked at h
  show (c.worker i).pending = none
  cases hw : c.worker i <;> simp [hw, Worker.pending] at h ⊢

/-- A worker that moves between two places without its mutex is not seen by the
contest. -/
theorem ledger_setWorker_unlocked (c : Cluster n) {i : Fin n} {w : Worker n}
    (hi : (c.worker i).pending = none) (hw : w.pending = none) :
    (c.setWorker i w).ledger = c.ledger := by
  have hsame : Function.update c.ledger.pending i none = c.ledger.pending := by
    have hi' : c.ledger.pending i = none := hi
    rw [← hi', Function.update_eq_self]
  rw [ledger_setWorker, hw, hsame]

/-! ## Every step of a worker is a move of the contest -/

theorem ledger_beginElection (c : Cluster n) (i : Fin n) (hi : (c.worker i).pending = none) :
    Ledger.Step c.ledger (c.beginElection i).ledger := by
  have huniv : (Worker.electing 1 (peers n)).pending = some Set.univ := by
    simp [Worker.pending, peers]
  unfold beginElection
  rw [ledger_print _ _ (by simp), ledger_setWorker, ledger_setNode, huniv]
  exact Ledger.Step.opens c.ledger i _ hi (lt_add_one _)

theorem ledger_pending_of_electing {c : Cluster n} {i : Fin n} {votes : ℕ}
    {rest : List (Fin n)} (hi : c.worker i = .electing votes rest) :
    c.ledger.pending i = some {q | q ∈ rest} := by
  show (c.worker i).pending = _
  rw [hi]
  rfl

/-- Asking a peer for its vote is a visit, whatever the answer and the count of votes
afterwards. -/
theorem ledger_ask (c : Cluster n) {i p : Fin n} {votes : ℕ} {rest : List (Fin n)}
    (hne : p ≠ i) (hi : c.worker i = .electing votes (p :: rest)) (hp : ¬ c.locked p = true)
    (votes' : ℕ) :
    Ledger.Step c.ledger
      ((c.setNode p (c.answer i p).2).setWorker i (.electing votes' rest)).ledger := by
  have hrest : {q | q ∈ p :: rest} ⊆ insert p {q | q ∈ rest} := by
    intro q hq
    exact List.mem_cons.mp hq
  have hterm : (c.answer i p).2.currTerm = max (c.node p).currTerm (c.node i).currTerm :=
    RaftNode.currTerm_requestVote _ _ _
  rw [ledger_setWorker, ledger_setNode]
  exact Ledger.Step.visit c.ledger i p _ _ _ hne.symm (ledger_pending_of_electing hi) hrest
    (pending_of_not_locked hp) (hterm ▸ le_max_left _ _) (hterm ▸ le_max_right _ _)

theorem ledger_deliver (c : Cluster n) {i p : Fin n} {t : ℤ} {rest : List (Fin n)}
    (hi : (c.worker i).pending = none) (hp : ¬ c.locked p = true) :
    Ledger.Step c.ledger (c.deliver i p t rest).ledger := by
  unfold deliver
  rw [ledger_setWorker_unlocked (c.setNode p _) hi rfl, ledger_setNode]
  apply Ledger.Step.raise c.ledger p _ (pending_of_not_locked hp)
  rw [RaftNode.currTerm_receiveHeartbeat]
  exact le_max_left _ _

theorem ledger_quiet (c : Cluster n) {i : Fin n} {w : Worker n}
    (hi : (c.worker i).pending = none) (hw : w.pending = none) :
    Ledger.Step c.ledger (c.setWorker i w).ledger := by
  rw [ledger_setWorker_unlocked c hi hw]
  exact Ledger.Step.stutter _

/-- **The cluster refines the contest**: every step of a worker is a move of it. -/
theorem ledger_step {c c' : Cluster n} {a : Fin n × Bool} (h : c.step a = some c') :
    Ledger.Step c.ledger c'.ledger := by
  cases move_of_step h with
  | idles => exact Ledger.Step.stutter _
  | timesOut hw => exact ledger_quiet c (by rw [hw]; rfl) rfl
  | leads hw =>
    rw [ledger_print _ _ (by simp)]
    exact ledger_quiet c (by rw [hw]; rfl) rfl
  | begins hw => exact ledger_beginElection c a.1 (by rw [hw]; rfl)
  | skips votes rest hw =>
    rw [ledger_setWorker]
    apply Ledger.Step.skip c.ledger a.1 _ _ (ledger_pending_of_electing hw)
    intro q hq
    exact List.mem_cons.mp hq
  | granted p votes rest hw hne hp =>
    rw [ledger_print _ _ (by simp)]
    exact ledger_ask c hne hw hp _
  | refused p votes rest hw hne hp => exact ledger_ask c hne hw hp _
  | wins votes hw =>
    have hround : Function.update c.ledger.round a.1 (c.node a.1).becomeLeader.currTerm
        = c.ledger.round :=
      Function.update_eq_self a.1 c.ledger.round
    rw [ledger_print_becomesLeader, ledger_setWorker, ledger_setNode, hround]
    apply Ledger.Step.win c.ledger a.1
    rw [ledger_pending_of_electing hw]
    simp
  | loses votes hw =>
    rw [ledger_setWorker]
    exact Ledger.Step.quit c.ledger a.1
  | passes rest hw => exact ledger_quiet c (by rw [hw]; rfl) rfl
  | reads p rest hw => exact ledger_quiet c (by rw [hw]; rfl) rfl
  | delivers p t rest hw hp => exact ledger_deliver c (by rw [hw]; rfl) hp
  | returns hw => exact ledger_quiet c (by rw [hw]; rfl) rfl

theorem ledger_won_start (id : Fin n → ℤ) : (start id).ledger.won = ∅ := by
  ext w
  simp [ledger, start]

end Cluster

/-! ## Election safety -/

/-- **Election safety.**  For every cluster, whatever the node ids, and every
interleaving of the workers, two nodes never become leader of the same term. -/
theorem electionSafety (id : Fin n → ℤ) (schedule : List (Fin n × Bool)) (c : Cluster n)
    (h : run Cluster.step (Cluster.start id) schedule = some c) (i j : Fin n) (t : ℤ)
    (hi : Event.becomesLeader i t ∈ c.log) (hj : Event.becomesLeader j t ∈ c.log) :
    i = j := by
  have hreach : Reachable Ledger.Step (Cluster.start id).ledger c.ledger :=
    run_simulates (fun _ _ _ hst => Cluster.ledger_step hst) h
  exact Ledger.won_unique (fun _ => rfl) (Cluster.ledger_won_start id) hreach hi hj

/-- Six steps of worker `i`: the timer expires, it locks itself, passes the three nodes of
a cluster and ends its election. -/
def soloElection (i : Fin 3) : List (Fin 3 × Bool) := List.replicate 6 (i, true)

/-- Two elections in a cluster of three nodes: node `0` leads term `1`, node `1` leads
term `2`, and nobody else leads term `1`. -/
theorem electionSafety_twoElections :
    ∃ c, run Cluster.step (Cluster.start fun i : Fin 3 => (i : ℤ) + 1)
        (soloElection 0 ++ soloElection 1) = some c ∧
      Event.becomesLeader 0 1 ∈ c.log ∧ Event.becomesLeader 1 2 ∈ c.log ∧
      ∀ j, Event.becomesLeader j 1 ∈ c.log → j = 0 := by
  have hlog : (run Cluster.step (Cluster.start fun i : Fin 3 => (i : ℤ) + 1)
      (soloElection 0 ++ soloElection 1)).map Cluster.log
        = some [.becomesLeader 1 2, .voted 2 1 2, .voted 0 1 2, .startsElection 1 2,
            .becomesLeader 0 1, .voted 2 0 1, .voted 1 0 1, .startsElection 0 1] := by
    decide
  obtain ⟨c, hc, hlog⟩ := Option.map_eq_some_iff.mp hlog
  have h0 : Event.becomesLeader 0 1 ∈ c.log := by rw [hlog]; decide
  refine ⟨c, hc, h0, by rw [hlog]; decide, fun j hj => ?_⟩
  exact electionSafety _ _ c hc j 0 1 hj h0

end RaftElection
