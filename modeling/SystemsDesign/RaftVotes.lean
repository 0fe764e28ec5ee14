/-
# Votes and leaders of one term

Two laws of the Raft simulation that an unlocked read breaks.  `sendHeartbeat` reads
`currTerm` before each call without looking at `state`, so a leader that was demoted inside
the loop goes on sending, with a term it never won (`DemotedSend`).  Since
`receiveHeartbeat` accepts an equal term, such a heartbeat clears the vote of its receiver,
which may then vote a second time (`second_vote`), and takes down the leader of that term
(`leader_deposed_by_equal_term`).

Without such a read every heartbeat carries a term its sender has won (`Led`).  In a term
that was won nobody is still collecting votes, by the locks of the contest of
`LockStepRounds.lean`; so a vote is never repeated (`oneVotePerTerm`), and a leader steps
down for higher terms only (`stepsDown_forHigher`).
-/
import SystemsDesign.RaftSafety

namespace RaftElection

open TransitionSystem LockStepRounds

variable {n : ℕ}

/-! ## What the calls do to a node -/

namespace RaftNode

/-- A vote that is granted is recorded, in the candidate's term; in that term the node had
not voted for anybody else. -/
theorem requestVote_granted (nd : RaftNode) {term candidateId : ℤ}
    (h : (nd.requestVote term candidateId).1 = true) :
    nd.currTerm ≤ term ∧ (nd.requestVote term candidateId).2.votedFor = candidateId ∧
      (nd.currTerm = term → nd.votedFor = -1 ∨ nd.votedFor = candidateId) := by
  unfold requestVote at h ⊢
  by_cases hstale : term < nd.currTerm
  · rw [if_pos hstale] at h
    cases h
  · rw [if_neg hstale] at h ⊢
    dsimp only at h ⊢
    by_cases hvote : (nd.adoptTerm term).votedFor = -1 ∨
        (nd.adoptTerm term).votedFor = candidateId
    · rw [if_pos hvote]
      refine ⟨not_lt.mp hstale, rfl, fun heq => ?_⟩
      unfold adoptTerm at hvote
      rwa [if_neg heq.not_lt] at hvote
    · rw [if_neg hvote] at h
      cases h

theorem requestVote_refused (nd : RaftNode) {term candidateId : ℤ}
    (h : (nd.requestVote term candidateId).1 ≠ true)
    (hterm : (nd.requestVote term candidateId).2.currTerm = nd.currTerm) :
    (nd.requestVote term candidateId).2 = nd := by
  have hle : ¬ nd.currTerm < term := by
    rw [currTerm_requestVote] at hterm
    omega
  unfold requestVote at h ⊢
  by_cases hstale : term < nd.currTerm
  · rw [if_pos hstale]
  · rw [if_neg hstale] at h ⊢
    have hadopt : nd.adoptTerm term = nd := if_neg hle
    rw [hadopt] at h ⊢
    dsimp only at h ⊢
    split_ifs at h ⊢
    · exact absurd rfl h
    · rfl

theorem nodeId_requestVote (nd : RaftNode) (term candidateId : ℤ) :
    (nd.requestVote term candidateId).2.nodeId = nd.nodeId := by
  unfold requestVote adoptTerm
  dsimp only
  split_ifs <;> rfl

theorem nodeId_receiveHeartbeat (nd : RaftNode) (term : ℤ) :
    (nd.receiveHeartbeat term).nodeId = nd.nodeId := by
  unfold receiveHeartbeat
  split_ifs <;> rfl

/-- A vote request either takes its receiver to a higher term as a follower, or leaves its
state and its term alone. -/
theorem state_requestVote (nd : RaftNode) (term candidateId : ℤ) :
    (nd.currTerm < term ∧ (nd.requestVote term candidateId).2.state = .follower) ∨
      ((nd.requestVote term candidateId).2.state = nd.state ∧
        (nd.requestVote term candidateId).2.currTerm = nd.currTerm) := by
  by_cases hnew : nd.currTerm < term
  · refine Or.inl ⟨hnew, ?_⟩
    unfold requestVote adoptTerm
    rw [if_neg hnew.not_gt, if_pos hnew]
    dsimp only
    split_ifs <;> rfl
  · refine Or.inr ⟨?_, ?_⟩
    · unfold requestVote adoptTerm
      rw [if_neg hnew]
      dsimp only
      split_ifs <;> rfl
    · rw [currTerm_requestVote]
      exact max_eq_left (not_lt.mp hnew)

/-- A heartbeat either makes its receiver a follower of a term at least its own, or is
ignored. -/
theorem state_receiveHeartbeat (nd : RaftNode) (term : ℤ) :
    (nd.currTerm ≤ term ∧ (nd.receiveHeartbeat term).state = .follower) ∨
      (term < nd.currTerm ∧ nd.receiveHeartbeat term = nd) := by
  unfold receiveHeartbeat
  by_cases h : nd.currTerm ≤ term
  · exact Or.inl ⟨h, by rw [if_pos h]⟩
  · exact Or.inr ⟨not_le.mp h, if_neg h⟩

end RaftNode

/-! ## Heartbeats of a demoted leader -/

/-- The step reads `currTerm` for a heartbeat of a node that is no leader any more. -/
def DemotedSend (c : Cluster n) (a : Fin n × Bool) : Prop :=
  match c.worker a.1 with
  | .sending (p :: _) => p ≠ a.1 ∧ (c.node a.1).state ≠ .leader
  | _ => False

instance (c : Cluster n) (a : Fin n × Bool) : Decidable (DemotedSend c a) := by
  unfold DemotedSend
  split <;> infer_instance

/-- A node that may send and is about to read its term is a leader still. -/
theorem leader_of_not_demotedSend {c : Cluster n} {a : Fin n × Bool} {p : Fin n}
    {rest : List (Fin n)} (h : ¬ DemotedSend c a) (hw : c.worker a.1 = .sending (p :: rest))
    (hne : p ≠ a.1) : (c.node a.1).state = .leader := by
  by_contra hs
  apply h
  unfold DemotedSend
  rw [hw]
  exact ⟨hne, hs⟩

/-- What leads was elected, and so was what sends. -/
structure Led (c : Cluster n) : Prop where
  /-- A leader has won its current term. -/
  leader : ∀ i, (c.node i).state = .leader →
    Event.becomesLeader i (c.node i).currTerm ∈ c.log
  /-- A node that waits to start an election is not a leader. -/
  waiting : ∀ i, c.worker i = .lockOwn → (c.node i).state ≠ .leader
  /-- A heartbeat on its way goes to another node, with a term its sender has won. -/
  calling : ∀ i p t rest, c.worker i = .calling p t rest →
    p ≠ i ∧ Event.becomesLeader i t ∈ c.log

namespace Led

variable {c : Cluster n}

theorem print (h : Led c) (e : Event n) : Led (c.print e) where
  leader i hi := List.mem_cons_of_mem _ (h.leader i hi)
  waiting := h.waiting
  calling i p t rest hw :=
    ⟨(h.calling i p t rest hw).1, List.mem_cons_of_mem _ (h.calling i p t rest hw).2⟩

/-- Moving a worker keeps the invariant if its new place is justified. -/
theorem setWorker (h : Led c) {i : Fin n} {w : Worker n}
    (hlock : w = .lockOwn → (c.node i).state ≠ .leader)
    (hcall : ∀ p t rest, w = .calling p t rest → p ≠ i ∧ Event.becomesLeader i t ∈ c.log) :
    Led (c.setWorker i w) where
  leader := h.leader
  waiting j hj := by
    rw [Cluster.setWorker_worker] at hj
    by_cases hji : j = i
    · rw [hji, Function.update_self] at hj
      exact hji ▸ hlock hj
    · rw [Function.update_of_ne hji] at hj
      exact h.waiting j hj
  calling j p t rest hj := by
    rw [Cluster.setWorker_worker] at hj
    by_cases hji : j = i
    · rw [hji, Function.update_self] at hj
      exact hji ▸ hcall p t rest hj
    · rw [Function.update_of_ne hji] at hj
      exact h.calling j p t rest hj

/-- Changing a node keeps the invariant if a leader comes out justified. -/
theorem setNode (h : Led c) {p : Fin n} {nd : RaftNode}
    (hnd : nd.state = .leader →
      Event.becomesLeader p nd.currTerm ∈ c.log ∧ c.worker p ≠ .lockOwn) :
    Led (c.setNode p nd) where
  leader j hj := by
    rw [Cluster.setNode_node] at hj ⊢
    by_cases hjp : j = p
    · rw [hjp, Function.update_self] at hj ⊢
      exact (hnd hj).1
    · rw [Function.update_of_ne hjp] at hj ⊢
      exact h.leader j hj
  waiting j hj := by
    rw [Cluster.setNode_node]
    by_cases hjp : j = p
    · rw [hjp, Function.update_self]
      exact fun hs => (hnd hs).2 (hjp ▸ hj)
    · rw [Function.update_of_ne hjp]
      exact h.waiting j hj
  calling := h.calling

/-- A call that makes nobody a leader keeps the invariant. -/
theorem setNode_of_kept (h : Led c) {p : Fin n} {nd : RaftNode}
    (hnd : nd.state = .leader →
      (c.node p).state = .leader ∧ nd.currTerm = (c.node p).currTerm) :
    Led (c.setNode p nd) := by
  apply h.setNode
  intro hs
  obtain ⟨hold, hterm⟩ := hnd hs
  refine ⟨?_, fun hw => h.waiting p hw hold⟩
  rw [hterm]
  exact h.leader p hold

theorem answer (h : Led c) (i p : Fin n) : Led (c.setNode p (c.answer i p).2) := by
  apply h.setNode_of_kept
  intro hs
  rcases (c.node p).state_requestVote (c.node i).currTerm (c.node i).nodeId with
    ⟨-, hfollower⟩ | ⟨hstate, hterm⟩
  · rw [Cluster.answer, hfollower] at hs
    cases hs
  · exact ⟨hstate.symm.trans hs, hterm⟩

theorem receiveHeartbeat (h : Led c) (p : Fin n) (t : ℤ) :
    Led (c.setNode p ((c.node p).receiveHeartbeat t)) := by
  apply h.setNode_of_kept
  intro hs
  rcases (c.node p).state_receiveHeartbeat t with ⟨-, hfollower⟩ | ⟨-, hsame⟩
  · rw [hfollower] at hs
    cases hs
  · rw [hsame] at hs ⊢
    exact ⟨hs, rfl⟩

theorem step (h : Led c) {a : Fin n × Bool} {c' : Cluster n} (hsend : ¬ DemotedSend c a)
    (hstep : c.step a = some c') : Led c' := by
  cases Cluster.move_of_step hstep with
  | idles => exact h
  | timesOut hw hs => exact h.setWorker (fun _ => hs) (by simp)
  | leads hw hs => exact (h.setWorker (by simp) (by simp)).print _
  | begins hw =>
    refine ((h.setNode_of_kept ?_).setWorker (by simp) (by simp)).print _
    intro hs
    cases hs
  | skips votes rest hw => exact h.setWorker (by simp) (by simp)
  | granted p votes rest hw hne hp =>
    exact ((h.answer a.1 p).setWorker (by simp) (by simp)).print _
  | refused p votes rest hw hne hp => exact (h.answer a.1 p).setWorker (by simp) (by simp)
  | wins votes hw =>
    -- the line is printed first, so that the new leader is justified by it
    have hled : Led ((c.print (.becomesLeader a.1 (c.node a.1).currTerm)).setNode a.1
        (c.node a.1).becomeLeader) := by
      refine (h.print _).setNode fun _ => ⟨List.mem_cons_self, ?_⟩
      rw [Cluster.print_worker, hw]
      simp
    exact hled.setWorker (by simp) (by simp)
  | loses votes hw => exact h.setWorker (by simp) (by simp)
  | passes rest hw => exact h.setWorker (by simp) (by simp)
  | reads p rest hw hne =>
    apply h.setWorker (by simp)
    intro q t rest' heq
    obtain ⟨rfl, rfl, -⟩ := Worker.calling.inj heq
    exact ⟨hne, h.leader a.1 (leader_of_not_demotedSend hsend hw hne)⟩
  | delivers p t rest hw hp => exact (h.receiveHeartbeat p t).setWorker (by simp) (by simp)
  | returns hw => exact h.setWorker (by simp) (by simp)

end Led

/-- What a run without reads of demoted leaders keeps. -/
structure Orderly (c : Cluster n) : Prop where
  contest : c.ledger.Inv
  ahead : c.ledger.Ahead
  led : Led c

theorem orderly_start (id : Fin n → ℤ) : Orderly (Cluster.start id) where
  contest := Ledger.Inv.initial (fun _ => rfl) (Cluster.ledger_won_start id)
  ahead := Ledger.Ahead.initial (Cluster.ledger_won_start id)
  led := ⟨by simp [Cluster.start, RaftNode.new], by simp [Cluster.start],
    by simp [Cluster.start]⟩

theorem Orderly.step {c c' : Cluster n} {a : Fin n × Bool} (h : Orderly c)
    (hsend : ¬ DemotedSend c a) (hstep : c.step a = some c') : Orderly c' where
  contest := h.contest.step (Cluster.ledger_step hstep)
  ahead := h.ahead.step h.contest (Cluster.ledger_step hstep)
  led := h.led.step hsend hstep

/-! ## A leader steps down for higher terms only -/

/-- If the step takes a leader out of its state, it is a call of `requestVote` or
`receiveHeartbeat` on it that carries a higher term. -/
def StepsDownForHigher (c : Cluster n) (a : Fin n × Bool) : Prop :=
  ∀ c' j, c.step a = some c' → (c.node j).state = .leader → (c'.node j).state ≠ .leader →
    ∃ term, c.called a.1 = some (j, term) ∧ (c.node j).currTerm < term

/-- A heartbeat that takes down a leader carries a higher term: the leader of an equal term
would be its sender. -/
theorem Orderly.heartbeat_higher {c : Cluster n} (h : Orderly c) {i j : Fin n} {t : ℤ}
    {rest : List (Fin n)} (hw : c.worker i = .calling j t rest)
    (hj : (c.node j).state = .leader)
    (hdown : ((c.node j).receiveHeartbeat t).state ≠ .leader) : (c.node j).currTerm < t := by
  obtain ⟨hne, hwon⟩ := h.led.calling i j t rest hw
  rcases (c.node j).state_receiveHeartbeat t with ⟨hle, -⟩ | ⟨-, hsame⟩
  · refine lt_of_le_of_ne hle fun heq => hne ?_
    have hwonj : Event.becomesLeader j t ∈ c.log := heq ▸ h.led.leader j hj
    exact h.contest.unique j i t hwonj hwon
  · rw [hsame] at hdown
    exact absurd hj hdown

theorem requestVote_higher {c : Cluster n} {i j : Fin n} (hj : (c.node j).state = .leader)
    (hdown : (c.answer i j).2.state ≠ .leader) :
    (c.node j).currTerm < (c.node i).currTerm := by
  rcases (c.node j).state_requestVote (c.node i).currTerm (c.node i).nodeId with
    ⟨hlt, -⟩ | ⟨hstate, -⟩
  · exact hlt
  · exact absurd (hstate.trans hj) hdown

theorem eq_of_setNode_state_ne {c : Cluster n} {p j : Fin n} {nd : RaftNode}
    (hj : (c.node j).state = .leader) (hdown : ((c.setNode p nd).node j).state ≠ .leader) :
    j = p := by
  by_contra hjp
  rw [Cluster.setNode_node, Function.update_of_ne hjp] at hdown
  exact hdown hj

/-- In order, only calls with higher terms take a leader down. -/
theorem Orderly.stepsDown {c : Cluster n} (h : Orderly c) (a : Fin n × Bool) :
    StepsDownForHigher c a := by
  intro c' j hstep hj hdown
  -- an answered vote request, whatever becomes of the count
  have hask : ∀ p votes rest, c.worker a.1 = .electing votes (p :: rest) → p ≠ a.1 →
      ((c.setNode p (c.answer a.1 p).2).node j).state ≠ .leader →
      ∃ term, c.called a.1 = some (j, term) ∧ (c.node j).currTerm < term := by
    intro p votes rest hw hne hdown
    obtain rfl := eq_of_setNode_state_ne hj hdown
    rw [Cluster.setNode_node, Function.update_self] at hdown
    refine ⟨(c.node a.1).currTerm, ?_, requestVote_higher hj hdown⟩
    simp [Cluster.called, hw, hne]
  cases Cluster.move_of_step hstep with
  | begins hw =>
    obtain rfl := eq_of_setNode_state_ne hj hdown
    exact absurd hj (h.led.waiting _ hw)
  | granted p votes rest hw hne => exact hask p votes rest hw hne hdown
  | refused p votes rest hw hne => exact hask p votes rest hw hne hdown
  | wins votes hw =>
    obtain rfl := eq_of_setNode_state_ne hj hdown
    refine absurd ?_ hdown
    simp [RaftNode.becomeLeader]
  | delivers p t rest hw hp =>
    obtain rfl := eq_of_setNode_state_ne hj hdown
    have hdown' : ((c.node j).receiveHeartbeat t).state ≠ .leader := by
      simpa [Cluster.deliver] using hdown
    exact ⟨t, by simp [Cluster.called, hw], h.heartbeat_higher hw hj hdown'⟩
  | idles => exact absurd hj hdown
  | timesOut => exact absurd hj hdown
  | leads => exact absurd hj hdown
  | skips => exact absurd hj hdown
  | loses => exact absurd hj hdown
  | passes => exact absurd hj hdown
  | reads => exact absurd hj hdown
  | returns => exact absurd hj hdown

/-- **Leaders step down for higher terms only**, in every run in which no demoted leader
sends: each step that takes a node out of state `LEADER` is a call on it that carries a term
above its own. -/
theorem stepsDown_forHigher (id : Fin n → ℤ) (schedule : List (Fin n × Bool))
    (h : Along Cluster.step (fun c a => ¬ DemotedSend c a) (Cluster.start id) schedule) :
    Along Cluster.step StepsDownForHigher (Cluster.start id) schedule :=
  h.of_invariant (fun _ _ _ ho hsend hstep => ho.step hsend hstep)
    (fun _ a ho _ => ho.stepsDown a) (orderly_start id)

/-- Seven steps of a leader in a cluster of three: one round of heartbeats. -/
def heartbeats (i : Fin 3) : List (Fin 3 × Bool) := List.replicate 7 (i, false)

/-- Node `0` is elected and sends its heartbeats, then node `1` is elected and takes it
down. -/
theorem stepsDown_forHigher_twoElections :
    Along Cluster.step StepsDownForHigher (Cluster.start fun i : Fin 3 => (i : ℤ) + 1)
      (soloElection 0 ++ heartbeats 0 ++ soloElection 1) :=
  stepsDown_forHigher _ _ (by decide)

/-- Node `0` is elected and enters `sendHeartbeat`; node `1` is elected in term `2` and
demotes node `0`, which goes on with the loop and sends its new term to node `1`. -/
def demotedInLoop : List (Fin 3 × Bool) :=
  soloElection 0 ++ [(0, false)] ++ soloElection 1 ++ [(0, false), (0, false)]

/-- The leader of term `2` is taken down by a heartbeat of term `2`. -/
theorem leader_deposed_by_equal_term :
    ¬ Along Cluster.step StepsDownForHigher (Cluster.start fun i : Fin 3 => (i : ℤ) + 1)
      (demotedInLoop ++ [(0, false)]) := by
  intro h
  have hrun : (run Cluster.step (Cluster.start fun i : Fin 3 => (i : ℤ) + 1) demotedInLoop).map
      (fun c => ((c.step (0, false)).map fun c' => (c'.node 1).state, c.node 1, c.called 0))
        = some (some .follower, ⟨2, 2, .leader, 2⟩, some (1, 2)) := by
    decide
  obtain ⟨c, hc, hfacts⟩ := Option.map_eq_some_iff.mp hrun
  obtain ⟨hstep, hfacts⟩ := Prod.mk.inj hfacts
  obtain ⟨hnode, hcalled⟩ := Prod.mk.inj hfacts
  obtain ⟨c', hc', hfollower⟩ := Option.map_eq_some_iff.mp hstep
  obtain ⟨term, hcall, hlt⟩ := h demotedInLoop (0, false) [] c rfl hc c' 1 hc'
    (by rw [hnode]) (by rw [hfollower]; decide)
  rw [hcalled] at hcall
  obtain ⟨-, rfl⟩ := Prod.mk.inj (Option.some.inj hcall)
  rw [hnode] at hlt
  exact lt_irrefl _ hlt

/-! ## One vote per term -/

/-- The votes granted so far and what the voters remember of them. -/
structure Voted (id : Fin n → ℤ) (c : Cluster n) : Prop where
  ids : ∀ i, (c.node i).nodeId = id i
  /-- A voter has reached the term of its vote. -/
  le : ∀ p i t, Event.voted p i t ∈ c.log → t ≤ (c.node p).currTerm
  /-- In the term of its vote it remembers the candidate, unless that term was won. -/
  kept : ∀ p i t, Event.voted p i t ∈ c.log → (c.node p).currTerm = t →
    (c.node p).votedFor = id i ∨ ∃ k, Event.becomesLeader k t ∈ c.log
  unique : ∀ p i j t, Event.voted p i t ∈ c.log → Event.voted p j t ∈ c.log → id i = id j

namespace Voted

variable {id : Fin n → ℤ} {c : Cluster n}

theorem setWorker (h : Voted id c) (i : Fin n) (w : Worker n) : Voted id (c.setWorker i w) :=
  ⟨h.ids, h.le, h.kept, h.unique⟩

theorem print (h : Voted id c) {e : Event n} (he : ∀ p i t, e ≠ .voted p i t) :
    Voted id (c.print e) := by
  have hold : ∀ {p i t}, Event.voted p i t ∈ (c.print e).log → Event.voted p i t ∈ c.log :=
    fun hmem => (List.mem_cons.mp hmem).resolve_left fun heq => he _ _ _ heq.symm
  refine ⟨h.ids, fun p i t hmem => h.le p i t (hold hmem), fun p i t hmem hterm => ?_,
    fun p i j t hi hj => h.unique p i j t (hold hi) (hold hj)⟩
  rcases h.kept p i t (hold hmem) hterm with hkept | ⟨k, hk⟩
  · exact Or.inl hkept
  · exact Or.inr ⟨k, List.mem_cons_of_mem _ hk⟩

/-- Printing the vote of a node that remembers it and gave no other vote in the term. -/
theorem print_voted (h : Voted id c) {p i : Fin n} {t : ℤ} (hterm : (c.node p).currTerm = t)
    (hvote : (c.node p).votedFor = id i)
    (hsame : ∀ j, Event.voted p j t ∈ c.log → id j = id i) :
    Voted id (c.print (.voted p i t)) where
  ids := h.ids
  le q j u hmem := by
    rcases List.mem_cons.mp hmem with heq | hmem
    · obtain ⟨rfl, rfl, rfl⟩ := Event.voted.inj heq
      exact hterm.ge
    · exact h.le q j u hmem
  kept q j u hmem hu := by
    rcases List.mem_cons.mp hmem with heq | hmem
    · obtain ⟨rfl, rfl, rfl⟩ := Event.voted.inj heq
      exact Or.inl hvote
    · rcases h.kept q j u hmem hu with hkept | ⟨k, hk⟩
      · exact Or.inl hkept
      · exact Or.inr ⟨k, List.mem_cons_of_mem _ hk⟩
  unique q j k u hj hk := by
    rcases List.mem_cons.mp hj with heq | hold
    · obtain ⟨rfl, rfl, rfl⟩ := Event.voted.inj heq
      rcases List.mem_cons.mp hk with heq | hold
      · obtain ⟨-, rfl, -⟩ := Event.voted.inj heq
        rfl
      · exact (hsame k hold).symm
    · rcases List.mem_cons.mp hk with heq | hold'
      · obtain ⟨rfl, rfl, rfl⟩ := Event.voted.inj heq
        exact hsame j hold
      · exact h.unique q j k u hold hold'

/-- Changing a node whose term does not fall, and which in an unchanged term remembers its
votes. -/
theorem setNode (h : Voted id c) {p : Fin n} {nd : RaftNode}
    (hid : nd.nodeId = (c.node p).nodeId) (hle : (c.node p).currTerm ≤ nd.currTerm)
    (hkept : nd.currTerm = (c.node p).currTerm →
      ∀ i, Event.voted p i (c.node p).currTerm ∈ c.log →
        nd.votedFor = id i ∨ ∃ k, Event.becomesLeader k (c.node p).currTerm ∈ c.log) :
    Voted id (c.setNode p nd) where
  ids j := by
    rw [Cluster.setNode_node]
    by_cases hj : j = p
    · rw [hj, Function.update_self, hid, h.ids]
    · rw [Function.update_of_ne hj, h.ids]
  le q i t hmem := by
    rw [Cluster.setNode_node]
    by_cases hq : q = p
    · rw [hq, Function.update_self]
      exact (h.le p i t (hq ▸ hmem)).trans hle
    · rw [Function.update_of_ne hq]
      exact h.le q i t hmem
  kept q i t hmem hterm := by
    rw [Cluster.setNode_node] at hterm ⊢
    by_cases hq : q = p
    · subst hq
      rw [Function.update_self] at hterm ⊢
      have hold : t ≤ (c.node q).currTerm := h.le q i t hmem
      have hsame : (c.node q).currTerm = t := by omega
      rcases hkept (by omega) i (hsame ▸ hmem) with hk | hk
      · exact Or.inl hk
      · exact Or.inr (hsame ▸ hk)
    · rw [Function.update_of_ne hq] at hterm ⊢
      exact h.kept q i t hmem hterm
  unique := h.unique

/-- Whoever is still collecting votes does so in a term nobody has won. -/
theorem not_won_of_electing (ho : Orderly c) {i : Fin n} {votes : ℕ} {rest : List (Fin n)}
    (hw : c.worker i = .electing votes rest) (k : Fin n) :
    Event.becomesLeader k (c.node i).currTerm ∉ c.log := by
  intro hk
  have hlocked : c.ledger.pending i ≠ none := by
    rw [Cluster.ledger_pending_of_electing hw]
    simp
  exact lt_irrefl _ (ho.ahead k _ hk i hlocked)

theorem same_of_granted (h : Voted id c) (ho : Orderly c) (hid : ∀ i, id i ≠ -1)
    {i p : Fin n} {votes : ℕ} {rest : List (Fin n)} (hw : c.worker i = .electing votes rest)
    (hyes : (c.answer i p).1 = true) {j : Fin n}
    (hj : Event.voted p j (c.node i).currTerm ∈ c.log) : id j = id i := by
  obtain ⟨hle, -, hfree⟩ := (c.node p).requestVote_granted hyes
  have hterm : (c.node p).currTerm = (c.node i).currTerm := le_antisymm hle (h.le p j _ hj)
  rcases h.kept p j _ hj hterm with hkept | ⟨k, hk⟩
  · rcases hfree hterm with hnone | hsame
    · exact absurd (hkept.symm.trans hnone) (hid j)
    · rw [← hkept, hsame, h.ids]
  · exact absurd hk (not_won_of_electing ho hw k)

theorem granted (h : Voted id c) (ho : Orderly c) (hid : ∀ i, id i ≠ -1) {i p : Fin n}
    {votes : ℕ} {rest : List (Fin n)} (hw : c.worker i = .electing votes rest)
    (hyes : (c.answer i p).1 = true) :
    Voted id ((c.setNode p (c.answer i p).2).print (.voted p i (c.node i).currTerm)) := by
  obtain ⟨hle, hvote, -⟩ := (c.node p).requestVote_granted hyes
  have hterm : (c.answer i p).2.currTerm = (c.node i).currTerm := by
    rw [Cluster.answer, RaftNode.currTerm_requestVote]
    exact max_eq_right hle
  have hnode : (c.setNode p (c.answer i p).2).node p = (c.answer i p).2 :=
    Function.update_self ..
  have hset : Voted id (c.setNode p (c.answer i p).2) := by
    refine h.setNode (RaftNode.nodeId_requestVote _ _ _) (by omega) fun hsame j hj => ?_
    rw [← hsame, hterm] at hj
    refine Or.inl (hvote.trans ?_)
    rw [h.ids, h.same_of_granted ho hid hw hyes hj]
  refine hset.print_voted (by rw [hnode, hterm]) ?_ fun j hj =>
    h.same_of_granted ho hid hw hyes hj
  rw [hnode, ← h.ids i]
  exact hvote

theorem refused (h : Voted id c) {i p : Fin n} (hno : (c.answer i p).1 ≠ true) :
    Voted id (c.setNode p (c.answer i p).2) := by
  have hle : (c.node p).currTerm ≤ (c.answer i p).2.currTerm := by
    rw [Cluster.answer, RaftNode.currTerm_requestVote]
    exact le_max_left _ _
  refine h.setNode (RaftNode.nodeId_requestVote _ _ _) hle fun hsame j hj => ?_
  rw [Cluster.answer, RaftNode.requestVote_refused _ hno hsame]
  exact h.kept p j _ hj rfl

theorem receiveHeartbeat (h : Voted id c) {i p : Fin n} {t : ℤ}
    (hwon : Event.becomesLeader i t ∈ c.log) :
    Voted id (c.setNode p ((c.node p).receiveHeartbeat t)) := by
  have hle : (c.node p).currTerm ≤ ((c.node p).receiveHeartbeat t).currTerm := by
    rw [RaftNode.currTerm_receiveHeartbeat]
    exact le_max_left _ _
  apply h.setNode (RaftNode.nodeId_receiveHeartbeat _ _) hle
  intro hsame j hj
  rcases (c.node p).state_receiveHeartbeat t with ⟨hterm, -⟩ | ⟨-, hignored⟩
  · -- the vote is cleared, but its term is the one that was won
    rw [RaftNode.currTerm_receiveHeartbeat, max_eq_right hterm] at hsame
    exact Or.inr ⟨i, hsame ▸ hwon⟩
  · rw [hignored]
    exact h.kept p j _ hj rfl

/-- Every step but the read of a demoted leader keeps the votes in order. -/
theorem step (h : Voted id c) (ho : Orderly c) (hid : ∀ i, id i ≠ -1) {a : Fin n × Bool}
    {c' : Cluster n} (hstep : c.step a = some c') : Voted id c' := by
  cases Cluster.move_of_step hstep with
  | idles => exact h
  | timesOut => exact h.setWorker _ _
  | leads => exact (h.setWorker _ _).print (by simp)
  | begins hw =>
    have hset : Voted id (c.setNode a.1 (c.node a.1).becomeCandidate) :=
      h.setNode rfl (lt_add_one _).le fun hsame => absurd hsame (lt_add_one _).ne'
    exact (hset.setWorker _ _).print (by simp)
  | skips => exact h.setWorker _ _
  | granted p votes rest hw hne hp hyes => exact (h.granted ho hid hw hyes).setWorker _ _
  | refused p votes rest hw hne hp hno => exact (h.refused hno).setWorker _ _
  | wins votes hw =>
    have hset : Voted id (c.setNode a.1 (c.node a.1).becomeLeader) :=
      h.setNode rfl le_rfl fun _ j hj => h.kept a.1 j _ hj rfl
    exact (hset.setWorker _ _).print (by simp)
  | loses => exact h.setWorker _ _
  | passes => exact h.setWorker _ _
  | reads => exact h.setWorker _ _
  | delivers p t rest hw hp =>
    exact (h.receiveHeartbeat (ho.led.calling a.1 p t rest hw).2).setWorker _ _
  | returns => exact h.setWorker _ _

end Voted

/-- In every term each node has granted `requestVote` to one candidate id at most. -/
def OneVotePerTerm (id : Fin n → ℤ) (c : Cluster n) : Prop :=
  ∀ p i j t, Event.voted p i t ∈ c.log → Event.voted p j t ∈ c.log → id i = id j

/-- **One vote per term**, in every run in which no demoted leader sends, of a cluster that
does not use the id `-1`. -/
theorem oneVotePerTerm (id : Fin n → ℤ) (hid : ∀ i, id i ≠ -1) (schedule : List (Fin n × Bool))
    (h : Along Cluster.step (fun c a => ¬ DemotedSend c a) (Cluster.start id) schedule)
    (c : Cluster n) (hrun : run Cluster.step (Cluster.start id) schedule = some c) :
    OneVotePerTerm id c := by
  have hstep : ∀ (s : Cluster n) (a : Fin n × Bool) (s' : Cluster n),
      Orderly s ∧ Voted id s → ¬ DemotedSend s a → s.step a = some s' →
        Orderly s' ∧ Voted id s' :=
    fun s a s' hs hsend hst => ⟨hs.1.step hsend hst, hs.2.step hs.1 hid hst⟩
  have hstart : Voted id (Cluster.start id) :=
    ⟨fun _ => rfl, by simp [Cluster.start], by simp [Cluster.start], by simp [Cluster.start]⟩
  have hinv := run_invariant_along hstep ⟨orderly_start id, hstart⟩ h hrun
  exact hinv.2.unique

/-- Node `0` is elected in term `1` and sends its heartbeats, which clear the votes; node `2`
has voted for node `0` only. -/
theorem oneVotePerTerm_twoElections :
    ∃ c, run Cluster.step (Cluster.start fun i : Fin 3 => (i : ℤ) + 1)
        (soloElection 0 ++ heartbeats 0 ++ soloElection 1) = some c ∧
      Event.voted 2 0 1 ∈ c.log ∧ (c.node 2).votedFor = 2 ∧
      ∀ j, Event.voted 2 j 1 ∈ c.log → (j : ℤ) + 1 = 1 := by
  have hrun : (run Cluster.step (Cluster.start fun i : Fin 3 => (i : ℤ) + 1)
      (soloElection 0 ++ heartbeats 0 ++ soloElection 1)).map
        (fun c => (decide (Event.voted 2 0 1 ∈ c.log), (c.node 2).votedFor))
          = some (true, 2) := by
    decide
  obtain ⟨c, hc, hfacts⟩ := Option.map_eq_some_iff.mp hrun
  obtain ⟨hmem, hvote⟩ := Prod.mk.inj hfacts
  refine ⟨c, hc, of_decide_eq_true hmem, hvote, fun j hj => ?_⟩
  exact oneVotePerTerm (fun i : Fin 3 => (i : ℤ) + 1) (by decide) _ (by decide) c hc 2 j 0 1 hj
    (of_decide_eq_true hmem)

/-- A cluster of four.  Node `1` is elected and enters `sendHeartbeat`; node `2` starts an
election for term `2` and gets the votes of nodes `0` and `1`, which demotes node `1`; node
`3` starts its own election for term `2`; node `1` goes on in its loop and sends its new term
to node `0`; node `3` asks node `0`. -/
def secondVote : List (Fin 4 × Bool) :=
  List.replicate 8 (1, true) ++ List.replicate 4 (2, true) ++ List.replicate 2 (3, true)
    ++ List.replicate 2 (1, true) ++ [(3, true)]

/-- Node `0` votes for node `2` and for node `3` in term `2`. -/
theorem second_vote :
    ∃ c, run Cluster.step (Cluster.start fun i : Fin 4 => (i : ℤ) + 1) secondVote = some c ∧
      ¬ OneVotePerTerm (fun i : Fin 4 => (i : ℤ) + 1) c := by
  have hrun : (run Cluster.step (Cluster.start fun i : Fin 4 => (i : ℤ) + 1) secondVote).map
      (fun c => decide (Event.voted 0 2 2 ∈ c.log ∧ Event.voted 0 3 2 ∈ c.log))
        = some true := by
    decide
  obtain ⟨c, hc, hfacts⟩ := Option.map_eq_some_iff.mp hrun
  obtain ⟨htwo, hthree⟩ := of_decide_eq_true hfacts
  refine ⟨c, hc, fun h => ?_⟩
  have hsame := h 0 2 3 2 htwo hthree
  revert hsame
  decide

end RaftElection
