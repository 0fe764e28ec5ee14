/-
# The two-phase commit coordinator (`database-internals/2PC_Coordinator.cpp`)

One `Coordinator` drives any number of participants through calls of `addParticipant`,
`prepare`, `commit` and `abort`, in any order.  The participants are pointers, so the
model is generic in their type, and what `p->prepare()` answers is an input of each
`prepare` call.

* Agreement fails: `abort` does not look at the state of the coordinator, and `prepare`
  starts a new vote after a decision (`committed_then_aborted`).  It holds in every run
  that takes no new decision after the first one (`agreement_of_decidedOnce`).
* Validity fails: `commit` goes to the participants of the moment, not to those that
  were asked (`late_participant_commits`).  It holds in every run that adds nobody new
  to a prepared transaction (`validity_of_closedVote`).
-/
import SystemsDesign.TransitionSystem

namespace TwoPhaseCommit

open TransitionSystem

variable {P : Type*}

/-! ## The coordinator -/

/-- `enum class Txnstate`. -/
inductive Txnstate where
  | init
  | prepared
  | committed
  | aborted
  deriving DecidableEq, Repr

/-- What a run prints and delivers. -/
inductive Event (P : Type*) where
  /-- `----Prepare Phase----` -/
  | preparePhase
  /-- `p->prepare()` was called and gave this vote. -/
  | voted (p : P) (yes : Bool)
  /-- `Not reached Prepared state! Cannot commit!` -/
  | cannotCommit
  /-- `----Commit Phase----` -/
  | commitPhase
  /-- `p->commit()` was called. -/
  | committed (p : P)
  /-- `----Abort Phase----` -/
  | abortPhase
  /-- `p->abort()` was called. -/
  | aborted (p : P)
  deriving DecidableEq, Repr

/-- `class Coordinator`, with what it has printed and delivered so far, oldest first. -/
structure Coordinator (P : Type*) where
  participants : List P := []
  state : Txnstate := .init
  log : List (Event P) := []

namespace Coordinator

/-- `addParticipant`. -/
def addParticipant (c : Coordinator P) (p : P) : Coordinator P :=
  { c with participants := c.participants ++ [p] }

/-- Print or deliver `events`. -/
def emit (c : Coordinator P) (events : List (Event P)) : Coordinator P :=
  { c with log := c.log ++ events }

/-- `abort`: every participant is told, whatever the state. -/
def abort (c : Coordinator P) : Coordinator P :=
  { c.emit (.abortPhase :: c.participants.map .aborted) with state := .aborted }

/-- The votes collected by the loop of `prepare`, which ends at the first no: `votes i` is
what the `i`-th participant asked would answer. -/
def collect : List P → (ℕ → Bool) → List (Event P)
  | [], _ => []
  | p :: ps, votes =>
    if votes 0 then .voted p true :: collect ps (fun i => votes (i + 1))
    else [.voted p false]

/-- Whether the loop of `prepare` reaches the end of the list. -/
def allYes : List P → (ℕ → Bool) → Bool
  | [], _ => true
  | _ :: ps, votes => votes 0 && allYes ps (fun i => votes (i + 1))

/-- `prepare`: the result and the coordinator afterwards. -/
def prepare (c : Coordinator P) (votes : ℕ → Bool) : Bool × Coordinator P :=
  let asked := c.emit (.preparePhase :: collect c.participants votes)
  if allYes c.participants votes then (true, { asked with state := .prepared })
  else (false, asked.abort)

/-- `commit`. -/
def commit (c : Coordinator P) : Coordinator P :=
  if c.state ≠ .prepared then c.emit [.cannotCommit]
  else { c.emit (.commitPhase :: c.participants.map .committed) with state := .committed }

/-! ## What the calls add to the log -/

theorem mem_collect {e : Event P} {ps : List P} {votes : ℕ → Bool}
    (he : e ∈ collect ps votes) : ∃ p yes, e = .voted p yes := by
  induction ps generalizing votes with
  | nil => simp [collect] at he
  | cons p ps ih =>
    unfold collect at he
    split_ifs at he with hv
    · rcases List.mem_cons.mp he with rfl | he
      · exact ⟨p, true, rfl⟩
      · exact ih he
    · exact ⟨p, false, List.mem_singleton.mp he⟩

theorem notMem_phase {e : Event P} (ps : List P) (votes : ℕ → Bool) (hphase : e ≠ .preparePhase)
    (hvoted : ∀ p yes, e ≠ .voted p yes) : e ∉ Event.preparePhase :: collect ps votes := by
  intro he
  rcases List.mem_cons.mp he with he | he
  · exact hphase he
  · obtain ⟨p, yes, hp⟩ := mem_collect he
    exact hvoted p yes hp

theorem voted_mem_collect {ps : List P} {votes : ℕ → Bool} (h : allYes ps votes = true) {p : P}
    (hp : p ∈ ps) : Event.voted p true ∈ collect ps votes := by
  induction ps generalizing votes with
  | nil => simp at hp
  | cons q ps ih =>
    simp only [allYes, Bool.and_eq_true] at h
    unfold collect
    rw [if_pos h.1]
    rcases List.mem_cons.mp hp with rfl | hp
    · exact List.mem_cons_self
    · exact List.mem_cons_of_mem _ (ih h.2 hp)

theorem prepare_of_allYes (c : Coordinator P) {votes : ℕ → Bool}
    (h : allYes c.participants votes = true) :
    (c.prepare votes).2
      = { c.emit (.preparePhase :: collect c.participants votes) with state := .prepared } := by
  unfold prepare
  rw [if_pos h]

theorem prepare_of_not_allYes (c : Coordinator P) {votes : ℕ → Bool}
    (h : ¬ allYes c.participants votes = true) :
    (c.prepare votes).2 = (c.emit (.preparePhase :: collect c.participants votes)).abort := by
  unfold prepare
  rw [if_neg h]

theorem commit_of_not_prepared (c : Coordinator P) (h : c.state ≠ .prepared) :
    c.commit = c.emit [.cannotCommit] := if_pos h

theorem commit_of_prepared (c : Coordinator P) (h : c.state = .prepared) :
    c.commit
      = { c.emit (.commitPhase :: c.participants.map .committed) with state := .committed } :=
  if_neg (not_not_intro h)

end Coordinator

/-! ## Runs -/

/-- The calls on a coordinator; a `prepare` comes with the answers its participants
give. -/
inductive Op (P : Type*) where
  | addParticipant (p : P)
  | prepare (votes : ℕ → Bool)
  | commit
  | abort

/-- One call. -/
def step (c : Coordinator P) : Op P → Coordinator P
  | .addParticipant p => c.addParticipant p
  | .prepare votes => (c.prepare votes).2
  | .commit => c.commit
  | .abort => c.abort

/-- A sequence of calls on a new coordinator. -/
def runOps (ops : List (Op P)) : Coordinator P := ops.foldl step {}

/-! ## Agreement -/

/-- No commit and no abort were delivered in the same run. -/
def Agreement (log : List (Event P)) : Prop :=
  ∀ p q, Event.committed p ∈ log → Event.aborted q ∉ log

/-- The call takes no decision after the first one: no `abort` of a committed transaction
and no new vote on a committed or aborted one. -/
def DecidedOnce (c : Coordinator P) : Op P → Prop
  | .prepare _ => c.state = .init ∨ c.state = .prepared
  | .abort => c.state ≠ .committed
  | .addParticipant _ => True
  | .commit => True

/-- The state tells which decision was delivered. -/
structure Decided (c : Coordinator P) : Prop where
  commits : ∀ p, Event.committed p ∈ c.log → c.state = .committed
  aborts : ∀ p, Event.aborted p ∈ c.log → c.state = .aborted

namespace Decided

variable {c : Coordinator P}

theorem emit (h : Decided c) {events : List (Event P)}
    (hc : ∀ p, Event.committed p ∉ events) (ha : ∀ p, Event.aborted p ∉ events) :
    Decided (c.emit events) where
  commits p hp := h.commits p ((List.mem_append.mp hp).resolve_right (hc p))
  aborts p hp := h.aborts p ((List.mem_append.mp hp).resolve_right (ha p))

theorem ask (h : Decided c) (votes : ℕ → Bool) :
    Decided (c.emit (.preparePhase :: Coordinator.collect c.participants votes)) :=
  h.emit (fun _ => Coordinator.notMem_phase _ _ (by simp) (by simp))
    (fun _ => Coordinator.notMem_phase _ _ (by simp) (by simp))

theorem prepared (h : Decided c) (hc : c.state ≠ .committed) (ha : c.state ≠ .aborted) :
    Decided { c with state := .prepared } where
  commits p hp := absurd (h.commits p hp) hc
  aborts p hp := absurd (h.aborts p hp) ha

theorem abort (h : Decided c) (hc : c.state ≠ .committed) : Decided c.abort where
  commits p hp := by
    rcases List.mem_append.mp hp with hp | hp
    · exact absurd (h.commits p hp) hc
    · simp at hp
  aborts _ _ := rfl

theorem commit (h : Decided c) : Decided c.commit := by
  by_cases hs : c.state = .prepared
  · rw [c.commit_of_prepared hs]
    refine ⟨fun _ _ => rfl, fun p hp => ?_⟩
    rcases List.mem_append.mp hp with hp | hp
    · have := h.aborts p hp
      rw [hs] at this
      cases this
    · simp at hp
  · rw [c.commit_of_not_prepared hs]
    exact h.emit (by simp) (by simp)

/-- Every call that decides once keeps the invariant. -/
theorem step (h : Decided c) (op : Op P) (hop : DecidedOnce c op) :
    Decided (step c op) := by
  cases op with
  | addParticipant p => exact ⟨h.commits, h.aborts⟩
  | prepare votes =>
    have hc : c.state ≠ .committed := by
      rcases hop with hs | hs <;> rw [hs] <;> decide
    have ha : c.state ≠ .aborted := by
      rcases hop with hs | hs <;> rw [hs] <;> decide
    show Decided (c.prepare votes).2
    by_cases hv : Coordinator.allYes c.participants votes = true
    · rw [c.prepare_of_allYes hv]
      exact (h.ask votes).prepared hc ha
    · rw [c.prepare_of_not_allYes hv]
      exact (h.ask votes).abort hc
  | commit => exact h.commit
  | abort => exact h.abort hop

end Decided

/-- **Agreement of runs that decide once.**  In every run that asks for no votes after a
decision and never aborts a committed transaction, commit is not delivered to one
participant and abort to another. -/
theorem agreement_of_decidedOnce (ops : List (Op P))
    (h : Throughout step DecidedOnce ({} : Coordinator P) ops) : Agreement (runOps ops).log := by
  have hinit : Decided ({} : Coordinator P) := ⟨by simp, by simp⟩
  have hdec : Decided (runOps ops) :=
    foldl_invariant_along (fun c op hc hop => hc.step op hop) hinit h
  intro p q hp hq
  have hstate := (hdec.commits p hp).symm.trans (hdec.aborts q hq)
  cases hstate

theorem agreement_of_decidedOnce_two :
    Agreement (runOps [.addParticipant 1, .addParticipant 2, .prepare fun _ => true,
      .commit] : Coordinator ℤ).log :=
  agreement_of_decidedOnce _ (by
    simp only [throughout_cons, throughout_nil, DecidedOnce, and_true, true_and]
    decide)

/-- A committed transaction is aborted by one more call: participant `1` receives both. -/
theorem committed_then_aborted :
    ¬ Agreement (runOps [.addParticipant 1, .prepare fun _ => true, .commit, .abort] :
      Coordinator ℤ).log := by
  intro h
  exact h 1 1 (by decide) (by decide)

/-! ## Validity -/

/-- In the most recent prepare phase of `log`, `p` was asked and voted yes. -/
def AskedYes (log : List (Event P)) (p : P) : Prop :=
  ∃ older phase, log = older ++ .preparePhase :: phase ∧
    Event.preparePhase ∉ phase ∧ Event.voted p true ∈ phase

/-- Every commit went to a participant that had voted yes in the most recent prepare
phase. -/
def Validity (log : List (Event P)) : Prop :=
  ∀ before p after, log = before ++ .committed p :: after → AskedYes before p

/-- The call adds nobody new to a prepared transaction. -/
def ClosedVote (c : Coordinator P) (op : Op P) : Prop :=
  ∀ p, op = .addParticipant p → c.state = .prepared → p ∈ c.participants

/-- What is printed or delivered before the next prepare phase leaves the votes as they
are. -/
theorem AskedYes.append {log : List (Event P)} {p : P} (h : AskedYes log p)
    {events : List (Event P)} (he : Event.preparePhase ∉ events) :
    AskedYes (log ++ events) p := by
  obtain ⟨older, phase, rfl, hphase, hp⟩ := h
  refine ⟨older, phase ++ events, by simp, ?_, List.mem_append_left _ hp⟩
  intro hmem
  rcases List.mem_append.mp hmem with hmem | hmem
  · exact hphase hmem
  · exact he hmem

/-- A log stays valid when every commit appended to it is backed by a vote. -/
theorem Validity.append {log events : List (Event P)} (h : Validity log)
    (he : ∀ before p after, events = before ++ .committed p :: after →
      AskedYes (log ++ before) p) : Validity (log ++ events) := by
  intro before p after heq
  rcases List.append_eq_append_iff.mp heq with ⟨mid, hbefore, hevents⟩ | ⟨mid, hlog, hafter⟩
  · rw [hbefore]
    exact he mid p after hevents
  · cases mid with
    | nil =>
      rw [List.append_nil] at hlog
      rw [← hlog, ← List.append_nil log]
      exact he [] p after hafter.symm
    | cons e mid =>
      obtain ⟨rfl, -⟩ := List.cons.inj hafter
      exact h before p mid hlog

theorem Validity.append_of_notMem {log events : List (Event P)} (h : Validity log)
    (he : ∀ p, Event.committed p ∉ events) : Validity (log ++ events) := by
  refine h.append fun before p after heq => absurd ?_ (he p)
  rw [heq]
  exact List.mem_append_right _ List.mem_cons_self

/-- The commits so far were backed, and a prepared transaction may be committed. -/
structure Backed (c : Coordinator P) : Prop where
  valid : Validity c.log
  asked : c.state = .prepared → ∀ p ∈ c.participants, AskedYes c.log p

namespace Backed

variable {c : Coordinator P}

theorem valid_ask (h : Backed c) (votes : ℕ → Bool) :
    Validity (c.emit (.preparePhase :: Coordinator.collect c.participants votes)).log :=
  h.valid.append_of_notMem fun _ => Coordinator.notMem_phase _ _ (by simp) (by simp)

theorem of_not_prepared (hvalid : Validity c.log) (hs : c.state ≠ .prepared) : Backed c where
  valid := hvalid
  asked h := absurd h hs

theorem abort (h : Validity c.log) : Backed c.abort :=
  of_not_prepared (h.append_of_notMem (by simp)) (by simp [Coordinator.abort])

/-- Adding somebody new is harmless unless the transaction is prepared. -/
theorem addParticipant (h : Backed c) {p : P} (hp : c.state = .prepared → p ∈ c.participants) :
    Backed (c.addParticipant p) where
  valid := h.valid
  asked hs q hq := by
    rcases List.mem_append.mp hq with hq | hq
    · exact h.asked hs q hq
    · rw [List.mem_singleton.mp hq]
      exact h.asked hs p (hp hs)

theorem prepare (h : Backed c) (votes : ℕ → Bool) : Backed (c.prepare votes).2 := by
  by_cases hv : Coordinator.allYes c.participants votes = true
  · rw [c.prepare_of_allYes hv]
    refine ⟨h.valid_ask votes, fun _ p hp => ?_⟩
    refine ⟨c.log, Coordinator.collect c.participants votes, rfl, fun hmem => ?_,
      Coordinator.voted_mem_collect hv hp⟩
    obtain ⟨q, yes, hq⟩ := Coordinator.mem_collect hmem
    cases hq
  · rw [c.prepare_of_not_allYes hv]
    exact abort (h.valid_ask votes)

theorem commit (h : Backed c) : Backed c.commit := by
  by_cases hs : c.state = .prepared
  · rw [c.commit_of_prepared hs]
    refine of_not_prepared (h.valid.append fun before p after heq => ?_) (by simp)
    have hp : p ∈ c.participants := by
      have hmem : Event.committed p ∈ Event.commitPhase :: c.participants.map .committed := by
        rw [heq]
        exact List.mem_append_right _ List.mem_cons_self
      simpa using hmem
    apply (h.asked hs p hp).append
    intro hmem
    have hphase : Event.preparePhase ∈
        Event.commitPhase :: c.participants.map Event.committed := by
      rw [heq]
      exact List.mem_append_left _ hmem
    simp at hphase
  · rw [c.commit_of_not_prepared hs]
    exact of_not_prepared (h.valid.append_of_notMem (by simp)) hs

theorem step (h : Backed c) (op : Op P) (hop : ClosedVote c op) : Backed (step c op) := by
  cases op with
  | addParticipant p => exact h.addParticipant (hop p rfl)
  | prepare votes => exact h.prepare votes
  | commit => exact h.commit
  | abort => exact abort h.valid

end Backed

/-- **Validity of runs with a closed vote.**  In every run that adds nobody new to a
prepared transaction, commit is received only by participants that were asked and voted yes
in the most recent prepare phase. -/
theorem validity_of_closedVote (ops : List (Op P))
    (h : Throughout step ClosedVote ({} : Coordinator P) ops) : Validity (runOps ops).log := by
  have hinit : Backed ({} : Coordinator P) := ⟨by simp [Validity], by simp⟩
  have hback : Backed (runOps ops) :=
    foldl_invariant_along (fun c op hc hop => hc.step op hop) hinit h
  exact hback.valid

theorem validity_of_closedVote_two :
    Validity (runOps [.addParticipant 1, .addParticipant 2, .prepare fun _ => true,
      .commit] : Coordinator ℤ).log :=
  validity_of_closedVote _ (by
    simp [ClosedVote, TwoPhaseCommit.step, Coordinator.addParticipant])

/-- A participant that joins after the vote receives commit without having been asked. -/
theorem late_participant_commits :
    ¬ Validity (runOps [.addParticipant 1, .prepare fun _ => true, .addParticipant 2,
      .commit] : Coordinator ℤ).log := by
  intro h
  obtain ⟨older, phase, hlog, -, hvoted⟩ :=
    h [.preparePhase, .voted 1 true, .commitPhase, .committed 1] 2 [] (by decide)
  have hmem : Event.voted 2 true ∈ [Event.preparePhase, .voted (1 : ℤ) true, .commitPhase,
      .committed 1] := by
    rw [hlog]
    exact List.mem_append_right _ (List.mem_cons_of_mem _ hvoted)
  revert hmem
  decide

end TwoPhaseCommit
