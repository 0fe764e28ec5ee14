/-
# Raft leader election (`distributed/RaftElection_onHeartbeatAbsence.cpp`)

The cluster of the simulation: `n` nodes, every node's `peers` is the whole cluster,
and each node has one worker thread that loops in `run`.

* `RaftNode` holds the fields that several threads touch; `requestVote` and
  `receiveHeartbeat` run to completion under the receiver's mutex and are plain
  functions on it.
* `Worker` is the place a node's thread has reached.  `startElection` keeps its own
  mutex from the term increment to the end of the vote loop, so a node whose worker
  is `electing` is the only node whose mutex is held between two steps.
* `step` advances one worker by one atomic step.  It is `none` when the worker waits
  for another node's mutex.  The schedule also says whether the randomised election
  timer has expired, so that clocks need not be modelled.

Terms are integers without a width: the model does not follow `currTerm` past the
largest `int`.
-/
import SystemsDesign.TransitionSystem

namespace RaftElection

/-! ## A node -/

/-- `enum State`. -/
inductive State where
  | follower
  | candidate
  | leader
  deriving DecidableEq, Repr

/-- The fields of a `RaftNode` that the protocol reads and writes. -/
structure RaftNode where
  nodeId : ℤ
  currTerm : ℤ
  state : State
  votedFor : ℤ
  deriving DecidableEq, Repr

namespace RaftNode

/-- The constructor `RaftNode(id)`. -/
def new (id : ℤ) : RaftNode :=
  { nodeId := id, currTerm := 0, state := .follower, votedFor := -1 }

/-- The first half of `startElection`: become a candidate of the next term and vote for
oneself. -/
def becomeCandidate (nd : RaftNode) : RaftNode :=
  { nd with state := .candidate, currTerm := nd.currTerm + 1, votedFor := nd.nodeId }

/-- `becomeLeader`. -/
def becomeLeader (nd : RaftNode) : RaftNode := { nd with state := .leader }

/-- The adoption of a newer term inside `requestVote`. -/
def adoptTerm (nd : RaftNode) (term : ℤ) : RaftNode :=
  if nd.currTerm < term then
    { nd with currTerm := term, votedFor := -1, state := .follower }
  else nd

/-- `requestVote(term, candidateId)`: the answer and the node afterwards. -/
def requestVote (nd : RaftNode) (term candidateId : ℤ) : Bool × RaftNode :=
  -- reject stale term
  if term < nd.currTerm then (false, nd)
  else
    let nd := nd.adoptTerm term
    if nd.votedFor = -1 ∨ nd.votedFor = candidateId then
      (true, { nd with votedFor := candidateId })
    else (false, nd)

/-- `receiveHeartbeat(received_term)`. -/
def receiveHeartbeat (nd : RaftNode) (receivedTerm : ℤ) : RaftNode :=
  if nd.currTerm ≤ receivedTerm then
    { nd with currTerm := receivedTerm, state := .follower, votedFor := -1 }
  else nd

theorem currTerm_adoptTerm (nd : RaftNode) {term : ℤ} (h : nd.currTerm ≤ term) :
    (nd.adoptTerm term).currTerm = term := by
  unfold adoptTerm
  by_cases hnew : nd.currTerm < term
  · rw [if_pos hnew]
  · rw [if_neg hnew]
    omega

/-- Whatever the answer, a vote request raises the term to the candidate's if that is
higher. -/
theorem currTerm_requestVote (nd : RaftNode) (term candidateId : ℤ) :
    (nd.requestVote term candidateId).2.currTerm = max nd.currTerm term := by
  unfold requestVote
  by_cases hstale : term < nd.currTerm
  · rw [if_pos hstale, max_eq_left hstale.le]
  · rw [if_neg hstale, max_eq_right (not_lt.mp hstale)]
    dsimp only
    split_ifs <;> exact currTerm_adoptTerm nd (not_lt.mp hstale)

theorem currTerm_receiveHeartbeat (nd : RaftNode) (receivedTerm : ℤ) :
    (nd.receiveHeartbeat receivedTerm).currTerm = max nd.currTerm receivedTerm := by
  unfold receiveHeartbeat
  by_cases h : nd.currTerm ≤ receivedTerm
  · rw [if_pos h, max_eq_right h]
  · rw [if_neg h, max_eq_left (not_le.mp h).le]

end RaftNode

/-! ## The cluster -/

/-- How far the worker thread of a node has come. -/
inductive Worker (n : ℕ) where
  /-- At the head of the loop in `run`. -/
  | run
  /-- `startElection` was called and waits for the node's own mutex. -/
  | lockOwn
  /-- Inside the vote loop of `startElection`, own mutex held: the votes so far and the
  peers still to be asked. -/
  | electing (votes : ℕ) (rest : List (Fin n))
  /-- Inside the loop of `sendHeartbeat`, no mutex held. -/
  | sending (rest : List (Fin n))
  /-- `currTerm` was read and `peer->receiveHeartbeat` waits for the peer's mutex. -/
  | calling (peer : Fin n) (receivedTerm : ℤ) (rest : List (Fin n))
  deriving DecidableEq, Repr

/-- The lines the nodes print, with the term of a vote added. -/
inductive Event (n : ℕ) where
  | startsElection (i : Fin n) (term : ℤ)
  | voted (voter candidate : Fin n) (term : ℤ)
  | becomesLeader (i : Fin n) (term : ℤ)
  | sendsHeartbeat (i : Fin n)
  deriving DecidableEq, Repr

/-- The state of the simulation. -/
structure Cluster (n : ℕ) where
  node : Fin n → RaftNode
  worker : Fin n → Worker n
  log : List (Event n)

variable {n : ℕ}

/-- `setPeers(cluster)`: the peers of every node, the node itself included. -/
def peers (n : ℕ) : List (Fin n) := List.finRange n

namespace Cluster

/-- The cluster after the constructors, `setPeers` and `start`. -/
def start (id : Fin n → ℤ) : Cluster n :=
  { node := fun i => RaftNode.new (id i), worker := fun _ => .run, log := [] }

/-- The mutex of node `i` is held across steps exactly while `i` runs an election. -/
def locked (c : Cluster n) (i : Fin n) : Bool :=
  match c.worker i with
  | .electing _ _ => true
  | _ => false

/-- Replace the fields of node `i`. -/
def setNode (c : Cluster n) (i : Fin n) (nd : RaftNode) : Cluster n :=
  { c with node := Function.update c.node i nd }

/-- Move the worker of node `i`. -/
def setWorker (c : Cluster n) (i : Fin n) (w : Worker n) : Cluster n :=
  { c with worker := Function.update c.worker i w }

/-- Print a line. -/
def print (c : Cluster n) (e : Event n) : Cluster n := { c with log := e :: c.log }

@[simp] theorem setNode_node (c : Cluster n) (i : Fin n) (nd : RaftNode) :
    (c.setNode i nd).node = Function.update c.node i nd := rfl
@[simp] theorem setNode_worker (c : Cluster n) (i : Fin n) (nd : RaftNode) :
    (c.setNode i nd).worker = c.worker := rfl
@[simp] theorem setNode_log (c : Cluster n) (i : Fin n) (nd : RaftNode) :
    (c.setNode i nd).log = c.log := rfl
@[simp] theorem setWorker_node (c : Cluster n) (i : Fin n) (w : Worker n) :
    (c.setWorker i w).node = c.node := rfl
@[simp] theorem setWorker_worker (c : Cluster n) (i : Fin n) (w : Worker n) :
    (c.setWorker i w).worker = Function.update c.worker i w := rfl
@[simp] theorem setWorker_log (c : Cluster n) (i : Fin n) (w : Worker n) :
    (c.setWorker i w).log = c.log := rfl
@[simp] theorem print_node (c : Cluster n) (e : Event n) : (c.print e).node = c.node := rfl
@[simp] theorem print_worker (c : Cluster n) (e : Event n) :
    (c.print e).worker = c.worker := rfl
@[simp] theorem print_log (c : Cluster n) (e : Event n) : (c.print e).log = e :: c.log := rfl

/-! ## The steps of a worker -/

/-- One iteration of the loop in `run`: `elapsed > timeout` is the schedule's choice. -/
def runStep (c : Cluster n) (i : Fin n) (timedOut : Bool) : Cluster n :=
  if (c.node i).state ≠ .leader then
    if timedOut then c.setWorker i .lockOwn else c
  else (c.setWorker i (.sending (peers n))).print (.sendsHeartbeat i)

/-- `startElection` obtains its own mutex. -/
def beginElection (c : Cluster n) (i : Fin n) : Cluster n :=
  ((c.setNode i (c.node i).becomeCandidate).setWorker i (.electing 1 (peers n))).print
    (.startsElection i ((c.node i).currTerm + 1))

/-- `peer->requestVote(currTerm, nodeId)` on a peer whose mutex is free. -/
def askVote (c : Cluster n) (i p : Fin n) (votes : ℕ) (rest : List (Fin n)) : Cluster n :=
  let answer := (c.node p).requestVote (c.node i).currTerm (c.node i).nodeId
  let c' := c.setNode p answer.2
  if answer.1 then
    (c'.setWorker i (.electing (votes + 1) rest)).print (.voted p i (c.node i).currTerm)
  else c'.setWorker i (.electing votes rest)

/-- The end of `startElection`: a majority makes the node leader, the mutex is released. -/
def endElection (c : Cluster n) (i : Fin n) (votes : ℕ) : Cluster n :=
  if votes > (peers n).length / 2 then
    ((c.setNode i (c.node i).becomeLeader).setWorker i .run).print
      (.becomesLeader i (c.node i).currTerm)
  else c.setWorker i .run

/-- `peer->receiveHeartbeat(term)` on a peer whose mutex is free. -/
def deliver (c : Cluster n) (i p : Fin n) (receivedTerm : ℤ) (rest : List (Fin n)) :
    Cluster n :=
  (c.setNode p ((c.node p).receiveHeartbeat receivedTerm)).setWorker i (.sending rest)

/-- The worker named by the schedule takes its next atomic step. -/
def step (c : Cluster n) (a : Fin n × Bool) : Option (Cluster n) :=
  match c.worker a.1 with
  | .run => some (c.runStep a.1 a.2)
  | .lockOwn => some (c.beginElection a.1)
  | .electing votes [] => some (c.endElection a.1 votes)
  | .electing votes (p :: rest) =>
    if p = a.1 then some (c.setWorker a.1 (.electing votes rest))
    else if c.locked p then none
    else some (c.askVote a.1 p votes rest)
  | .sending [] => some (c.setWorker a.1 .run)
  | .sending (p :: rest) =>
    if p = a.1 then some (c.setWorker a.1 (.sending rest))
    else some (c.setWorker a.1 (.calling p (c.node a.1).currTerm rest))
  | .calling p term rest =>
    if c.locked p then none
    else some (c.deliver a.1 p term rest)

/-! ## What a step can be -/

/-- The peer that worker `i` calls next, and the term the call carries. -/
def called (c : Cluster n) (i : Fin n) : Option (Fin n × ℤ) :=
  match c.worker i with
  | .electing _ (p :: _) => if p = i then none else some (p, (c.node i).currTerm)
  | .calling p term _ => some (p, term)
  | _ => none

/-- The answer of `p` to the vote request of `i`, and `p` afterwards. -/
def answer (c : Cluster n) (i p : Fin n) : Bool × RaftNode :=
  (c.node p).requestVote (c.node i).currTerm (c.node i).nodeId

/-- The moves of worker `i` from `c`, one case for each place the worker can be at and each
outcome there. -/
inductive Move (c : Cluster n) (i : Fin n) : Cluster n → Prop where
  | idles : c.worker i = .run → Move c i c
  | timesOut : c.worker i = .run → (c.node i).state ≠ .leader →
      Move c i (c.setWorker i .lockOwn)
  | leads : c.worker i = .run → (c.node i).state = .leader →
      Move c i ((c.setWorker i (.sending (peers n))).print (.sendsHeartbeat i))
  | begins : c.worker i = .lockOwn → Move c i (c.beginElection i)
  | skips (votes : ℕ) (rest : List (Fin n)) : c.worker i = .electing votes (i :: rest) →
      Move c i (c.setWorker i (.electing votes rest))
  | granted (p : Fin n) (votes : ℕ) (rest : List (Fin n)) :
      c.worker i = .electing votes (p :: rest) → p ≠ i → ¬ c.locked p = true →
      (c.answer i p).1 = true →
      Move c i (((c.setNode p (c.answer i p).2).setWorker i (.electing (votes + 1) rest)).print
        (.voted p i (c.node i).currTerm))
  | refused (p : Fin n) (votes : ℕ) (rest : List (Fin n)) :
      c.worker i = .electing votes (p :: rest) → p ≠ i → ¬ c.locked p = true →
      (c.answer i p).1 ≠ true →
      Move c i ((c.setNode p (c.answer i p).2).setWorker i (.electing votes rest))
  | wins (votes : ℕ) : c.worker i = .electing votes [] →
      Move c i (((c.setNode i (c.node i).becomeLeader).setWorker i .run).print
        (.becomesLeader i (c.node i).currTerm))
  | loses (votes : ℕ) : c.worker i = .electing votes [] → Move c i (c.setWorker i .run)
  | passes (rest : List (Fin n)) : c.worker i = .sending (i :: rest) →
      Move c i (c.setWorker i (.sending rest))
  | reads (p : Fin n) (rest : List (Fin n)) : c.worker i = .sending (p :: rest) → p ≠ i →
      Move c i (c.setWorker i (.calling p (c.node i).currTerm rest))
  | delivers (p : Fin n) (term : ℤ) (rest : List (Fin n)) :
      c.worker i = .calling p term rest → ¬ c.locked p = true →
      Move c i (c.deliver i p term rest)
  | returns : c.worker i = .sending [] → Move c i (c.setWorker i .run)

/-- Every step is one of the moves. -/
theorem move_of_step {c c' : Cluster n} {a : Fin n × Bool} (h : c.step a = some c') :
    Move c a.1 c' := by
  obtain ⟨i, timedOut⟩ := a
  unfold step at h
  dsimp only at h ⊢
  split at h
  case h_1 hw =>
    obtain rfl := Option.some.inj h
    unfold runStep
    split_ifs with hs
    · exact .timesOut hw hs
    · exact .idles hw
    · exact .leads hw (not_not.mp hs)
  case h_2 hw =>
    obtain rfl := Option.some.inj h
    exact .begins hw
  case h_3 votes hw =>
    obtain rfl := Option.some.inj h
    unfold endElection
    split_ifs
    · exact .wins votes hw
    · exact .loses votes hw
  case h_4 votes p rest hw =>
    split_ifs at h with hpi hp
    · obtain rfl := Option.some.inj h
      exact .skips votes rest (hpi ▸ hw)
    · obtain rfl := Option.some.inj h
      unfold askVote
      dsimp only
      split_ifs with hyes
      · exact .granted p votes rest hw hpi hp hyes
      · exact .refused p votes rest hw hpi hp hyes
  case h_5 hw =>
    obtain rfl := Option.some.inj h
    exact .returns hw
  case h_6 p rest hw =>
    split_ifs at h with hpi
    · obtain rfl := Option.some.inj h
      exact .passes rest (hpi ▸ hw)
    · obtain rfl := Option.some.inj h
      exact .reads p rest hw hpi
  case h_7 p term rest hw =>
    split_ifs at h with hp
    obtain rfl := Option.some.inj h
    exact .delivers p term rest hw hp

end Cluster

end RaftElection
