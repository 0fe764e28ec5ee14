/-
# The load balancer

Model of `storage/LoadBalancer.cpp`.  `LoadBalancer` keeps the list of servers and asks a strategy
for the next one.  `RoundRobin` keeps a cursor, uses it as an index into the list, and advances it
modulo the size that the list has then; the list may change before the cursor is used again.
`LeastConnection` has no state.

Results: the cursor of `RoundRobin` is a valid index in every state of a sequence of calls, and so
at every `getNextServer`, exactly if no `removeServer` leaves a list that is not empty and that the
cursor lies behind, and no `addServer` finds an empty list with the cursor off zero.
`LeastConnection` always answers with a server that has the fewest connections.
-/
import SystemsDesign.TransitionSystem

namespace LoadBalancers

open TransitionSystem

/-! ## Servers and strategies -/

/-- `Server`. -/
structure Server where
  serverId : ℤ
  numConnections : ℤ := 0
  deriving DecidableEq

/-- A `LoadBalancer` with a `RoundRobin` strategy: the list and the cursor. -/
structure LoadBalancer where
  servers : List Server
  nextServerId : ℕ
  deriving DecidableEq

/-- No servers, and the cursor at the beginning. -/
def LoadBalancer.new : LoadBalancer where
  servers := []
  nextServerId := 0

namespace LoadBalancer

/-- `addServer`. -/
def addServer (lb : LoadBalancer) (serverId : ℤ) : LoadBalancer :=
  { lb with servers := lb.servers ++ [{ serverId }] }

/-- `RoundRobin::nextServer`: the index that is dereferenced, and the cursor after the call. -/
def nextServer (servers : List Server) (nextServerId : ℕ) : Option ℕ × ℕ :=
  if servers.isEmpty then (none, nextServerId)
  else (some nextServerId, (nextServerId + 1) % servers.length)

/-- `getNextServer`. -/
def getNextServer (lb : LoadBalancer) : Option ℕ × LoadBalancer :=
  let (index, nextServerId) := nextServer lb.servers lb.nextServerId
  (index, { lb with nextServerId })

/-- `removeServer`: every server with the id is erased. -/
def removeServer (lb : LoadBalancer) (serverId : ℤ) : LoadBalancer :=
  { lb with servers := lb.servers.filter fun server => server.serverId ≠ serverId }

end LoadBalancer

/-- The calls. -/
inductive Call where
  | addServer (serverId : ℤ)
  | removeServer (serverId : ℤ)
  | getNextServer
  deriving DecidableEq

/-- One call. -/
def exec (lb : LoadBalancer) : Call → LoadBalancer
  | .addServer serverId => lb.addServer serverId
  | .removeServer serverId => lb.removeServer serverId
  | .getNextServer => lb.getNextServer.2

/-! ## The cursor -/

/-- The index that `getNextServer` dereferences, if it does, is one of the list. -/
def IndexValid (lb : LoadBalancer) : Prop :=
  ∀ index ∈ lb.getNextServer.1, index < lb.servers.length

/-- The call, if it is one of `getNextServer`, dereferences a valid index or none. -/
def DereferencesValid (lb : LoadBalancer) : Call → Prop
  | .getNextServer => IndexValid lb
  | _ => True

/-- The call keeps the cursor within the list: the first server is added with the cursor at zero,
and what a removal leaves is empty or reaches beyond the cursor. -/
def KeepsCursor (lb : LoadBalancer) : Call → Prop
  | .addServer _ => lb.servers = [] → lb.nextServerId = 0
  | .removeServer serverId =>
    (lb.removeServer serverId).servers ≠ [] →
      lb.nextServerId < (lb.removeServer serverId).servers.length
  | .getNextServer => True

section Cursor

variable {lb : LoadBalancer}

theorem indexValid_iff :
    IndexValid lb ↔ (lb.servers ≠ [] → lb.nextServerId < lb.servers.length) := by
  obtain ⟨servers, nextServerId⟩ := lb
  cases servers with
  | nil => simp [IndexValid, LoadBalancer.getNextServer, LoadBalancer.nextServer]
  | cons server servers => simp [IndexValid, LoadBalancer.getNextServer, LoadBalancer.nextServer]

/-- **The cursor stays valid exactly if the call keeps it.** -/
theorem indexValid_exec_iff (h : IndexValid lb) (c : Call) :
    IndexValid (exec lb c) ↔ KeepsCursor lb c := by
  rw [indexValid_iff] at h ⊢
  cases c with
  | addServer serverId =>
    show (lb.servers ++ [_] ≠ [] → lb.nextServerId < (lb.servers ++ [_]).length) ↔
      (lb.servers = [] → lb.nextServerId = 0)
    rw [List.length_append, List.length_singleton]
    by_cases hempty : lb.servers = []
    · rw [hempty]
      simp
    · have hlt := h hempty
      refine iff_of_true (fun _ => by omega) fun hnil => absurd hnil hempty
  | removeServer serverId => exact Iff.rfl
  | getNextServer =>
    refine iff_of_true ?_ trivial
    show lb.servers ≠ [] → (LoadBalancer.nextServer lb.servers lb.nextServerId).2 < _
    intro hne
    unfold LoadBalancer.nextServer
    rw [if_neg (by simpa using hne)]
    exact Nat.mod_lt _ (List.length_pos_of_ne_nil hne)

end Cursor

/-- **Round-robin is safe as long as the calls keep the cursor**: then every call of
`getNextServer` that is made dereferences a valid index.  And only then it could be called in every
state of the sequence. -/
theorem roundRobin_valid_iff (calls : List Call) :
    (Throughout exec KeepsCursor .new calls → Throughout exec DereferencesValid .new calls) ∧
    (Invariably exec IndexValid .new calls ↔ Throughout exec KeepsCursor .new calls) := by
  have hiff : Invariably exec IndexValid .new calls ↔ Throughout exec KeepsCursor .new calls :=
    invariably_iff_throughout (fun _ c h => indexValid_exec_iff h c) (by simp [indexValid_iff,
      LoadBalancer.new])
  refine ⟨fun h done c rest heq => ?_, hiff⟩
  cases c with
  | getNextServer => exact hiff.mpr h done _ heq
  | addServer _ => trivial
  | removeServer _ => trivial

/-- Three servers, two requests, and the last server is removed. -/
def removeLast : List Call :=
  [.addServer 101, .addServer 102, .addServer 103, .getNextServer, .getNextServer,
    .removeServer 103]

/-- The next request dereferences the index 2 of a list of two servers. -/
theorem index_beyond_servers :
    (removeLast.foldl exec .new).getNextServer.1 = some 2 ∧
      (removeLast.foldl exec .new).servers.length = 2 ∧
      ¬ Throughout exec DereferencesValid .new (removeLast ++ [.getNextServer]) := by
  refine ⟨by decide, by decide, fun h => ?_⟩
  have hvalid : IndexValid (removeLast.foldl exec .new) := h removeLast .getNextServer [] rfl
  exact absurd (hvalid 2 (by decide)) (by decide)

/-! ## Least connections -/

/-- `LeastConnection::nextServer`: the first of the servers with the fewest connections. -/
def leastConnection : List Server → Option Server
  | [] => none
  | first :: servers => some ((first :: servers).foldl (fun best server =>
      if server.numConnections < best.numConnections then server else best) first)

theorem le_of_foldl (best : Server) (servers : List Server) :
    let last := servers.foldl (fun best server =>
      if server.numConnections < best.numConnections then server else best) best
    (last = best ∨ last ∈ servers) ∧ last.numConnections ≤ best.numConnections ∧
      ∀ server ∈ servers, last.numConnections ≤ server.numConnections := by
  induction servers generalizing best with
  | nil => simp
  | cons server servers ih =>
    obtain ⟨hmem, hle, hall⟩ := ih
      (if server.numConnections < best.numConnections then server else best)
    rw [List.foldl_cons]
    split_ifs at hmem hle hall ⊢ with hlt
    · refine ⟨.inr ?_, hle.trans hlt.le, ?_⟩
      · rcases hmem with hmem | hmem
        · rw [hmem]
          exact List.mem_cons_self
        · exact List.mem_cons_of_mem server hmem
      · intro other hother
        rcases List.mem_cons.mp hother with rfl | hother
        · exact hle
        · exact hall other hother
    · refine ⟨hmem.imp_right (List.mem_cons_of_mem server), hle, ?_⟩
      intro other hother
      rcases List.mem_cons.mp hother with rfl | hother
      · exact hle.trans (not_lt.mp hlt)
      · exact hall other hother

/-- **`LeastConnection` answers with a server that has the fewest connections.** -/
theorem leastConnection_le {servers : List Server} {best : Server}
    (h : leastConnection servers = some best) :
    best ∈ servers ∧ ∀ server ∈ servers, best.numConnections ≤ server.numConnections := by
  cases servers with
  | nil => cases h
  | cons first servers =>
    obtain rfl := Option.some.inj h
    obtain ⟨hmem, -, hall⟩ := le_of_foldl first (first :: servers)
    refine ⟨?_, hall⟩
    rcases hmem with hmem | hmem
    · rw [hmem]
      exact List.mem_cons_self
    · exact hmem

end LoadBalancers
