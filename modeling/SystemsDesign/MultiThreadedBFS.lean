/-
# Breadth-first search with several threads

Model of `algorithms/multiThreadedBFS.cpp`.  `startBFS` marks and queues the source; a worker takes
a node, prints it, and for each neighbour enters a critical section that marks and queues the
neighbour if it was not marked.

The critical sections interleave as a schedule says.  The search is an exploration of the graph:
`step_explores`.

Result: when `shutdown` returns, exactly the nodes that are connected with the source have been
processed, each once.
-/
import SystemsDesign.ParallelExploration

namespace MultiThreadedSearch

open ParallelExploration TransitionSystem WorkerPool

/-! ## The search -/

/-- The data members of `Multi_threaded_BFS`, with the workers, and what they have printed.  The
queue and `stop` are those of the pool; `graph` has the empty vector where the map has no entry. -/
structure MultiThreadedBFS where
  graph : ℤ → List ℤ
  pool : Pool ℤ (Work ℤ)
  visited : Finset ℤ
  output : List ℤ

/-- The constructor. -/
def MultiThreadedBFS.new (numThreads : ℕ) : MultiThreadedBFS where
  graph := fun _ => []
  pool := .start numThreads
  visited := ∅
  output := []

/-- `graph[u].push_back(v)`. -/
def pushBack (graph : ℤ → List ℤ) (u v : ℤ) : ℤ → List ℤ :=
  Function.update graph u (graph u ++ [v])

/-- `addEdge`. -/
def addEdge (b : MultiThreadedBFS) (e : ℤ × ℤ) : MultiThreadedBFS :=
  { b with graph := pushBack (pushBack b.graph e.1 e.2) e.2 e.1 }

/-- `startBFS`. -/
def startBFS (b : MultiThreadedBFS) (source : ℤ) : MultiThreadedBFS :=
  { b with pool := b.pool.push source, visited := insert source b.visited }

/-- `shutdown` up to the joins, and the turn of worker `w`. -/
inductive Act where
  | shutdown
  | work (w : ℕ)
  deriving DecidableEq

/-- The turn of a worker in `process_node`: it prints the node, looks at the next neighbour, or is
done. -/
def processNode (b : MultiThreadedBFS) (w : ℕ) : Work ℤ → MultiThreadedBFS
  | .taken node =>
    { b with
      pool := b.pool.goto w (.busy (.expanding node (b.graph node)))
      output := b.output ++ [node] }
  -- each neighbour is looked at in a critical section of its own
  | .expanding node (neighbour :: rest) =>
    if neighbour ∉ b.visited then
      { b with
        pool := (b.pool.push neighbour).goto w (.busy (.expanding node rest))
        visited := insert neighbour b.visited }
    else { b with pool := b.pool.goto w (.busy (.expanding node rest)) }
  | .expanding _ [] => { b with pool := b.pool.goto w .waiting }

/-- One turn. -/
def step (b : MultiThreadedBFS) : Act → Option MultiThreadedBFS
  | .shutdown => some { b with pool := b.pool.halt }
  | .work w =>
    match b.pool.workers[w]? with
    | some .waiting => (b.pool.fetch w .taken).map fun pool => { b with pool }
    | some (.busy k) => some (processNode b w k)
    | _ => none

/-! ## The search explores -/

/-- The search as an exploration, in which nodes are their own keys. -/
def explore (b : MultiThreadedBFS) : State ℤ ℤ where
  pool := b.pool
  visited := b.visited
  processed := b.output

theorem processNode_explores {b : MultiThreadedBFS} {w : ℕ} {k : Work ℤ}
    (hw : b.pool.workers[w]? = some (.busy k)) :
    (processNode b w k).graph = b.graph ∧
      Step b.graph id (explore b) (explore (processNode b w k)) := by
  cases k with
  | taken node => exact ⟨rfl, .process hw⟩
  | expanding node rest =>
    cases rest with
    | nil => exact ⟨rfl, .finish hw⟩
    | cons neighbour rest =>
      simp only [processNode]
      split_ifs with hmem
      · exact ⟨rfl, .skip hw (Finset.mem_coe.mpr hmem)⟩
      · refine ⟨rfl, ?_⟩
        have hdiscover : Step b.graph id (explore b) _ :=
          .discover (s := explore b) hw (fun h => hmem (Finset.mem_coe.mp h))
        simpa [explore] using hdiscover

/-- **Every turn is a step of the exploration.** -/
theorem step_explores {b b' : MultiThreadedBFS} {a : Act} (h : step b a = some b') :
    b'.graph = b.graph ∧ Step b.graph id (explore b) (explore b') := by
  cases a with
  | shutdown =>
    obtain rfl := Option.some.inj h
    exact ⟨rfl, .halt⟩
  | work w =>
    simp only [step] at h
    split at h
    next hw =>
      obtain ⟨pool, hpool, rfl⟩ := Option.map_eq_some_iff.mp h
      rcases Pool.fetch_spec hpool with ⟨hstop, hempty, rfl⟩ | ⟨node, hnode, rfl⟩
      · exact ⟨rfl, .leave hw hstop hempty⟩
      · exact ⟨rfl, .take hw hnode⟩
    next k hw =>
      obtain rfl := Option.some.inj h
      exact processNode_explores hw
    next => cases h

theorem run_explores {b b' : MultiThreadedBFS} {as : List Act} (h : run step b as = some b') :
    b'.graph = b.graph ∧ Reachable (Step b.graph id) (explore b) (explore b') :=
  @run_invariant _ _ step
    (fun c => c.graph = b.graph ∧ Reachable (Step b.graph id) (explore b) (explore c))
    (fun _ _ _ hc hstep =>
      have hnext := step_explores hstep
      ⟨hnext.1.trans hc.1, hc.2.tail (hc.1 ▸ hnext.2)⟩)
    b b' as ⟨rfl, Relation.ReflTransGen.refl⟩ h

/-! ## The graph -/

/-- The search after the calls of `addEdge`. -/
def load (numThreads : ℕ) (edges : List (ℤ × ℤ)) : MultiThreadedBFS :=
  edges.foldl addEdge (.new numThreads)

/-- `u` and `v` are the ends of an edge. -/
def Adjacent (edges : List (ℤ × ℤ)) (u v : ℤ) : Prop := (u, v) ∈ edges ∨ (v, u) ∈ edges

theorem mem_pushBack {graph : ℤ → List ℤ} {u v x y : ℤ} :
    y ∈ pushBack graph u v x ↔ y ∈ graph x ∨ x = u ∧ y = v := by
  unfold pushBack
  by_cases hx : x = u
  · subst hx
    simp
  · simp [hx]

/-- **The adjacency lists hold the edges in both directions.** -/
theorem mem_graph_foldl {edges : List (ℤ × ℤ)} {b : MultiThreadedBFS} {u v : ℤ} :
    v ∈ (edges.foldl addEdge b).graph u ↔ v ∈ b.graph u ∨ Adjacent edges u v := by
  induction edges generalizing b with
  | nil => simp [Adjacent]
  | cons e edges ih =>
    rw [List.foldl_cons, ih]
    unfold addEdge Adjacent
    simp only [mem_pushBack, List.mem_cons, Prod.ext_iff]
    tauto

/-- `addEdge` changes the graph only. -/
theorem explore_load (n : ℕ) (edges : List (ℤ × ℤ)) :
    explore (load n edges) = explore (.new n) := by
  unfold load
  generalize MultiThreadedBFS.new n = b
  induction edges generalizing b with
  | nil => rfl
  | cons e edges ih => exact ih (addEdge b e)

theorem explore_startBFS (n : ℕ) (edges : List (ℤ × ℤ)) (source : ℤ) :
    explore (startBFS (load n edges) source) = start id n source := by
  have hload := explore_load n edges
  have hpool : (load n edges).pool = .start n := congrArg State.pool hload
  have hvisited : ((load n edges).visited : Set ℤ) = ∅ :=
    (congrArg State.visited hload).trans Finset.coe_empty
  have houtput : (load n edges).output = [] := congrArg State.processed hload
  simp [startBFS, explore, start, hpool, hvisited, houtput]

/-! ## Result -/

/-- **The search visits exactly the connected component.**  For every graph, every number of
workers and every run after `startBFS(source)`: when all workers have returned, the nodes processed
are those that a chain of edges connects with the source, each processed once. -/
theorem bfs_visits_component (n : ℕ) (hn : 0 < n) (edges : List (ℤ × ℤ)) (source : ℤ)
    (as : List Act) (b : MultiThreadedBFS)
    (hrun : run step (startBFS (load n edges) source) as = some b) (hjoined : b.pool.Joined) :
    b.output.Nodup ∧
    ∀ v, v ∈ b.output ↔ Relation.ReflTransGen (Adjacent edges) source v := by
  obtain ⟨-, hreach⟩ := run_explores hrun
  rw [explore_startBFS] at hreach
  -- the successors in the exploration are the neighbours in the graph
  have hadjacent : (fun u v => v ∈ (startBFS (load n edges) source).graph u) = Adjacent edges := by
    funext u v
    have hmem : v ∈ (load n edges).graph u ↔ _ := mem_graph_foldl
    simpa [startBFS, MultiThreadedBFS.new] using hmem
  obtain ⟨hnodup, hmem⟩ := explored (fun _ _ _ _ heq => heq) hn hreach hjoined
  refine ⟨List.map_id b.output ▸ hnodup, fun v => ?_⟩
  rw [← hadjacent]
  exact hmem v

/-- A triangle and an edge apart, two workers, and `shutdown` right after the start. -/
def searchTriangle : List Act :=
  [.shutdown, .work 0, .work 0, .work 0, .work 1, .work 1, .work 0, .work 1, .work 1, .work 1,
    .work 0, .work 0, .work 0, .work 0, .work 0, .work 0, .work 0, .work 1]

theorem bfs_visits_component_searchTriangle : ∃ b,
    run step (startBFS (load 2 [(1, 2), (2, 3), (3, 1), (4, 5)]) 1) searchTriangle = some b ∧
    b.output = [1, 2, 3] ∧ b.pool.Joined ∧ b.output.Nodup :=
  ⟨_, rfl, by decide, by decide,
    (bfs_visits_component 2 (by decide) [(1, 2), (2, 3), (3, 1), (4, 5)] 1 searchTriangle _ rfl
      (by decide)).1⟩

end MultiThreadedSearch
