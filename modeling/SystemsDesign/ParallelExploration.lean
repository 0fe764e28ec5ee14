/-
# Exploring a graph with a pool of workers

Workers take nodes from a shared queue, process them, and go through the successors of a node one
by one: a successor whose key has not been seen is marked and queued, in one critical section.

`Step` is the step relation of this pattern, for a successor function `next` and a key for each
node.  Result (`explored`): if different nodes that can be reached have different keys, then when
all workers have returned the nodes processed are exactly those that can be reached from the
source, each processed once, however the workers interleave and whenever the stop flag is set.
-/
import SystemsDesign.TransitionSystem
import SystemsDesign.WorkerPool

namespace ParallelExploration

open ThreadList TransitionSystem WorkerPool

variable {ν μ : Type*}

/-! ## The pattern -/

/-- What a worker does with a node: it has taken it, or goes through the successors that are
left. -/
inductive Work (ν : Type*) where
  | taken (x : ν)
  | expanding (x : ν) (rest : List ν)
  deriving DecidableEq

/-- The pool, the keys that have been marked, and the nodes processed, in order. -/
structure State (ν μ : Type*) where
  pool : Pool ν (Work ν)
  visited : Set μ
  processed : List ν

variable (next : ν → List ν) (key : ν → μ)

/-- `n` workers, and the source in the queue. -/
def start (n : ℕ) (source : ν) : State ν μ where
  pool := (Pool.start n).push source
  visited := {key source}
  processed := []

/-- What can happen. -/
inductive Step (s : State ν μ) : State ν μ → Prop where
  | halt : Step s { s with pool := s.pool.halt }
  | take {w : ℕ} {x : ν} (hw : s.pool.workers[w]? = some .waiting)
      (hx : s.pool.queue[0]? = some x) :
      Step s { s with pool := s.pool.take 0 w (.busy (.taken x)) }
  | process {w : ℕ} {x : ν} (hw : s.pool.workers[w]? = some (.busy (.taken x))) :
      Step s { s with
        pool := s.pool.goto w (.busy (.expanding x (next x)))
        processed := s.processed ++ [x] }
  | skip {w : ℕ} {x y : ν} {rest : List ν}
      (hw : s.pool.workers[w]? = some (.busy (.expanding x (y :: rest)))) (hy : key y ∈ s.visited) :
      Step s { s with pool := s.pool.goto w (.busy (.expanding x rest)) }
  | discover {w : ℕ} {x y : ν} {rest : List ν}
      (hw : s.pool.workers[w]? = some (.busy (.expanding x (y :: rest)))) (hy : key y ∉ s.visited) :
      Step s { s with
        pool := (s.pool.push y).goto w (.busy (.expanding x rest))
        visited := insert (key y) s.visited }
  | finish {w : ℕ} {x : ν} (hw : s.pool.workers[w]? = some (.busy (.expanding x []))) :
      Step s { s with pool := s.pool.goto w .waiting }
  | leave {w : ℕ} (hw : s.pool.workers[w]? = some .waiting) (hstop : s.pool.stop = true)
      (hempty : s.pool.queue = []) : Step s { s with pool := s.pool.goto w .returned }

/-- `y` can be reached from `x`. -/
def Reach : ν → ν → Prop := Relation.ReflTransGen fun x y => y ∈ next x

/-! ## The nodes that are known -/

/-- A worker is answerable for a node until it has processed it. -/
def unprocessed : Work ν → Multiset ν
  | .taken x => {x}
  | .expanding _ _ => 0

/-- The nodes in the queue, in hands, and processed. -/
def known (s : State ν μ) : Multiset ν := s.pool.account (fun x => x) unprocessed + s.processed

/-- Known nodes have different keys, which are the ones marked, and can be reached. -/
structure Known (source : ν) (s : State ν μ) : Prop where
  nodup : ((known s).map key).Nodup
  visited : ∀ k, k ∈ s.visited ↔ ∃ x ∈ known s, key x = k
  reached : ∀ x ∈ known s, Reach next source x
  source : source ∈ known s

variable {next key} {source : ν} {s s' : State ν μ}

theorem Known.congr (h : Known next key source s) (hknown : known s' = known s)
    (hvisited : s'.visited = s.visited) : Known next key source s' where
  nodup := hknown ▸ h.nodup
  visited := by
    rw [hknown, hvisited]
    exact h.visited
  reached := hknown ▸ h.reached
  source := hknown ▸ h.source

/-- A new node becomes known. -/
theorem Known.discover (h : Known next key source s) {y : ν} (hy : key y ∉ s.visited)
    (hreach : Reach next source y) (hknown : known s' = known s + {y})
    (hvisited : s'.visited = insert (key y) s.visited) : Known next key source s' where
  nodup := by
    rw [hknown, Pool.nodup_map_add_singleton]
    exact ⟨fun x hx heq => hy ((h.visited _).mpr ⟨x, hx, heq⟩), h.nodup⟩
  visited k := by
    rw [hvisited, hknown, Set.mem_insert_iff, h.visited]
    constructor
    · rintro (rfl | ⟨x, hx, rfl⟩)
      · exact ⟨y, by simp, rfl⟩
      · exact ⟨x, Multiset.mem_add.mpr (.inl hx), rfl⟩
    · rintro ⟨x, hx, rfl⟩
      rcases Multiset.mem_add.mp hx with hx | hx
      · exact .inr ⟨x, hx, rfl⟩
      · exact .inl (congrArg key (Multiset.mem_singleton.mp hx))
  reached x hx := by
    rw [hknown, Multiset.mem_add, Multiset.mem_singleton] at hx
    rcases hx with hx | rfl
    · exact h.reached x hx
    · exact hreach
  source := by
    rw [hknown]
    exact Multiset.mem_add.mpr (.inl h.source)

/-! ## The successors that are left -/

variable {ws : List (Worker (Work ν))} {ps : List ν} {vs vs' : Set μ} {w : ℕ}
  {b c : Worker (Work ν)}

variable (next key) in
/-- Workers go through successors of nodes they have processed, and the successors of a processed
node are marked or left to a worker. -/
structure Frontier (ws : List (Worker (Work ν))) (ps : List ν) (vs : Set μ) : Prop where
  expanding : ∀ x rest, .busy (.expanding x rest) ∈ ws → (∀ y ∈ rest, y ∈ next x) ∧ x ∈ ps
  closed : ∀ x ∈ ps, ∀ y ∈ next x,
    key y ∈ vs ∨ ∃ rest, .busy (.expanding x rest) ∈ ws ∧ y ∈ rest

/-- A worker goes on.  It must not forget a successor. -/
theorem Frontier.set (h : Frontier next key ws ps vs) (hw : ws[w]? = some b) (hvs : vs ⊆ vs')
    (hc : ∀ x rest, c = .busy (.expanding x rest) → (∀ y ∈ rest, y ∈ next x) ∧ x ∈ ps)
    (hb : ∀ x rest, b = .busy (.expanding x rest) → ∀ y ∈ rest,
      key y ∈ vs' ∨ ∃ rest', c = .busy (.expanding x rest') ∧ y ∈ rest') :
    Frontier next key (ws.set w c) ps vs' where
  expanding x rest hmem := by
    rcases List.mem_or_eq_of_mem_set hmem with hmem | heq
    · exact h.expanding x rest hmem
    · exact hc x rest heq.symm
  closed x hx y hy := by
    rcases h.closed x hx y hy with hvisited | ⟨rest, hmem, hrest⟩
    · exact .inl (hvs hvisited)
    · by_cases hsame : Worker.busy (.expanding x rest) = b
      · rcases hb x rest hsame.symm y hrest with hvisited | ⟨rest', rfl, hrest'⟩
        · exact .inl hvisited
        · exact .inr ⟨rest', mem_set_self hw, hrest'⟩
      · exact .inr ⟨rest, mem_set_of_mem hw hmem hsame, hrest⟩

theorem Frontier.set_other (h : Frontier next key ws ps vs) (hw : ws[w]? = some b)
    (hb : ∀ x rest, b ≠ .busy (.expanding x rest)) (hc : ∀ x rest, c ≠ .busy (.expanding x rest)) :
    Frontier next key (ws.set w c) ps vs :=
  h.set hw subset_rfl (fun x rest heq => absurd heq (hc x rest))
    fun x rest heq => absurd heq (hb x rest)

/-- A worker that goes through successors is done with one of them once it is marked. -/
theorem Frontier.advance (h : Frontier next key ws ps vs) {x y : ν} {rest : List ν}
    (hw : ws[w]? = some (.busy (.expanding x (y :: rest)))) (hvs : vs ⊆ vs') (hy : key y ∈ vs') :
    Frontier next key (ws.set w (.busy (.expanding x rest))) ps vs' := by
  obtain ⟨hnext, hx⟩ := h.expanding x (y :: rest) (List.mem_of_getElem? hw)
  apply h.set hw hvs
  · intro z rest' heq
    obtain ⟨rfl, rfl⟩ : x = z ∧ rest = rest' := by simpa using heq
    exact ⟨fun v hv => hnext v (List.mem_cons_of_mem y hv), hx⟩
  · intro z rest' heq v hv
    obtain ⟨rfl, rfl⟩ : x = z ∧ y :: rest = rest' := by simpa using heq
    rcases List.mem_cons.mp hv with rfl | hv
    · exact .inl hy
    · exact .inr ⟨rest, rfl, hv⟩

theorem Frontier.process (h : Frontier next key ws ps vs) {x : ν}
    (hw : ws[w]? = some (.busy (.taken x))) :
    Frontier next key (ws.set w (.busy (.expanding x (next x)))) (ps ++ [x]) vs where
  expanding z rest hmem := by
    rcases List.mem_or_eq_of_mem_set hmem with hmem | heq
    · exact (h.expanding z rest hmem).imp_right (List.mem_append_left _)
    · obtain ⟨rfl, rfl⟩ : z = x ∧ rest = next x := by simpa using heq
      exact ⟨fun y hy => hy, by simp⟩
  closed z hz y hy := by
    rcases List.mem_append.mp hz with hz | hz
    · apply (h.closed z hz y hy).imp_right
      rintro ⟨rest, hmem, hrest⟩
      exact ⟨rest, mem_set_of_mem hw hmem (by simp), hrest⟩
    · obtain rfl := List.mem_singleton.mp hz
      exact .inr ⟨next z, mem_set_self hw, hy⟩

/-! ## The invariant -/

variable (next key source) in
/-- The invariant of an exploration. -/
structure Inv (s : State ν μ) : Prop where
  alive : s.pool.Alive
  known : Known next key source s
  frontier : Frontier next key s.pool.workers s.processed s.visited

theorem known_of_account {pool : Pool ν (Work ν)}
    (h : pool.account (fun x => x) unprocessed = s.pool.account (fun x => x) unprocessed) :
    ParallelExploration.known { s with pool } = ParallelExploration.known s :=
  congrArg (· + (s.processed : Multiset ν)) h

/-- **Every step keeps the invariant.** -/
theorem Inv.step (h : Inv next key source s) (hs : Step next key s s') :
    Inv next key source s' := by
  cases hs with
  | halt => exact ⟨h.alive.move .halt, h.known.congr rfl rfl, h.frontier⟩
  | take hw hx =>
    refine ⟨h.alive.move (.take 0 (by simp)), h.known.congr (known_of_account ?_) rfl,
      h.frontier.set_other hw (by simp) (by simp)⟩
    exact Pool.account_hold hx hw rfl
  | @process w x hw =>
    refine ⟨h.alive.move (.goto hw (by simp)), h.known.congr ?_ rfl, h.frontier.process hw⟩
    -- the node leaves the worker's hands and is processed
    have hgoto : (s.pool.goto w (.busy (.expanding x (next x)))).account (fun x => x) unprocessed
        + {x} = s.pool.account (fun x => x) unprocessed + 0 := Pool.account_goto hw _
    show Pool.account _ _ _ + ((s.processed ++ [x] : List ν) : Multiset ν) = _
    rw [← Multiset.coe_add, Multiset.coe_singleton, ← add_assoc, add_right_comm, hgoto, add_zero]
    rfl
  | @skip w x y rest hw hy =>
    refine ⟨h.alive.move (.goto hw (by simp)), h.known.congr (known_of_account ?_) rfl,
      h.frontier.advance hw subset_rfl hy⟩
    exact Pool.account_goto_same hw rfl
  | @discover w x y rest hw hy =>
    have hold := h.frontier.expanding x (y :: rest) (List.mem_of_getElem? hw)
    have hx : x ∈ ParallelExploration.known s := Multiset.mem_add.mpr (.inr (by simpa using hold.2))
    refine ⟨h.alive.move (.add y hw (by simp) (by simp)), h.known.discover hy ?_ ?_ rfl,
      h.frontier.advance hw (Set.subset_insert _ _) (Set.mem_insert _ _)⟩
    · exact (h.known.reached x hx).tail (hold.1 y List.mem_cons_self)
    · have hgoto : ((s.pool.push y).goto w (.busy (.expanding x rest))).account (fun x => x)
          unprocessed = s.pool.account (fun x => x) unprocessed + {y} :=
        (Pool.account_goto_same (p := s.pool.push y) (c := .busy (.expanding x rest)) hw rfl).trans
          (Pool.account_push _ _ _ _)
      show Pool.account _ _ _ + _ = _
      rw [hgoto]
      exact add_right_comm ..
  | @finish w x hw =>
    refine ⟨h.alive.move (.goto hw (by simp)), h.known.congr (known_of_account ?_) rfl,
      h.frontier.set hw subset_rfl (by simp) fun z rest heq v hv => ?_⟩
    · exact Pool.account_goto_same hw rfl
    · obtain ⟨-, rfl⟩ : x = z ∧ [] = rest := by simpa using heq
      exact absurd hv List.not_mem_nil
  | leave hw hstop hempty =>
    refine ⟨h.alive.move (.leave hstop hempty), h.known.congr (known_of_account ?_) rfl,
      h.frontier.set_other hw (by simp) (by simp)⟩
    exact Pool.account_goto_same hw rfl

theorem inv_start {n : ℕ} (hn : 0 < n) : Inv next key source (start key n source) := by
  have hknown : ParallelExploration.known (start key n source) = {source} := by
    show Pool.account _ _ _ + ((([] : List ν)) : Multiset ν) = _
    rw [start, Pool.account_push, Pool.account_start]
    simp
  refine ⟨(Pool.alive_start hn).move (.submit source rfl), ⟨?_, ?_, ?_, ?_⟩, ⟨?_, ?_⟩⟩
  · simp [hknown]
  · intro k
    rw [hknown]
    simp [start, eq_comm]
  · intro x hx
    rw [hknown, Multiset.mem_singleton] at hx
    rw [hx]
    exact Relation.ReflTransGen.refl
  · simp [hknown]
  · intro x rest hmem
    simp [start, Pool.push, Pool.start, List.mem_replicate] at hmem
  · intro x hx
    exact absurd hx List.not_mem_nil

/-! ## Result -/

/-- **The exploration is exact.**  When all workers have returned, the nodes processed are those
that can be reached, each once. -/
theorem explored (hinj : ∀ x y, Reach next source x → Reach next source y → key x = key y → x = y)
    {n : ℕ} (hn : 0 < n) (h : Reachable (Step next key) (start key n source) s)
    (hjoined : s.pool.Joined) :
    (s.processed.map key).Nodup ∧ ∀ x, x ∈ s.processed ↔ Reach next source x := by
  have hinv : Inv next key source s :=
    Reachable.invariant (fun _ _ hs hstep => hs.step hstep) (inv_start hn) h
  -- nothing is left in the queue or in hands
  have hknown : ParallelExploration.known s = s.processed := by
    rw [ParallelExploration.known, hinv.alive.settled hjoined, zero_add]
  have hreached : ∀ x ∈ s.processed, Reach next source x := fun x hx =>
    hinv.known.reached x (by rw [hknown]; exact hx)
  refine ⟨?_, fun x => ⟨hreached x, fun hx => ?_⟩⟩
  · have hnodup := hinv.known.nodup
    rw [hknown, Multiset.map_coe, Multiset.coe_nodup] at hnodup
    exact hnodup
  · -- along a chain of successors: those of a processed node have been marked
    induction hx with
    | refl =>
      have hsource := hinv.known.source
      rwa [hknown] at hsource
    | @tail x y hx hy ih =>
      rcases hinv.frontier.closed x ih y hy with hvisited | ⟨rest, hmem, -⟩
      · obtain ⟨z, hz, hkey⟩ := (hinv.known.visited _).mp hvisited
        rw [hknown] at hz
        rwa [← hinj z y (hreached z hz) (hx.tail hy) hkey]
      · exact absurd (hjoined _ hmem) (by simp)

end ParallelExploration
