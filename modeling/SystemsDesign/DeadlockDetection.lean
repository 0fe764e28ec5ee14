/-
# The deadlock detector

Model of `DeadlockDetection.cpp`.  A wait-for graph is an `unordered_map` from a transaction to
the transactions it waits for; `detectDeadlock` starts a depth-first search from each key of it
that no earlier search has visited, with one `visited` set for all searches and a recursion stack
that is pruned on the way back.

`graph[txn]` in `isCycle` is the subscript of a map: for a transaction that waits for nobody it
inserts an empty list, while `detectDeadlock` is walking over the same map.  The graph is therefore
part of the state of the search, with the order of its keys, which is that of a hash table: an
`Insertion` says what an implementation may do with a new key, and the loop goes on from its node
in the order that it finds then.

The result of this module is about the graph: it stays as it is exactly if the search from the
first key comes back to its path by first dependencies alone (`detectDeadlock_keeps_graph_iff`).
-/
import SystemsDesign.DepthFirst
import SystemsDesign.HashTable

namespace DeadlockDetection

open AcyclicRelations DepthFirst HashTables

/-! ## The wait-for graph -/

/-- The lists of an `unordered_map<int, vector<int>>`. -/
abbrev Graph := ℤ → Option (List ℤ)

/-- What `graph[txn]` reads. -/
def neighbours (g : Graph) (txn : ℤ) : List ℤ := (g txn).getD []

/-- The graph has an edge. -/
def Edge (g : Graph) (v w : ℤ) : Prop := w ∈ neighbours g v

/-- A `DeadlockDetector`: the member `graph`, with the table of its keys. -/
structure Detector where
  graph : Graph
  keys : Table ℤ
  nodup : keys.order.Nodup
  mem_keys : ∀ txn, txn ∈ keys.order ↔ (graph txn).isSome

namespace Detector

/-- A new detector. -/
def new : Detector where
  graph _ := none
  keys := ⟨[], 0, le_rfl⟩
  nodup := List.nodup_nil
  mem_keys := by simp

variable (H : Insertion ℤ) (d : Detector)

/-- What `graph[txn]` leaves: an absent key is inserted with an empty list. -/
def subscript (txn : ℤ) : Detector :=
  if h : (d.graph txn).isSome then d
  else
    { graph := Function.update d.graph txn (some [])
      keys := H.insert d.keys txn
      nodup := H.nodup_insert (fun hmem => h ((d.mem_keys txn).mp hmem)) d.nodup
      mem_keys := fun k => by
        rw [H.mem_insert, d.mem_keys]
        by_cases hk : k = txn <;> simp [hk] }

theorem subscript_of_isSome {txn : ℤ} (h : (d.graph txn).isSome) : d.subscript H txn = d :=
  dif_pos h

theorem isSome_subscript (txn v : ℤ) :
    ((d.subscript H txn).graph v).isSome ↔ v = txn ∨ (d.graph v).isSome := by
  rw [subscript]
  split_ifs with h
  · grind
  · by_cases hv : v = txn <;> simp [hv]

/-- The inserted list is empty: every transaction waits for the same ones as before. -/
theorem neighbours_subscript (txn v : ℤ) :
    neighbours (d.subscript H txn).graph v = neighbours d.graph v := by
  rw [subscript]
  split_ifs with h
  · rfl
  · by_cases hv : v = txn
    · subst hv
      simp [neighbours, Option.not_isSome_iff_eq_none.mp h]
    · simp [neighbours, hv]

theorem grows_subscript (txn : ℤ) : H.Grows d.keys (d.subscript H txn).keys := by
  rw [subscript]
  split_ifs with h
  · exact .refl
  · exact .single ⟨txn, fun hmem => h ((d.mem_keys txn).mp hmem), rfl⟩

/-- `addDependency(waitingTxn, holdingTxn)`. -/
def addDependency (waitingTxn holdingTxn : ℤ) : Detector :=
  let found := d.subscript H waitingTxn
  { graph := Function.update found.graph waitingTxn
      (some (neighbours found.graph waitingTxn ++ [holdingTxn]))
    keys := found.keys
    nodup := found.nodup
    mem_keys := fun k => by
      have hsome := (d.isSome_subscript H waitingTxn waitingTxn).mpr (.inl rfl)
      rw [found.mem_keys]
      by_cases hk : k = waitingTxn
      · subst hk
        simpa using hsome
      · simp [hk] }

end Detector

/-- The detector after a sequence of `addDependency` calls. -/
def build (H : Insertion ℤ) (deps : List (ℤ × ℤ)) : Detector :=
  deps.foldl (fun d dep => d.addDependency H dep.1 dep.2) .new

/-- A transaction waits for another after a sequence of calls. -/
def WaitsFor (deps : List (ℤ × ℤ)) (v w : ℤ) : Prop := (v, w) ∈ deps

variable (H : Insertion ℤ)

theorem build_concat (deps : List (ℤ × ℤ)) (dep : ℤ × ℤ) :
    build H (deps ++ [dep]) = (build H deps).addDependency H dep.1 dep.2 := by
  simp only [build, List.foldl_append, List.foldl_cons, List.foldl_nil]

/-- **The lists of the graph** are the dependencies in the order of the calls. -/
theorem neighbours_build (deps : List (ℤ × ℤ)) (v : ℤ) :
    neighbours (build H deps).graph v = (deps.filter fun dep => dep.1 = v).map Prod.snd := by
  induction deps using List.reverseRecOn with
  | nil => rfl
  | append_singleton deps dep ih =>
    rw [build_concat, List.filter_append, List.map_append, ← ih]
    by_cases hv : dep.1 = v
    · subst hv
      have hnew : neighbours ((build H deps).addDependency H dep.1 dep.2).graph dep.1
          = neighbours ((build H deps).subscript H dep.1).graph dep.1 ++ [dep.2] := by
        simp [Detector.addDependency, neighbours]
      rw [hnew, Detector.neighbours_subscript]
      simp
    · have hold : neighbours ((build H deps).addDependency H dep.1 dep.2).graph v
          = neighbours ((build H deps).subscript H dep.1).graph v := by
        simp [Detector.addDependency, neighbours, Ne.symm hv]
      rw [hold, Detector.neighbours_subscript]
      simp [hv]

theorem edge_build (deps : List (ℤ × ℤ)) : Edge (build H deps).graph = WaitsFor deps := by
  funext v w
  simp [Edge, neighbours_build, WaitsFor]

/-- The keys of the graph are the transactions that wait. -/
theorem isSome_build (deps : List (ℤ × ℤ)) (v : ℤ) :
    ((build H deps).graph v).isSome ↔ v ∈ deps.map Prod.fst := by
  induction deps using List.reverseRecOn with
  | nil => simp [build, Detector.new]
  | append_singleton deps dep ih =>
    rw [build_concat, List.map_append, List.mem_append, ← ih]
    by_cases hv : v = dep.1
    · simp [Detector.addDependency, hv]
    · have hold := (build H deps).isSome_subscript H dep.1 v
      simp [Detector.addDependency, hv, hold]

theorem mem_keys_build {deps : List (ℤ × ℤ)} {v : ℤ} :
    v ∈ (build H deps).keys.order ↔ v ∈ deps.map Prod.fst := by
  rw [(build H deps).mem_keys, isSome_build]

/-! ## The search -/

/-- The data that `isCycle` reads and writes. -/
structure Search where
  detector : Detector
  /-- `visited`. -/
  visited : Finset ℤ
  /-- `rec_stack`: the currently active recursion path. -/
  recStack : Finset ℤ

/-- The loop of `isCycle` over the transactions that are waited for, with `call` for the
recursive call. -/
def scan (call : ℤ → Search → Option (Bool × Search)) : List ℤ → Search → Option (Bool × Search)
  | [], s => some (false, s)
  | next :: rest, s =>
    (if next ∈ s.visited then some (false, s) else call next s).bind fun (found, s) =>
      if found then some (true, s)
      else if next ∈ s.visited ∧ next ∈ s.recStack then some (true, s)
      else scan call rest s

/-- The first lines of `isCycle`, and the subscript of its loop. -/
def Search.enter (s : Search) (txn : ℤ) : Search where
  detector := s.detector.subscript H txn
  visited := insert txn s.visited
  recStack := insert txn s.recStack

/-- `isCycle(txn, visited, rec_stack)`, with a bound on the depth of the recursion; `none` when
the bound is reached. -/
def isCycle : ℕ → ℤ → Search → Option (Bool × Search)
  | 0, _, _ => none
  | depth + 1, txn, s =>
    let entered := s.enter H txn
    (scan (isCycle depth) (neighbours entered.detector.graph txn) entered).map fun (found, s) =>
      if found then (true, s)
      -- backtrack: out of the active path, not out of `visited`
      else (false, { s with recStack := s.recStack.erase txn })

/-- Where the loop of `detectDeadlock` stands: its iterator, which is `none` when the loop has
ended, what has been searched, and whether it has returned `true`. -/
structure Loop where
  cursor : Option ℤ
  search : Search
  found : Bool

/-- Before the loop. -/
def Loop.start (d : Detector) : Loop := ⟨d.keys.order.head?, ⟨d, ∅, ∅⟩, false⟩

/-- The condition in the body of the loop. -/
def visit (depth : ℕ) (txn : ℤ) (s : Search) : Option (Bool × Search) :=
  if txn ∈ s.visited then some (false, s) else isCycle H depth txn s

/-- One turn of the loop; a loop that has ended stays as it is. -/
def turn (depth : ℕ) (l : Loop) : Option Loop :=
  match l.cursor with
  | none => some l
  | some txn =>
    (visit H depth txn l.search).map fun (found, s) =>
      if found then ⟨none, s, true⟩
      -- the iterator goes on from its node, in the table as it is now
      else ⟨next txn s.detector.keys.order, s, false⟩

/-- A number of turns. -/
def turns (depth : ℕ) : ℕ → Loop → Option Loop
  | 0, l => some l
  | n + 1, l => (turn H depth l).bind (turns depth n)

/-- What the loop has returned. -/
def Loop.result (l : Loop) : Option (Bool × Search) :=
  if l.cursor = none then some (l.found, l.search) else none

/-- `detectDeadlock()`: the answer and what the search leaves, if it ends within `fuel` turns and
calls of `isCycle` inside each other. -/
def detectDeadlock (fuel : ℕ) (d : Detector) : Option (Bool × Search) :=
  (turns H fuel fuel (.start d)).bind Loop.result

/-- `std::hash<int>` of libstdc++. -/
def hashInt (k : ℤ) : ℕ := (k % 2 ^ 64).toNat

/-! ## The search is a depth-first search -/

variable {H} {deps : List (ℤ × ℤ)} {depth : ℕ} {g : Graph} {S : Finset ℤ}

/-- What a search that started on the graph `g` has done to it: there is an empty list for each
visited transaction that had none. -/
structure Touched (g : Graph) (s : Search) : Prop where
  neighbours_eq : neighbours s.detector.graph = neighbours g
  isSome_iff : ∀ v, (s.detector.graph v).isSome ↔ (g v).isSome ∨ v ∈ s.visited

theorem touched_start (d : Detector) : Touched d.graph ⟨d, ∅, ∅⟩ := ⟨rfl, by simp⟩

theorem Touched.enter {g : Graph} {s : Search} (h : Touched g s) (txn : ℤ) :
    Touched g (s.enter H txn) where
  neighbours_eq := by
    rw [← h.neighbours_eq]
    exact funext (s.detector.neighbours_subscript H txn)
  isSome_iff v := by
    rw [Search.enter, Detector.isSome_subscript, h.isSome_iff, Finset.mem_insert]
    exact or_left_comm

/-- The search so far, over the graph `g` that it started with, has entered transactions of `S`
only. -/
structure Within (g : Graph) (S : Finset ℤ) (s : Search) : Prop where
  touched : Touched g s
  visited_subset : s.visited ⊆ S

/-- What a part of the search does between `s` and `s'`, whatever it answers. -/
structure Moves (H : Insertion ℤ) (g : Graph) (S : Finset ℤ) (s s' : Search) : Prop where
  within : Within g S s'
  grows : H.Grows s.detector.keys s'.detector.keys
  visited_mono : s.visited ⊆ s'.visited
  /-- It goes to the first dependency of whatever it visits. -/
  first : ∀ v ∈ s'.visited, v ∉ s.visited → ∀ w, (neighbours g v).head? = some w → w ∈ s'.visited

/-- How it ends: with a cycle, or with the same active path, and then the vertices that it has
visited since are finished. -/
structure Outcome (H : Insertion ℤ) (g : Graph) (S : Finset ℤ) (txn : ℤ) (s : Search)
    (found : Bool) (s' : Search) : Prop where
  moves : Moves H g S s s'
  cycle : found = true → LeadsToCycle (Edge g) txn
  recStack_eq : found = false → s'.recStack = s.recStack
  explored : found = false → Explored (Edge g) s'.visited s'.recStack

section Outcome

variable {txn next : ℤ} {s t u : Search} {found : Bool}

theorem Moves.refl (hin : Within g S s) : Moves H g S s s where
  within := hin
  grows := .refl
  visited_mono := Finset.Subset.refl _
  first _ hv hv' := absurd hv hv'

theorem Moves.trans (hst : Moves H g S s t) (htu : Moves H g S t u) :
    Moves H g S s u where
  within := htu.within
  grows := hst.grows.trans htu.grows
  visited_mono := hst.visited_mono.trans htu.visited_mono
  first v hv hvs w hw := by
    by_cases hvt : v ∈ t.visited
    · exact htu.visited_mono (hst.first v hvt hvs w hw)
    · exact htu.first v hv hvt w hw

theorem Moves.of_enter (hfirst : ∀ w, (neighbours g txn).head? = some w → w ∈ t.visited)
    (h : Moves H g S (s.enter H txn) t) : Moves H g S s t where
  within := h.within
  grows := (s.detector.grows_subscript H txn).trans h.grows
  visited_mono := (Finset.subset_insert txn _).trans h.visited_mono
  first v hv hvs w hw := by
    by_cases htxn : v = txn
    · exact hfirst w (htxn ▸ hw)
    · exact h.first v hv (fun hmem => (Finset.mem_insert.mp hmem).elim htxn hvs) w hw

theorem Moves.backtrack (h : Moves H g S s t) (recStack : Finset ℤ) :
    Moves H g S s { t with recStack } where
  within := ⟨⟨h.within.touched.neighbours_eq, h.within.touched.isSome_iff⟩,
    h.within.visited_subset⟩
  grows := h.grows
  visited_mono := h.visited_mono
  first := h.first

theorem Outcome.refl (hin : Within g S s) (hexp : Explored (Edge g) s.visited s.recStack) :
    Outcome H g S txn s false s :=
  ⟨.refl hin, by simp, fun _ => rfl, fun _ => hexp⟩

/-- A part of the search that answers `false`, followed by another one. -/
theorem Outcome.trans (hst : Outcome H g S txn s false t) (htu : Outcome H g S txn t found u) :
    Outcome H g S txn s found u where
  moves := hst.moves.trans htu.moves
  cycle := htu.cycle
  recStack_eq h := (htu.recStack_eq h).trans (hst.recStack_eq rfl)
  explored := htu.explored

theorem Outcome.of_edge (hedge : Edge g txn next) (h : Outcome H g S next s found t) :
    Outcome H g S txn s found t where
  moves := h.moves
  cycle hfound := (h.cycle hfound).head hedge
  recStack_eq := h.recStack_eq
  explored := h.explored

/-- What a search is called on: marks that are in order, an unvisited transaction to which the
active path leads, and more depth than there are transactions to visit. -/
structure Callable (g : Graph) (S : Finset ℤ) (depth : ℕ) (txn : ℤ) (s : Search) : Prop where
  within : Within g S s
  explored : Explored (Edge g) s.visited s.recStack
  mem : txn ∈ S
  unvisited : txn ∉ s.visited
  leads : ∀ u ∈ s.recStack, Relation.ReflTransGen (Edge g) u txn
  depth_lt : (S \ s.visited).card < depth

/-- What a search gives: it ends, and the transaction is visited. -/
def Ends (H : Insertion ℤ) (g : Graph) (S : Finset ℤ) (txn : ℤ) (s : Search)
    (result : Option (Bool × Search)) : Prop :=
  ∃ found s', result = some (found, s') ∧ Outcome H g S txn s found s' ∧ txn ∈ s'.visited

theorem card_unvisited_mono {visited visited' : Finset ℤ} (h : visited ⊆ visited') :
    (S \ visited').card ≤ (S \ visited).card :=
  Finset.card_le_card (Finset.sdiff_subset_sdiff (Finset.Subset.refl S) h)

theorem card_unvisited_insert {visited : Finset ℤ} (hS : txn ∈ S) (hv : txn ∉ visited) :
    (S \ insert txn visited).card < (S \ visited).card := by
  rw [Finset.sdiff_insert]
  exact Finset.card_erase_lt_of_mem (Finset.mem_sdiff.mpr ⟨hS, hv⟩)

/-- **The loop over the transactions that are waited for.**  If the recursive call does what a
search does, the loop ends with a cycle or with all of them finished. -/
theorem scan_spec (hS : ∀ v w, Edge g v w → w ∈ S)
    {call : ℤ → Search → Option (Bool × Search)}
    (hcall : ∀ next s, Callable g S depth next s → Ends H g S next s (call next s))
    (waits : List ℤ) (hwaits : ∀ next ∈ waits, Edge g txn next)
    (s : Search) (hin : Within g S s) (hexp : Explored (Edge g) s.visited s.recStack)
    (hleads : ∀ u ∈ s.recStack, Relation.ReflTransGen (Edge g) u txn)
    (hdepth : (S \ s.visited).card < depth) :
    ∃ found s', scan call waits s = some (found, s') ∧ Outcome H g S txn s found s' ∧
      (∀ w, waits.head? = some w → w ∈ s'.visited) ∧
      (found = false → ∀ next ∈ waits, next ∈ s'.visited ∧ next ∉ s'.recStack) := by
  induction waits generalizing s with
  | nil => exact ⟨false, s, rfl, Outcome.refl hin hexp, by simp, by simp⟩
  | cons next rest ih =>
    have hedge : Edge g txn next := hwaits next List.mem_cons_self
    have hhead : ∀ s' : Search, next ∈ s'.visited →
        ∀ w, (next :: rest).head? = some w → w ∈ s'.visited := by
      intro s' hmem w hw
      rwa [← Option.some.inj hw]
    -- the rest of the loop, from a state in which `next` is finished
    have hcontinue : ∀ t, Outcome H g S txn s false t → next ∈ t.visited → next ∉ t.recStack →
        ∃ found s', scan call rest t = some (found, s') ∧ Outcome H g S txn s found s' ∧
          (∀ w, (next :: rest).head? = some w → w ∈ s'.visited) ∧
          (found = false → ∀ w ∈ next :: rest, w ∈ s'.visited ∧ w ∉ s'.recStack) := by
      intro t hst hvisited hinactive
      have hstack : t.recStack = s.recStack := hst.recStack_eq rfl
      have hsize := card_unvisited_mono hst.moves.visited_mono (S := S)
      obtain ⟨found, s', hscan, hout, -, hfin⟩ :=
        ih (fun w hw => hwaits w (List.mem_cons_of_mem _ hw)) t hst.moves.within (hst.explored rfl)
          (hstack ▸ hleads) (by omega)
      refine ⟨found, s', hscan, hst.trans hout, hhead s' (hout.moves.visited_mono hvisited),
        fun hfound w hw => ?_⟩
      rcases List.mem_cons.mp hw with rfl | hw
      · exact ⟨hout.moves.visited_mono hvisited, hout.recStack_eq hfound ▸ hinactive⟩
      · exact hfin hfound w hw
    by_cases hvisited : next ∈ s.visited
    · by_cases hactive : next ∈ s.recStack
      · -- an edge back to the active path
        refine ⟨true, s, by simp [scan, hvisited, hactive],
          ⟨.refl hin, ?_, by simp, by simp⟩, hhead s hvisited, by simp⟩
        exact fun _ => leadsToCycle_of_back_edge hedge (hleads next hactive)
      · obtain ⟨found, s', hscan, hrest⟩ :=
          hcontinue s (Outcome.refl hin hexp) hvisited hactive
        exact ⟨found, s', by simp [scan, hvisited, hactive, hscan], hrest⟩
    · obtain ⟨found, t, hrec, hout, hseen⟩ := hcall next s
        ⟨hin, hexp, hS txn next hedge, hvisited, fun u hu => (hleads u hu).tail hedge, hdepth⟩
      cases found with
      | true =>
        exact ⟨true, t, by simp [scan, hvisited, hrec], hout.of_edge hedge, hhead t hseen, by simp⟩
      | false =>
        have hinactive : next ∉ t.recStack := by
          rw [hout.recStack_eq rfl]
          exact fun hmem => hvisited (hexp.active_subset hmem)
        obtain ⟨found, s', hscan, hrest⟩ := hcontinue t (hout.of_edge hedge) hseen hinactive
        exact ⟨found, s', by simp [scan, hvisited, hrec, hinactive, hscan], hrest⟩

/-- **A search from one transaction.**  With enough depth it ends, with a cycle or with the
transaction and all it leads to finished. -/
theorem isCycle_spec (hS : ∀ v w, Edge g v w → w ∈ S) (txn : ℤ) (s : Search)
    (h : Callable g S depth txn s) : Ends H g S txn s (isCycle H depth txn s) := by
  induction depth generalizing txn s with
  | zero => exact absurd h.depth_lt (Nat.not_lt_zero _)
  | succ depth ih =>
    have htouched := h.within.touched.enter (H := H) txn
    have hsize := card_unvisited_insert h.mem h.unvisited
    have hdepth := h.depth_lt
    have hwaits := congrFun htouched.neighbours_eq txn
    obtain ⟨found, t, hscan, hout, hhead, hfin⟩ := scan_spec hS ih (neighbours g txn)
      (fun next hnext => hnext) (s.enter H txn)
      ⟨htouched, Finset.insert_subset h.mem h.within.visited_subset⟩
      (h.explored.enter h.unvisited)
      (by
        intro u hu
        rcases Finset.mem_insert.mp hu with rfl | hu
        · exact Relation.ReflTransGen.refl
        · exact h.leads u hu)
      (show (S \ insert txn s.visited).card < depth by omega)
    have hmoves := hout.moves.of_enter hhead
    have hmem : txn ∈ t.visited := hout.moves.visited_mono (Finset.mem_insert_self txn _)
    cases found with
    | true =>
      exact ⟨true, t, by simp [isCycle, hwaits, hscan], ⟨hmoves, hout.cycle, by simp, by simp⟩,
        hmem⟩
    | false =>
      have hstack : t.recStack = insert txn s.recStack := hout.recStack_eq rfl
      have hinactive : txn ∉ s.recStack := fun hmem => h.unvisited (h.explored.active_subset hmem)
      refine ⟨false, { t with recStack := t.recStack.erase txn }, by simp [isCycle, hwaits, hscan],
        ⟨hmoves.backtrack _, by simp, fun _ => ?_, fun _ => ?_⟩, hmem⟩
      · show t.recStack.erase txn = s.recStack
        rw [hstack, Finset.erase_insert hinactive]
      · refine (hout.explored rfl).leave ?_ (hfin rfl)
        rw [hstack]
        exact Finset.mem_insert_self _ _

end Outcome

/-! ## The loop -/

/-- What a turn can be, for the graph `g` at the start: the loop has ended; a cycle is found; or
the loop goes on to the next node of the table as it is then. -/
inductive Turned (H : Insertion ℤ) (g : Graph) (S : Finset ℤ) : Loop → Loop → Prop where
  | ended {l : Loop} (h : l.cursor = none) : Turned H g S l l
  | finds {txn : ℤ} {s s' : Search} {found : Bool} (hout : Outcome H g S txn s true s')
      (hmem : txn ∈ s'.visited) : Turned H g S ⟨some txn, s, found⟩ ⟨none, s', true⟩
  | goesOn {txn : ℤ} {s s' : Search} {found : Bool} (hout : Outcome H g S txn s false s')
      (hmem : txn ∈ s'.visited) (hseen : txn ∈ s.visited → s' = s) :
      Turned H g S ⟨some txn, s, found⟩ ⟨next txn s'.detector.keys.order, s', false⟩

/-- What holds after every turn of the loop on the detector `d`. -/
structure Walk (H : Insertion ℤ) (d : Detector) (S : Finset ℤ) (l : Loop) : Prop where
  within : Within d.graph S l.search
  grows : H.Grows d.keys l.search.detector.keys
  cycle : l.found = true → ¬ Acyclic (Edge d.graph)
  running : l.cursor ≠ none → l.found = false
  explored : l.found = false → Explored (Edge d.graph) l.search.visited ∅
  idle : l.found = false → l.search.recStack = ∅
  cursor_mem : ∀ txn, l.cursor = some txn → txn ∈ l.search.detector.keys.order

/-- All transactions of the graph are in `S`. -/
structure Spans (g : Graph) (S : Finset ℤ) : Prop where
  keys : ∀ v, (g v).isSome → v ∈ S
  targets : ∀ v w, Edge g v w → w ∈ S

section Loop

variable {d : Detector} {l l' : Loop}

theorem walk_start (H : Insertion ℤ) (d : Detector) (S : Finset ℤ) : Walk H d S (.start d) where
  within := ⟨touched_start d, Finset.empty_subset S⟩
  grows := .refl
  cycle := by simp [Loop.start]
  running _ := rfl
  explored _ := explored_empty
  idle _ := rfl
  cursor_mem _ h := List.mem_of_head? h

/-- **A turn of the loop.** -/
theorem turn_spec (hS : Spans d.graph S) (hdepth : S.card < depth) (h : Walk H d S l) :
    ∃ l', turn H depth l = some l' ∧ Turned H d.graph S l l' := by
  obtain ⟨cursor, s, found⟩ := l
  cases cursor with
  | none => exact ⟨_, rfl, .ended rfl⟩
  | some txn =>
    have hfound : found = false := h.running (by simp)
    have hidle : s.recStack = ∅ := h.idle hfound
    have hexp : Explored (Edge d.graph) s.visited s.recStack := by
      rw [hidle]
      exact h.explored hfound
    by_cases hvisited : txn ∈ s.visited
    · exact ⟨_, by simp [turn, visit, hvisited], .goesOn (.refl h.within hexp) hvisited
        fun _ => rfl⟩
    · have hkey := (s.detector.mem_keys txn).mp (h.cursor_mem txn rfl)
      have hmem : txn ∈ S :=
        hS.keys txn (((h.within.touched.isSome_iff txn).mp hkey).resolve_right hvisited)
      have hsize : (S \ s.visited).card < depth :=
        (Finset.card_le_card Finset.sdiff_subset).trans_lt hdepth
      obtain ⟨found, s', hsearch, hout, hseen⟩ := isCycle_spec (H := H) hS.targets txn s
        ⟨h.within, hexp, hmem, hvisited, by simp [hidle], hsize⟩
      cases found with
      | true => exact ⟨_, by simp [turn, visit, hvisited, hsearch], .finds hout hseen⟩
      | false =>
        exact ⟨_, by simp [turn, visit, hvisited, hsearch], .goesOn hout hseen
          fun hmem => absurd hmem hvisited⟩

theorem Walk.turned (h : Walk H d S l) (hturn : Turned H d.graph S l l') : Walk H d S l' := by
  cases hturn with
  | ended _ => exact h
  | finds hout _ =>
    exact
      { within := hout.moves.within
        grows := h.grows.trans hout.moves.grows
        cycle := fun _ => (hout.cycle rfl).not_acyclic
        running := by simp
        explored := by simp
        idle := by simp
        cursor_mem := by simp }
  | goesOn hout _ _ =>
    have hidle := (hout.recStack_eq rfl).trans (h.idle (h.running (by simp)))
    exact
      { within := hout.moves.within
        grows := h.grows.trans hout.moves.grows
        cycle := by simp
        running := fun _ => rfl
        explored := fun hfound => hidle ▸ hout.explored hfound
        idle := fun _ => hidle
        cursor_mem := fun txn htxn => mem_of_mem_after (List.mem_of_head? htxn) }

/-- A bound on the turns that are left: a search visits something, and in between the loop goes
through the table. -/
def Loop.left (S : Finset ℤ) (l : Loop) : ℕ :=
  match l.cursor with
  | none => 0
  | some txn => (S \ l.search.visited).card * (S.card + 1)
      + ((after txn l.search.detector.keys.order).length + 1)

theorem Walk.length_keys_le (hS : Spans d.graph S) (h : Walk H d S l) :
    l.search.detector.keys.order.length ≤ S.card := by
  rw [← List.toFinset_card_of_nodup l.search.detector.nodup]
  refine Finset.card_le_card fun v hv => ?_
  rw [List.mem_toFinset, Detector.mem_keys, h.within.touched.isSome_iff] at hv
  exact hv.elim (hS.keys v) fun hvisited => h.within.visited_subset hvisited

/-- A loop at a node has at most the nodes of the table before it, this one included. -/
theorem Walk.left_le (hS : Spans d.graph S) (h : Walk H d S l) :
    l.left S ≤ (S \ l.search.visited).card * (S.card + 1) + S.card := by
  obtain ⟨cursor, s, found⟩ := l
  cases cursor with
  | none => exact Nat.zero_le _
  | some txn =>
    have hlt := length_after_lt (h.cursor_mem txn rfl)
    have hle := h.length_keys_le hS
    exact Nat.add_le_add_left (hlt.trans_le hle) _

theorem Walk.left_turned (hS : Spans d.graph S) (h : Walk H d S l)
    (hturn : Turned H d.graph S l l') : l'.left S = 0 ∨ l'.left S < l.left S := by
  have hafter := h.turned hturn
  cases hturn with
  | ended hend => exact .inl (by rw [Loop.left, hend])
  | finds _ _ => exact .inl rfl
  | @goesOn txn s s' _ hout hmem hseen =>
    right
    by_cases hvisited : txn ∈ s.visited
    · -- the next node of the same table
      obtain rfl := hseen hvisited
      cases hnext : next txn s'.detector.keys.order with
      | none => exact Nat.succ_pos _
      | some y =>
        have hstep := congrArg List.length (after_next s'.detector.nodup hnext)
        rw [List.length_cons] at hstep
        simp only [Loop.left]
        omega
    · -- a search has visited the transaction
      have hle := hafter.left_le hS
      have hlt : (S \ s'.visited).card < (S \ s.visited).card := by
        refine Finset.card_lt_card (Finset.ssubset_iff_subset_ne.mpr
          ⟨Finset.sdiff_subset_sdiff (Finset.Subset.refl S) hout.moves.visited_mono, fun heq => ?_⟩)
        have hold : txn ∈ S \ s.visited :=
          Finset.mem_sdiff.mpr ⟨hout.moves.within.visited_subset hmem, hvisited⟩
        exact (Finset.mem_sdiff.mp (heq ▸ hold)).2 hmem
      have hmul := Nat.mul_le_mul_right (S.card + 1) hlt
      dsimp only at hle
      simp only [Loop.left] at hle ⊢
      rw [Nat.succ_mul] at hmul
      omega

/-- **The rule for the loop**: what a turn keeps holds after any number of turns, and enough of them
end the loop. -/
theorem turns_spec (hS : Spans d.graph S) (hdepth : S.card < depth) {P : Loop → Prop}
    (hP : ∀ l l', Walk H d S l → P l → Turned H d.graph S l l' → P l') (n : ℕ)
    (h : Walk H d S l) (hl : P l) :
    ∃ l', turns H depth n l = some l' ∧ Walk H d S l' ∧ P l' ∧ (l.left S ≤ n → l'.left S = 0) := by
  induction n generalizing l with
  | zero => exact ⟨l, rfl, h, hl, Nat.le_zero.mp⟩
  | succ n ih =>
    obtain ⟨t, hturn, hturned⟩ := turn_spec hS hdepth h
    obtain ⟨l', hturns, hl'⟩ := ih (h.turned hturned) (hP l t h hl hturned)
    refine ⟨l', by rw [turns, hturn, Option.bind_some, hturns], hl'.1, hl'.2.1, fun hle => ?_⟩
    apply hl'.2.2
    rcases h.left_turned hS hturned with hzero | hlt
    · omega
    · omega

/-- **The rule for `detectDeadlock`**: it ends, and what a turn keeps holds then. -/
theorem detectDeadlock_spec (hS : Spans d.graph S) {fuel : ℕ} (hfuel : (S.card + 1) ^ 2 ≤ fuel)
    {P : Loop → Prop} (hP : ∀ l l', Walk H d S l → P l → Turned H d.graph S l l' → P l')
    (hstart : P (.start d)) :
    ∃ l, detectDeadlock H fuel d = some (l.found, l.search) ∧ Walk H d S l ∧ P l ∧
      l.cursor = none := by
  have hsquare : (S.card + 1) ^ 2 = S.card * (S.card + 1) + S.card + 1 := by ring
  have hle := (walk_start H d S).left_le hS
  have hempty : (S \ (Loop.start d).search.visited).card = S.card := by
    rw [Loop.start, Finset.sdiff_empty]
  rw [hempty] at hle
  have hcard : S.card < fuel := by
    have hpow := Nat.le_self_pow two_ne_zero (S.card + 1)
    omega
  obtain ⟨l, hturns, hwalk, hl, hend⟩ := turns_spec hS hcard hP fuel (walk_start H d S) hstart
  have hleft := hend (by omega)
  obtain ⟨cursor, s, found⟩ := l
  cases cursor with
  | none => exact ⟨_, by rw [detectDeadlock, hturns]; rfl, hwalk, hl, rfl⟩
  | some txn => exact absurd hleft (Nat.succ_ne_zero _)

end Loop

/-- A loop that has ended does not change any more. -/
theorem turns_of_ended {l : Loop} (h : l.cursor = none) (n : ℕ) : turns H depth n l = some l := by
  have hturn : turn H depth l = some l := by rw [turn, h]
  induction n with
  | zero => rfl
  | succ n ih => rw [turns, hturn, Option.bind_some, ih]

/-! ## The effect on the graph -/

/-- The transactions of a sequence of calls. -/
def transactions (deps : List (ℤ × ℤ)) : Finset ℤ :=
  (deps.map Prod.fst ++ deps.map Prod.snd).toFinset

theorem spans_build (H : Insertion ℤ) (deps : List (ℤ × ℤ)) :
    Spans (build H deps).graph (transactions deps) where
  keys v hv := by
    rw [isSome_build] at hv
    exact List.mem_toFinset.mpr (List.mem_append_left _ hv)
  targets v w hvw := by
    rw [edge_build] at hvw
    exact List.mem_toFinset.mpr (List.mem_append_right _ (List.mem_map_of_mem hvw))

theorem card_transactions_le (deps : List (ℤ × ℤ)) :
    (transactions deps).card ≤ 2 * deps.length := by
  calc (transactions deps).card
      ≤ (deps.map Prod.fst ++ deps.map Prod.snd).length := List.toFinset_card_le _
    _ = 2 * deps.length := by rw [List.length_append, List.length_map, List.length_map, two_mul]

/-- The first transaction that `v` was made to wait for. -/
def FirstWaits (deps : List (ℤ × ℤ)) (v w : ℤ) : Prop :=
  (deps.find? fun dep => dep.1 = v).map Prod.snd = some w

theorem head?_neighbours_build {v w : ℤ} :
    (neighbours (build H deps).graph v).head? = some w ↔ FirstWaits deps v w := by
  rw [neighbours_build, List.head?_map, List.head?_filter, FirstWaits]

theorem exists_firstWaits {v : ℤ} (h : v ∈ deps.map Prod.fst) : ∃ w, FirstWaits deps v w := by
  obtain ⟨dep, hdep, rfl⟩ := List.mem_map.mp h
  have hsome : (deps.find? fun dep' => dep'.1 = dep.1).isSome := by
    rw [List.find?_isSome]
    exact ⟨dep, hdep, by simp⟩
  obtain ⟨dep', hfind⟩ := Option.isSome_iff_exists.mp hsome
  exact ⟨dep'.2, by rw [FirstWaits, hfind, Option.map_some]⟩

/-- **A search follows the first dependencies.**  As long as they lead to keys and nothing else has
been visited, it comes back to its path, and inserts nothing. -/
theorem isCycle_of_firstWaits {d : Detector} {K : Finset ℤ}
    (hK : ∀ v ∈ K, (d.graph v).isSome ∧ ∃ w ∈ K, (neighbours d.graph v).head? = some w)
    {txn : ℤ} (htxn : txn ∈ K) {path : Finset ℤ} (hpath : txn ∉ path)
    (hdepth : (K \ path).card < depth) :
    ∃ path', isCycle H depth txn ⟨d, path, path⟩ = some (true, ⟨d, path', path'⟩) := by
  induction depth generalizing txn path with
  | zero => exact absurd hdepth (Nat.not_lt_zero _)
  | succ depth ih =>
    obtain ⟨hkey, w, hw, hhead⟩ := hK txn htxn
    obtain ⟨rest, hwaits⟩ := List.head?_eq_some_iff.mp hhead
    have henter : (Search.mk d path path).enter H txn = ⟨d, insert txn path, insert txn path⟩ := by
      rw [Search.enter, d.subscript_of_isSome H hkey]
    rw [isCycle, henter]
    dsimp only
    rw [hwaits, scan]
    by_cases hback : w ∈ insert txn path
    · -- an edge back to the path
      exact ⟨insert txn path, by simp [hback]⟩
    · have hcard := card_unvisited_insert htxn hpath
      obtain ⟨path', hcall⟩ := ih hw hback (by omega)
      exact ⟨path', by simp [hback, hcall]⟩

/-- The first turn is a search from the first key. -/
theorem moves_of_first_turn {d : Detector} {first : ℤ} (hS : Spans d.graph S)
    (hdepth : S.card < depth) (hfirst : d.keys.order.head? = some first) :
    ∃ l, turn H depth (.start d) = some l ∧ Moves H d.graph S ⟨d, ∅, ∅⟩ l.search ∧
      first ∈ l.search.visited := by
  obtain ⟨l, hturn, hturned⟩ := turn_spec hS hdepth (walk_start H d S)
  have hstart : Loop.start d = ⟨some first, ⟨d, ∅, ∅⟩, false⟩ := by rw [Loop.start, hfirst]
  refine ⟨l, hturn, ?_⟩
  rw [hstart] at hturned
  cases hturned with
  | ended hend => cases hend
  | finds hout hmem => exact ⟨hout.moves, hmem⟩
  | goesOn hout hmem _ => exact ⟨hout.moves, hmem⟩

/-- When the first dependencies lead to keys only, the first turn finds a cycle and inserts
nothing. -/
theorem first_turn_of_firstWaits {first : ℤ} (hdepth : deps.length < depth)
    (hfirst : (build H deps).keys.order.head? = some first)
    (hchain : ∀ w, Relation.ReflTransGen (FirstWaits deps) first w → w ∈ deps.map Prod.fst) :
    ∃ path, turn H depth (.start (build H deps))
      = some ⟨none, ⟨build H deps, path, path⟩, true⟩ := by
  classical
  let K := (deps.map Prod.fst).toFinset.filter (Relation.ReflTransGen (FirstWaits deps) first)
  have hmem : ∀ {v}, Relation.ReflTransGen (FirstWaits deps) first v → v ∈ K := fun {v} hv =>
    Finset.mem_filter.mpr ⟨List.mem_toFinset.mpr (hchain v hv), hv⟩
  have hK : ∀ v ∈ K, ((build H deps).graph v).isSome ∧
      ∃ w ∈ K, (neighbours (build H deps).graph v).head? = some w := by
    intro v hv
    obtain ⟨-, hreach⟩ := Finset.mem_filter.mp hv
    obtain ⟨w, hw⟩ := exists_firstWaits (hchain v hreach)
    exact ⟨(isSome_build H deps v).mpr (hchain v hreach), w, hmem (hreach.tail hw),
      head?_neighbours_build.mpr hw⟩
  have hcard : (K \ ∅).card < depth := by
    have hle : K.card ≤ (deps.map Prod.fst).length :=
      (Finset.card_filter_le _ _).trans (List.toFinset_card_le _)
    rw [List.length_map] at hle
    rw [Finset.sdiff_empty]
    exact hle.trans_lt hdepth
  obtain ⟨path, hsearch⟩ :=
    isCycle_of_firstWaits (H := H) hK (hmem .refl) (Finset.notMem_empty first) hcard
  refine ⟨path, ?_⟩
  rw [turn, Loop.start, hfirst]
  dsimp only
  rw [visit, if_neg (Finset.notMem_empty first), hsearch]
  rfl

/-- **When deadlock detection keeps the graph.**  After any calls of `addDependency`, on any hash
table, the loop of `detectDeadlock` can make any number of turns; and the keys and the lists are
the same after each of them exactly if there are no dependencies, or the first dependencies, from
the first key that the loop meets on, lead to nobody who does not wait. -/
theorem detectDeadlock_keeps_graph_iff (H : Insertion ℤ) (deps : List (ℤ × ℤ)) (depth : ℕ)
    (hdepth : 2 * deps.length < depth) :
    (∀ n, (turns H depth n (.start (build H deps))).isSome) ∧
    ((∀ n l, turns H depth n (.start (build H deps)) = some l →
        l.search.detector.graph = (build H deps).graph) ↔
      deps = [] ∨ ∃ first, (build H deps).keys.order.head? = some first ∧
        ∀ w, Relation.ReflTransGen (FirstWaits deps) first w → w ∈ deps.map Prod.fst) := by
  have hS := spans_build H deps
  have hcard : (transactions deps).card < depth := (card_transactions_le deps).trans_lt hdepth
  refine ⟨fun n => ?_, fun h => ?_, ?_⟩
  · obtain ⟨l, hturns, -⟩ := turns_spec (P := fun _ => True) hS hcard (fun _ _ _ _ _ => trivial) n
      (walk_start H (build H deps) _) trivial
    rw [hturns, Option.isSome_some]
  · rw [or_iff_not_imp_left]
    intro hdeps
    obtain ⟨dep, hdep⟩ := List.exists_mem_of_ne_nil deps hdeps
    have hmem := (mem_keys_build H).mpr (List.mem_map_of_mem hdep)
    obtain ⟨first, hfirst⟩ : ∃ first, (build H deps).keys.order.head? = some first :=
      Option.isSome_iff_exists.mp (List.isSome_head?.mpr (List.ne_nil_of_mem hmem))
    obtain ⟨l, hturn, hmoves, hseen⟩ := moves_of_first_turn (H := H) hS hcard hfirst
    refine ⟨first, hfirst, fun w hw => ?_⟩
    have hvisited : w ∈ l.search.visited := by
      induction hw with
      | refl => exact hseen
      | tail _ hstep ih =>
        exact hmoves.first _ ih (Finset.notMem_empty _) _ (head?_neighbours_build.mpr hstep)
    have hgraph := h 1 l (by rw [turns, hturn, Option.bind_some, turns])
    rw [← isSome_build H, ← hgraph, hmoves.within.touched.isSome_iff]
    exact .inr hvisited
  · rintro (rfl | ⟨first, hfirst, hchain⟩) n l hl
    · rw [turns_of_ended rfl] at hl
      rw [← Option.some.inj hl]
      rfl
    · cases n with
      | zero =>
        rw [← Option.some.inj hl]
        rfl
      | succ n =>
        have hlt : deps.length < depth := by omega
        obtain ⟨path, hturn⟩ := first_turn_of_firstWaits hlt hfirst hchain
        rw [turns, hturn, Option.bind_some, turns_of_ended rfl] at hl
        rw [← Option.some.inj hl]

/-- The calls of `main`: three transactions that wait for each other in a circle. -/
def mainDeps : List (ℤ × ℤ) := [(1, 2), (2, 3), (3, 1)]

theorem detectDeadlock_keeps_graph_main :
    (∀ n, (turns (chained hashInt) 7 n (.start (build (chained hashInt) mainDeps))).isSome) ∧
    ∀ n l, turns (chained hashInt) 7 n (.start (build (chained hashInt) mainDeps)) = some l →
      l.search.detector.graph = (build (chained hashInt) mainDeps).graph := by
  obtain ⟨htotal, hkeeps⟩ :=
    detectDeadlock_keeps_graph_iff (chained hashInt) mainDeps 7 (by decide)
  refine ⟨htotal, hkeeps.mpr (.inr ⟨3, by decide, fun w hw => ?_⟩)⟩
  rcases Relation.ReflTransGen.cases_tail hw with rfl | ⟨v, -, hstep⟩
  · decide
  · -- whoever is waited for is one of the three
    obtain ⟨dep, hfind, rfl⟩ := Option.map_eq_some_iff.mp hstep
    have hwaits : ∀ dep ∈ mainDeps, dep.2 ∈ mainDeps.map Prod.fst := by decide
    exact hwaits dep (List.mem_of_find?_eq_some hfind)

/-- A transaction that waits for one which does not wait: the first turn inserts a key. -/
theorem detectDeadlock_inserts_key :
    ∃ l, turns (chained hashInt) 3 1 (.start (build (chained hashInt) [(1, 2)])) = some l ∧
      l.search.detector.graph 2 = some [] ∧ (build (chained hashInt) [(1, 2)]).graph 2 = none :=
  ⟨_, rfl, by decide, by decide⟩

end DeadlockDetection
