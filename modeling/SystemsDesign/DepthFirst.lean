/-
# Depth-first search for cycles

What the marks of a depth-first search say about the graph it has walked.  A search keeps the
vertices it has entered, `visited`, and the ones it is still inside of, `active`: those of the
path from its root to where it stands.  A vertex that is visited and not active is finished.

`Explored` is the invariant that the marks keep: the successors of a finished vertex are
finished, and no cycle passes through a finished vertex.  The two moves of a search are entering
an unvisited vertex (`Explored.enter`) and leaving one all of whose successors are finished
(`Explored.leave`).  A search ends in one of two ways:

* it meets an active vertex, which closes a cycle (`leadsToCycle_of_back_edge`);
* nothing is active any more, and then no cycle can be reached from what it has visited
  (`Explored.not_leadsToCycle`).
-/
import SystemsDesign.AcyclicRelations

namespace DepthFirst

open AcyclicRelations

variable {V : Type*} {r : V → V → Prop} {visited active : Finset V} {v w : V}

/-- The marks of a search over `r`: finished vertices, that is visited ones that are not active,
lead to finished vertices only and lie on no cycle. -/
structure Explored (r : V → V → Prop) (visited active : Finset V) : Prop where
  /-- Whatever is active has been entered. -/
  active_subset : active ⊆ visited
  /-- The successors of a finished vertex are finished. -/
  closed : ∀ v ∈ visited, v ∉ active → ∀ w, r v w → w ∈ visited ∧ w ∉ active
  /-- No cycle passes through a finished vertex. -/
  no_cycle : ∀ v ∈ visited, v ∉ active → ¬ Relation.TransGen r v v

/-- Before the search. -/
theorem explored_empty : Explored r (∅ : Finset V) ∅ where
  active_subset := Finset.Subset.refl _
  closed := by simp
  no_cycle := by simp

/-- Everything that a finished vertex leads to is finished. -/
theorem Explored.finished_of_transGen (h : Explored r visited active)
    (hvw : Relation.TransGen r v w) (hv : v ∈ visited) (hva : v ∉ active) :
    w ∈ visited ∧ w ∉ active := by
  induction hvw with
  | single hvw => exact h.closed v hv hva _ hvw
  | tail _ hstep ih => exact h.closed _ ih.1 ih.2 _ hstep

/-- Entering an unvisited vertex finishes nothing. -/
theorem Explored.enter [DecidableEq V] (h : Explored r visited active) (hv : v ∉ visited) :
    Explored r (insert v visited) (insert v active) := by
  have hold : ∀ u ∈ insert v visited, u ∉ insert v active → u ∈ visited ∧ u ∉ active := by
    intro u hu hua
    rw [Finset.mem_insert, not_or] at hua
    exact ⟨(Finset.mem_insert.mp hu).resolve_left hua.1, hua.2⟩
  refine ⟨Finset.insert_subset_insert v h.active_subset, fun u hu hua w huw => ?_,
    fun u hu hua => ?_⟩
  · obtain ⟨hw, hwa⟩ := h.closed u (hold u hu hua).1 (hold u hu hua).2 w huw
    refine ⟨Finset.mem_insert_of_mem hw, fun hmem => ?_⟩
    rcases Finset.mem_insert.mp hmem with rfl | hmem
    · exact hv hw
    · exact hwa hmem
  · exact h.no_cycle u (hold u hu hua).1 (hold u hu hua).2

/-- An active vertex all of whose successors are finished can be left. -/
theorem Explored.leave [DecidableEq V] (h : Explored r visited active) (hv : v ∈ active)
    (hsucc : ∀ w, r v w → w ∈ visited ∧ w ∉ active) : Explored r visited (active.erase v) := by
  have hsplit : ∀ u, u ∉ active.erase v → u = v ∨ u ∉ active := by
    intro u hu
    by_cases huv : u = v
    · exact Or.inl huv
    · exact Or.inr fun hua => hu (Finset.mem_erase.mpr ⟨huv, hua⟩)
  refine ⟨(Finset.erase_subset v active).trans h.active_subset, fun u hu hua w huw => ?_,
    fun u hu hua => ?_⟩
  · have hfinished : w ∈ visited ∧ w ∉ active := by
      rcases hsplit u hua with rfl | hua
      · exact hsucc w huw
      · exact h.closed u hu hua w huw
    exact ⟨hfinished.1, fun hw => hfinished.2 (Finset.mem_of_mem_erase hw)⟩
  · rcases hsplit u hua with rfl | hua
    · -- a cycle through `u` leaves it into a finished vertex and so never comes back
      intro hcycle
      rcases Relation.TransGen.head'_iff.mp hcycle with ⟨w, huw, hback⟩
      obtain ⟨hw, hwa⟩ := hsucc w huw
      rcases Relation.reflTransGen_iff_eq_or_transGen.mp hback with rfl | hback
      · exact hwa hv
      · exact (h.finished_of_transGen hback hw hwa).2 hv
    · exact h.no_cycle u hu hua

/-- A cycle can be reached from the vertex. -/
def LeadsToCycle (r : V → V → Prop) (v : V) : Prop :=
  ∃ u, Relation.ReflTransGen r v u ∧ Relation.TransGen r u u

theorem LeadsToCycle.head (hvw : r v w) (h : LeadsToCycle r w) : LeadsToCycle r v := by
  obtain ⟨u, hwu, hcycle⟩ := h
  exact ⟨u, hwu.head hvw, hcycle⟩

theorem LeadsToCycle.not_acyclic (h : LeadsToCycle r v) : ¬ Acyclic r := by
  obtain ⟨u, -, hcycle⟩ := h
  exact fun hacyclic => hacyclic u hcycle

/-- **Completeness.**  A finished vertex leads to no cycle. -/
theorem Explored.not_leadsToCycle (h : Explored r visited active) (hv : v ∈ visited)
    (hva : v ∉ active) : ¬ LeadsToCycle r v := by
  rintro ⟨u, hvu, hcycle⟩
  rcases Relation.reflTransGen_iff_eq_or_transGen.mp hvu with rfl | hvu
  · exact h.no_cycle u hv hva hcycle
  · obtain ⟨hu, hua⟩ := h.finished_of_transGen hvu hv hva
    exact h.no_cycle u hu hua hcycle

/-- **Soundness.**  An edge back to a vertex that leads to its start closes a cycle. -/
theorem leadsToCycle_of_back_edge (hvw : r v w) (hback : Relation.ReflTransGen r w v) :
    LeadsToCycle r v :=
  ⟨v, .refl, .head' hvw hback⟩

end DepthFirst
