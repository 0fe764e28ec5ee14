/-
# Relations without cycles

A relation is acyclic when no chain of it leads back to its start.  The rules say how
acyclicity survives a change of the relation: removing edges keeps it, and so does adding
edges out of a vertex that no edge enters.

On finitely many vertices, being acyclic is having a topological order.  One direction is
`Acyclic.exists_source`, with which such an order is found vertex by vertex; the other is
`Topological.acyclic`.
-/
import Mathlib

namespace AcyclicRelations

variable {α : Type*}

/-- No chain of `r` leads back to its start. -/
def Acyclic (r : α → α → Prop) : Prop := ∀ x, ¬ Relation.TransGen r x x

variable {r s : α → α → Prop}

theorem Acyclic.mono (h : Acyclic s) (hrs : ∀ a b, r a b → s a b) : Acyclic r :=
  fun x hx => h x (Relation.TransGen.mono hrs x x hx)

theorem exists_edge_into {a b : α} (h : Relation.TransGen r a b) : ∃ c, r c b := by
  cases h with
  | single hab => exact ⟨a, hab⟩
  | tail _ hcb => exact ⟨_, hcb⟩

/-- Edges added out of a vertex that is not entered close no cycle. -/
theorem Acyclic.add_source (h : Acyclic r) {v : α} (hedge : ∀ a b, s a b → r a b ∨ a = v)
    (hsource : ∀ a, ¬ s a v) : Acyclic s := by
  -- a chain that starts elsewhere never passes `v`, so it is a chain of `r`
  have hchain : ∀ {a b}, Relation.TransGen s a b → a ≠ v → Relation.TransGen r a b := by
    intro a b hab
    induction hab using Relation.TransGen.head_induction_on with
    | single hab => exact fun hav => .single ((hedge _ _ hab).resolve_right hav)
    | head hac _ ih =>
      intro hav
      refine .head ((hedge _ _ hac).resolve_right hav) (ih fun hcv => ?_)
      exact hsource _ (hcv ▸ hac)
  intro x hx
  refine h x (hchain hx fun hxv => ?_)
  obtain ⟨c, hc⟩ := exists_edge_into hx
  exact hsource c (hxv ▸ hc)

/-- **Acyclic relations have sources.**  Of finitely many vertices, one is entered by no edge
from another of them. -/
theorem Acyclic.exists_source (h : Acyclic r) {S : Set α} (hfin : S.Finite) (hne : S.Nonempty) :
    ∃ x ∈ S, ∀ y ∈ S, ¬ r y x := by
  have hstrict : IsStrictOrder α (Relation.TransGen r) :=
    { irrefl := h, trans := fun _ _ _ hab hbc => hab.trans hbc }
  have hwf : S.WellFoundedOn (Relation.TransGen r) := hfin.wellFoundedOn
  obtain ⟨v, hv⟩ := hne
  obtain ⟨x, -, hmin⟩ := WellFounded.has_min hwf Set.univ ⟨⟨v, hv⟩, trivial⟩
  exact ⟨x, x.2, fun y hy hyx => hmin ⟨y, hy⟩ trivial (.single hyx)⟩

/-! ## Topological orders -/

/-- A list in which everything comes after all that has an edge to it. -/
inductive Topological (r : α → α → Prop) : List α → Prop where
  | nil : Topological r []
  | snoc {l : List α} {a : α} : Topological r l → (∀ b, r b a → b ∈ l) → Topological r (l ++ [a])

theorem Topological.acc {l : List α} (h : Topological r l) : ∀ a ∈ l, Acc r a := by
  induction h with
  | nil => simp
  | snoc _ hbefore ih =>
    intro x hx
    rcases List.mem_append.mp hx with hx | hx
    · exact ih x hx
    · obtain rfl := List.mem_singleton.mp hx
      exact ⟨x, fun b hb => ih b (hbefore b hb)⟩

/-- **A topological order excludes cycles.** -/
theorem Topological.acyclic {l : List α} (h : Topological r l) (hl : ∀ a b, r a b → b ∈ l) :
    Acyclic r := by
  have hwf : WellFounded r := ⟨fun b => ⟨b, fun a hab => by
    by_cases ha : ∃ c, r c a
    · obtain ⟨c, hc⟩ := ha
      exact h.acc a (hl c a hc)
    · exact ⟨a, fun c hc => absurd ⟨c, hc⟩ ha⟩⟩⟩
  exact fun x => hwf.transGen.irrefl.irrefl x

end AcyclicRelations
