/-
# Forests given by their child relation

A relation `child` in which every node has at most one parent, and children are above their parents
in some order.  `below child a` is the subtree of `a`: the node itself and all its descendants.  The
rules say how a subtree is made of those of the children, that the subtrees of siblings are
disjoint, and that a subtree stays the same when nodes outside it are taken away.
-/
import Mathlib

namespace Forest

open Relation

variable {α : Type*} {child : α → α → Prop} {a b c : α}

/-- The node and its descendants. -/
def below (child : α → α → Prop) (a : α) : Set α := {b | ReflTransGen child a b}

theorem self_mem_below : a ∈ below child a := ReflTransGen.refl

theorem child_mem_below (hb : b ∈ below child a) (hc : child b c) : c ∈ below child a :=
  ReflTransGen.tail hb hc

theorem mem_below_iff : b ∈ below child a ↔ b = a ∨ ∃ c, child a c ∧ b ∈ below child c := by
  constructor
  · intro hb
    rcases ReflTransGen.cases_head hb with rfl | ⟨c, hc, hcb⟩
    · exact Or.inl rfl
    · exact Or.inr ⟨c, hc, hcb⟩
  · rintro (rfl | ⟨c, hc, hcb⟩)
    · exact self_mem_below
    · exact ReflTransGen.head hc hcb

theorem le_of_mem_below [Preorder α] (hlt : ∀ x y, child x y → x < y) (hb : b ∈ below child a) :
    a ≤ b := by
  induction hb with
  | refl => exact le_rfl
  | tail _ hstep ih => exact ih.trans (hlt _ _ hstep).le

theorem parent_mem_below (hunique : ∀ x y z, child x z → child y z → x = y)
    (hb : b ∈ below child a) (hne : b ≠ a) {x : α} (hx : child x b) : x ∈ below child a := by
  rcases ReflTransGen.cases_tail hb with rfl | ⟨y, hy, hyb⟩
  · exact absurd rfl hne
  · exact hunique y x b hyb hx ▸ hy

/-- The subtrees of siblings are disjoint. -/
theorem disjoint_below [Preorder α] (hlt : ∀ x y, child x y → x < y)
    (hunique : ∀ x y z, child x z → child y z → x = y) {c' : α} (hc : child a c)
    (hc' : child a c') (hne : c ≠ c') : Disjoint (below child c) (below child c') := by
  -- The parent of a sibling is below both, so it is in neither subtree.
  have hout : ∀ d, child a d → a ∉ below child d := fun d hd ha =>
    absurd ((hlt a d hd).trans_le (le_of_mem_below hlt ha)) (lt_irrefl a)
  rw [Set.disjoint_left]
  intro b hb
  induction hb with
  | refl => exact fun hmem => hout c' hc' (parent_mem_below hunique hmem hne hc)
  | @tail x y hx hxy ih =>
    intro hmem
    by_cases hy : y = c'
    · subst hy
      exact hout c hc (hunique x a y hxy hc' ▸ hx)
    · exact ih (parent_mem_below hunique hmem hy hxy)

/-- A subtree is not changed when nodes outside it are taken away. -/
theorem below_eq_of_disjoint {child' : α → α → Prop} {D : Set α}
    (hchild : ∀ x y, child' x y ↔ child x y ∧ x ∉ D ∧ y ∉ D) (hD : Disjoint (below child a) D) :
    below child' a = below child a := by
  rw [Set.disjoint_left] at hD
  ext b
  constructor
  · exact fun hb => ReflTransGen.mono (fun x y hxy => ((hchild x y).mp hxy).1) _ _ hb
  · intro hb
    induction hb with
    | refl => exact self_mem_below
    | @tail x y hx hxy ih =>
      exact child_mem_below ih ((hchild x y).mpr ⟨hxy, hD hx, hD (child_mem_below hx hxy)⟩)

end Forest
