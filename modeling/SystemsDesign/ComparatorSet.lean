/-
# Ordered sets with a comparator

`std::set<α, Compare>`, as the list of its elements in order.  Two elements are equivalent when
the comparator puts neither before the other: a set holds no two equivalent elements, an insertion
beside an equivalent element does nothing, and an erasure takes out the equivalent element.

The comparator is an argument of every operation.  It may read data that change while the elements
are in the set, and the set is meaningful only as long as the comparator still orders its elements;
`Sorted.congr` is the rule for a change that the elements of the set do not see.
-/
import Mathlib

namespace ComparatorSet

variable {α : Type*} {lt lt' : α → α → Prop} {x y : α} {l : List α}

/-- The comparator puts one before the other. -/
def Comparable (lt : α → α → Prop) (x y : α) : Prop := lt x y ∨ lt y x

instance [DecidableRel lt] : Decidable (Comparable lt x y) :=
  inferInstanceAs (Decidable (lt x y ∨ lt y x))

/-- The elements are in order. -/
def Sorted (lt : α → α → Prop) (l : List α) : Prop := l.Pairwise lt

instance [DecidableRel lt] : Decidable (Sorted lt l) :=
  inferInstanceAs (Decidable (l.Pairwise lt))

/-- `insert(x)`. -/
def insert (lt : α → α → Prop) [DecidableRel lt] (x : α) (l : List α) : List α :=
  if ∀ y ∈ l, Comparable lt y x then l.orderedInsert lt x else l

/-- `erase(x)`. -/
def erase (lt : α → α → Prop) [DecidableRel lt] (x : α) (l : List α) : List α :=
  l.filter fun y => Comparable lt y x

theorem mem_insert [DecidableRel lt] (h : ∀ z ∈ l, Comparable lt z x) :
    y ∈ insert lt x l ↔ y = x ∨ y ∈ l := by
  rw [insert, if_pos h, List.mem_orderedInsert]

/-- The set stays in order. -/
theorem Sorted.insert [DecidableRel lt] [IsTrans α lt] (hs : Sorted lt l)
    (h : ∀ z ∈ l, Comparable lt z x) : Sorted lt (insert lt x l) := by
  rw [ComparatorSet.insert, if_pos h]
  induction l with
  | nil => exact List.pairwise_singleton lt x
  | cons z zs ih =>
    obtain ⟨hz, hzs⟩ := List.pairwise_cons.mp hs
    rw [List.orderedInsert]
    split_ifs with hxz
    · refine List.pairwise_cons.mpr ⟨fun w hw => ?_, hs⟩
      rcases List.mem_cons.mp hw with rfl | hw
      · exact hxz
      · exact Trans.trans hxz (hz w hw)
    · have hzx : lt z x := (h z (List.mem_cons_self ..)).resolve_right hxz
      refine List.pairwise_cons.mpr ⟨fun w hw => ?_,
        ih hzs fun w hw => h w (List.mem_cons_of_mem _ hw)⟩
      rcases (List.mem_orderedInsert lt).mp hw with rfl | hw
      · exact hzx
      · exact hz w hw

theorem mem_erase [DecidableRel lt] : y ∈ erase lt x l ↔ y ∈ l ∧ Comparable lt y x := by
  rw [erase, List.mem_filter, decide_eq_true_iff]

theorem Sorted.erase [DecidableRel lt] (hs : Sorted lt l) (x : α) : Sorted lt (erase lt x l) :=
  hs.sublist List.filter_sublist

theorem Sorted.congr (hs : Sorted lt l) (h : ∀ x ∈ l, ∀ y ∈ l, lt x y → lt' x y) :
    Sorted lt' l :=
  hs.imp_of_mem fun hx hy hxy => h _ hx _ hy hxy

theorem Sorted.nodup [Std.Irrefl lt] (hs : Sorted lt l) : l.Nodup := by
  refine List.Pairwise.imp (fun {a b} hab heq => ?_) hs
  subst heq
  exact Std.Irrefl.irrefl a hab

end ComparatorSet
