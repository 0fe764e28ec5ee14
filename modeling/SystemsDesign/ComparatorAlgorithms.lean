/-
# Sorting and priority queues by a comparator

`std::sort` and `std::priority_queue` as their contracts describe them.  Neither contract says how
equivalent elements are ordered, so both are structures: a program that uses them is modelled with
an arbitrary one, and what is proved of it holds for every implementation.

For an order by keys there is a simple implementation of each (`Sorter.byKey`,
`PriorityQueue.byKey`), so that a modelled program can be run.
-/
import Mathlib

namespace ComparatorAlgorithms

variable {α β : Type*}

/-- `std::sort` with a comparator: it permutes the list, and nothing stands behind an element that
it comes before. -/
structure Sorter (before : α → α → Prop) where
  sort : List α → List α
  perm : ∀ l, (sort l).Perm l
  sorted : ∀ l, (sort l).Pairwise fun a b => ¬ before b a

/-- `std::priority_queue` with a comparator: a multiset of elements, of which one that is below
no other is on top. -/
structure PriorityQueue (below : α → α → Prop) where
  Queue : Type
  empty : Queue
  push : Queue → α → Queue
  /-- `none` for an empty queue. -/
  top : Queue → Option α
  pop : Queue → Queue
  elems : Queue → Multiset α
  elems_empty : elems empty = 0
  elems_push : ∀ q a, elems (push q a) = a ::ₘ elems q
  top_eq_none_iff : ∀ q, top q = none ↔ elems q = 0
  elems_of_top : ∀ {q a}, top q = some a → elems q = a ::ₘ elems (pop q)
  not_below_of_top : ∀ {q a}, top q = some a → ∀ b ∈ elems q, ¬ below a b

namespace PriorityQueue

variable {below : α → α → Prop} (P : PriorityQueue below) {q : P.Queue} {a : α}

theorem card_of_top (h : P.top q = some a) : (P.elems q).card = (P.elems (P.pop q)).card + 1 := by
  rw [P.elems_of_top h, Multiset.card_cons]

/-- The loop that pops until the queue is empty: the elements in the order in which they were on
top. -/
def drain (q : P.Queue) : List α :=
  match h : P.top q with
  | none => []
  | some a =>
    have : (P.elems (P.pop q)).card < (P.elems q).card := by
      rw [P.card_of_top h]
      exact Nat.lt_succ_self _
    a :: drain (P.pop q)
termination_by (P.elems q).card

/-- **Draining a queue** yields its elements, none of them below a later one. -/
theorem drain_spec (q : P.Queue) :
    (P.drain q : Multiset α) = P.elems q ∧ (P.drain q).Pairwise fun a b => ¬ below a b := by
  induction hn : (P.elems q).card using Nat.strong_induction_on generalizing q with
  | _ n ih =>
    rw [drain]
    split
    · rename_i hnone
      rw [(P.top_eq_none_iff q).mp hnone]
      exact ⟨rfl, List.Pairwise.nil⟩
    · rename_i a htop
      have hcard := P.card_of_top htop
      obtain ⟨helems, hsorted⟩ := ih _ (by omega) (P.pop q) rfl
      rw [← Multiset.cons_coe, helems, ← P.elems_of_top htop]
      refine ⟨rfl, List.pairwise_cons.mpr ⟨fun b hb => P.not_below_of_top htop b ?_, hsorted⟩⟩
      rw [P.elems_of_top htop, ← helems]
      exact Multiset.mem_cons_of_mem hb

end PriorityQueue

variable [LinearOrder β] (key : α → β)

/-- Sorting by a key, the smallest first. -/
def Sorter.byKey : Sorter fun a b => key a < key b where
  sort l := l.insertionSort fun a b => key a ≤ key b
  perm l := List.perm_insertionSort _ l
  sorted l := by
    have htotal : Std.Total fun a b => key a ≤ key b := ⟨fun a b => le_total (key a) (key b)⟩
    have htrans : IsTrans α fun a b => key a ≤ key b := ⟨fun _ _ _ => le_trans⟩
    exact (List.pairwise_insertionSort (fun a b => key a ≤ key b) l).imp not_lt.mpr

/-- A priority queue by a key, with the smallest on top. -/
def PriorityQueue.byKey {α : Type} [DecidableEq α] (key : α → β) :
    PriorityQueue fun a b : α => key b < key a where
  Queue := List α
  empty := []
  push q a := a :: q
  top q := q.argmin key
  pop q := (q.argmin key).elim q q.erase
  elems q := q
  elems_empty := rfl
  elems_push _ _ := rfl
  top_eq_none_iff q := List.argmin_eq_none.trans (Multiset.coe_eq_zero q).symm
  elems_of_top {q a} h := by
    have hmem : a ∈ q := List.argmin_mem h
    rw [h]
    exact Multiset.coe_eq_coe.mpr (List.perm_cons_erase hmem)
  not_below_of_top h b hb := List.not_lt_of_mem_argmin hb h

end ComparatorAlgorithms
