/-
# Walks through a trie

A trie is a tree addressed by paths whose names are the letters of words.  Its operations walk along
a word and change the values on the way: `visit` at every node they come to, and `last` at the node
where they end.

* `walk` creates the nodes that are missing; `valAt_walk` says what every node answers afterwards.
* `walkExisting` fails at a missing node; where there is none it is `walk`
  (`walkExisting_of_isSome`).
-/
import SystemsDesign.PathTree

namespace PathTree

namespace NamedTree

variable {κ α : Type*} [DecidableEq κ]

/-- Change the value of the root. -/
def modifyVal (f : α → α) (t : NamedTree κ α) : NamedTree κ α := node (f t.val) t.children

/-- Walk along a path from the root, create what is missing with the value `fresh`, apply `visit` to
every node that is entered, and `last` to the one at the end. -/
def walk (fresh : α) (visit last : α → α) : NamedTree κ α → List κ → NamedTree κ α
  | t, [] => t.modifyVal last
  | t, k :: path =>
    let entered := ((t.child k).getD (node fresh [])).modifyVal visit
    node t.val (setChild k (walk fresh visit last entered path) t.children)

/-- Walk along a path whose nodes must be there. -/
def walkExisting (visit last : α → α) : NamedTree κ α → List κ → Option (NamedTree κ α)
  | t, [] => some (t.modifyVal last)
  | t, k :: path => do
    let c ← t.child k
    let c' ← walkExisting visit last (c.modifyVal visit) path
    return node t.val (setChild k c' t.children)

end NamedTree

open NamedTree

variable {κ α : Type*} [DecidableEq κ] {fresh : α} {visit last : α → α}

/-- What a walk along `path` does to the value at its prefix `q`. -/
def touched (visit last : α → α) (path q : List κ) (v : α) : α :=
  let v := if q = [] then v else visit v
  if q = path then last v else v

theorem valAt_modifyVal (f : α → α) (t : NamedTree κ α) (q : List κ) :
    (t.modifyVal f).valAt q = if q = [] then some (f t.val) else t.valAt q := by
  cases q with
  | nil => rfl
  | cons k q => rfl

/-- **A walk** touches the prefixes of its path, creates those that are missing, and leaves the
other nodes as they are. -/
theorem valAt_walk (fresh : α) (visit last : α → α) (t : NamedTree κ α) (path q : List κ) :
    (t.walk fresh visit last path).valAt q =
      if q <+: path then some (touched visit last path q ((t.valAt q).getD fresh))
      else t.valAt q := by
  induction path generalizing t q with
  | nil =>
    rw [walk, valAt_modifyVal]
    cases q with
    | nil => rfl
    | cons k q => simp
  | cons k path ih =>
    rw [walk]
    cases q with
    | nil => rfl
    | cons k' q =>
      rw [valAt_cons, valAt_cons]
      by_cases hk : k' = k
      · subst hk
        rw [child_setChild, if_pos rfl, Option.bind_some, ih, valAt_modifyVal]
        simp only [List.cons_prefix_cons, true_and]
        -- the child that is entered, there or new
        have hnew : ∀ q ≠ [], ((t.child k').getD (node fresh [])).valAt q
            = (t.child k').bind fun c => c.valAt q := by
          intro q hq
          cases t.child k' with
          | some c => rfl
          | none => exact (valAt_leaf fresh q).trans (if_neg hq)
        have hval : ((t.child k').getD (node fresh [])).val
            = ((t.child k').bind fun c => c.valAt []).getD fresh := by
          cases t.child k' with
          | some c => rfl
          | none => rfl
        by_cases hq : q = []
        · subst hq
          simp [touched, hval]
        · rw [if_neg hq, hnew q hq]
          simp [touched, hq]
      · rw [child_setChild, if_neg hk]
        simp [List.cons_prefix_cons, hk]

/-- Where all nodes are there, it does not matter whether missing ones would be created. -/
theorem walkExisting_of_isSome (fresh : α) (visit last : α → α) {t : NamedTree κ α} {path : List κ}
    (h : (t.valAt path).isSome) :
    t.walkExisting visit last path = some (t.walk fresh visit last path) := by
  induction path generalizing t with
  | nil => rfl
  | cons k path ih =>
    rw [valAt_cons] at h
    rw [walkExisting, walk]
    cases hc : t.child k with
    | none => rw [hc] at h; cases h
    | some c =>
      rw [hc, Option.bind_some] at h
      have hentered : ((c.modifyVal visit).valAt path).isSome := by
        rw [valAt_modifyVal]
        split_ifs
        · rfl
        · exact h
      rw [Option.getD_some, Option.bind_eq_bind, Option.bind_some, ih hentered]
      rfl

end PathTree
