/-
# Trees addressed by paths

A node has a value and named children; a path is a list of names and leads from the root to at
most one node.  The operations walk along a path:

* `ensure` creates the nodes that are missing on the way, each with a value that may depend on
  what is left of the path;
* `update` changes the value of the node at the end, if it is there;
* `erase` takes the node at the end out of its parent, with everything below it.

Results: a tree is a map from paths to values (`valAt`) in which the prefixes of a path that is
present are present, and each operation is characterised by what `valAt` answers afterwards.
-/
import Mathlib

namespace PathTree

/-! ## Named children -/

section Children

variable {κ τ : Type*} [DecidableEq κ] {k k' : κ} {t : τ} {cs : List (κ × τ)}

/-- `children[k] = t`. -/
def setChild (k : κ) (t : τ) : List (κ × τ) → List (κ × τ)
  | [] => [(k, t)]
  | c :: cs => if c.1 = k then (k, t) :: cs else c :: setChild k t cs

/-- `children.erase(k)`. -/
def eraseChild (k : κ) (cs : List (κ × τ)) : List (κ × τ) := cs.filter fun c => c.1 ≠ k

/-- The names of the children are those under which something is found. -/
theorem isSome_lookup (k : κ) (cs : List (κ × τ)) :
    (cs.lookup k).isSome ↔ k ∈ cs.map Prod.fst := by
  induction cs with
  | nil => simp
  | cons c cs ih =>
    rw [List.lookup_cons, List.map_cons, List.mem_cons]
    by_cases h : k = c.1
    · rw [h, beq_self_eq_true]
      exact iff_of_true rfl (.inl rfl)
    · rw [beq_false_of_ne h]
      exact ih.trans (or_iff_right h).symm

theorem lookup_setChild (k : κ) (t : τ) (cs : List (κ × τ)) (k' : κ) :
    (setChild k t cs).lookup k' = if k' = k then some t else cs.lookup k' := by
  induction cs with
  | nil =>
    rw [setChild, List.lookup_cons]
    split_ifs with h
    · rw [h, beq_self_eq_true]
    · rw [beq_false_of_ne h]
  | cons c cs ih =>
    unfold setChild
    split_ifs with hc h h
    · rw [List.lookup_cons, h, beq_self_eq_true]
    · rw [List.lookup_cons, List.lookup_cons, hc, beq_false_of_ne h]
    · rw [List.lookup_cons, ih, if_pos h, h, beq_false_of_ne (Ne.symm hc)]
    · rw [List.lookup_cons, List.lookup_cons, ih, if_neg h]

theorem lookup_eraseChild (k : κ) (cs : List (κ × τ)) (k' : κ) :
    (eraseChild k cs).lookup k' = if k' = k then none else cs.lookup k' := by
  unfold eraseChild
  induction cs with
  | nil => simp
  | cons c cs ih =>
    rw [List.filter_cons]
    split_ifs with hc h h
    · have hne : k' ≠ c.1 := by
        rintro rfl
        exact of_decide_eq_true hc h
      rw [List.lookup_cons, ih, if_pos h, beq_false_of_ne hne]
    · rw [List.lookup_cons, List.lookup_cons, ih, if_neg h]
    · rw [ih, if_pos h]
    · have hne : k' ≠ c.1 := by
        rintro rfl
        exact hc (decide_eq_true h)
      rw [List.lookup_cons, ih, if_neg h, beq_false_of_ne hne]

end Children

/-! ## Trees -/

/-- A node with a value and named children. -/
inductive NamedTree (κ α : Type*) where
  | node (val : α) (children : List (κ × NamedTree κ α))

namespace NamedTree

variable {κ α : Type*}

/-- The value of the root. -/
def val : NamedTree κ α → α
  | node v _ => v

/-- The children of the root. -/
def children : NamedTree κ α → List (κ × NamedTree κ α)
  | node _ cs => cs

variable [DecidableEq κ]

/-- The child with a name. -/
def child (t : NamedTree κ α) (k : κ) : Option (NamedTree κ α) := t.children.lookup k

/-- The node at the end of a path. -/
def find : NamedTree κ α → List κ → Option (NamedTree κ α)
  | t, [] => some t
  | t, k :: path => (t.child k).bind fun c => c.find path

/-- The value of the node at the end of a path. -/
def valAt (t : NamedTree κ α) (path : List κ) : Option α := (t.find path).map val

/-- Walk along a path and create what is missing: a new node with `rest` of the path left gets the
value `fresh rest`. -/
def ensure (fresh : List κ → α) : NamedTree κ α → List κ → NamedTree κ α
  | t, [] => t
  | t, k :: path =>
    node t.val (setChild k
      (ensure fresh ((t.child k).getD (node (fresh path) [])) path) t.children)

/-- Change the value of the node at the end of a path. -/
def update (f : α → α) : NamedTree κ α → List κ → NamedTree κ α
  | t, [] => node (f t.val) t.children
  | t, k :: path =>
    match t.child k with
    | none => t
    | some c => node t.val (setChild k (update f c path) t.children)

/-- Take out the node at the end of a path; the root stays. -/
def erase : NamedTree κ α → List κ → NamedTree κ α
  | t, [] => t
  | t, [k] => node t.val (eraseChild k t.children)
  | t, k :: path =>
    match t.child k with
    | none => t
    | some c => node t.val (setChild k (erase c path) t.children)

end NamedTree

/-! ## What a tree answers -/

open NamedTree

variable {κ α : Type*} [DecidableEq κ] {t : NamedTree κ α} {fresh : List κ → α} {f : α → α} {v : α}
  {k k' : κ} {path q : List κ}

@[simp] theorem valAt_nil (t : NamedTree κ α) : t.valAt [] = some t.val := rfl

theorem valAt_cons (t : NamedTree κ α) (k : κ) (path : List κ) :
    t.valAt (k :: path) = (t.child k).bind fun c => c.valAt path := by
  unfold valAt
  rw [find]
  cases t.child k with
  | none => rfl
  | some c => rfl

theorem child_setChild (v : α) (k : κ) (c t : NamedTree κ α) (k' : κ) :
    (node v (setChild k c t.children)).child k' = if k' = k then some c else t.child k' :=
  lookup_setChild k c t.children k'

theorem child_eraseChild (v : α) (k : κ) (t : NamedTree κ α) (k' : κ) :
    (node v (eraseChild k t.children)).child k' = if k' = k then none else t.child k' :=
  lookup_eraseChild k t.children k'

theorem valAt_leaf (v : α) (path : List κ) :
    (node v [] : NamedTree κ α).valAt path = if path = [] then some v else none := by
  cases path with
  | nil => rfl
  | cons k path => rfl

/-- A path continued by a name leads to a child of where it leads. -/
theorem find_concat (t : NamedTree κ α) (q : List κ) (k : κ) :
    t.find (q ++ [k]) = (t.find q).bind fun c => c.child k := by
  induction q generalizing t with
  | nil =>
    show (t.child k).bind _ = _
    cases h : t.child k with
    | none => simp [find, h]
    | some c => simp [find, h]
  | cons k' q ih =>
    rw [List.cons_append, find, find]
    cases t.child k' with
    | none => rfl
    | some c => exact ih c

/-- A path continued by a name has a value exactly if that name is the name of a child. -/
theorem isSome_valAt_concat {c : NamedTree κ α} (h : t.find q = some c) (k : κ) :
    (t.valAt (q ++ [k])).isSome ↔ k ∈ c.children.map Prod.fst := by
  unfold valAt
  rw [Option.isSome_map, find_concat, h, Option.bind_some]
  exact isSome_lookup k c.children

/-- **The prefixes of a path that is present are present.** -/
theorem valAt_isSome_of_prefix {p : List κ} (hp : p <+: q) (h : (t.valAt q).isSome) :
    (t.valAt p).isSome := by
  obtain ⟨r, rfl⟩ := hp
  induction p generalizing t with
  | nil => rfl
  | cons k p ih =>
    rw [List.cons_append, valAt_cons] at h
    rw [valAt_cons]
    cases hc : t.child k with
    | none => rw [hc] at h; cases h
    | some c =>
      rw [hc] at h
      exact ih h

/-! ## The operations -/

/-- **Creating what is missing.**  What was there keeps its value, and the prefixes of the path
that were missing are there. -/
theorem valAt_ensure (fresh : List κ → α) (t : NamedTree κ α) (path q : List κ) :
    (t.ensure fresh path).valAt q = (t.valAt q).or
      (if q <+: path then some (fresh (path.drop q.length)) else none) := by
  -- along the path, as the operation walks
  induction path generalizing t q with
  | nil =>
    cases q with
    | nil => rfl
    | cons k q => simp [ensure]
  | cons k path ih =>
    cases q with
    | nil => rfl
    | cons k' q =>
      rw [ensure, valAt_cons, valAt_cons]
      by_cases hk : k' = k
      · subst hk
        rw [child_setChild, if_pos rfl, Option.bind_some, ih]
        simp only [List.cons_prefix_cons, true_and, List.length_cons, List.drop_succ_cons]
        cases t.child k' with
        | some c => rfl
        | none =>
          rw [Option.getD_none, valAt_leaf, Option.bind_none]
          split_ifs with hnil hprefix hprefix
          · subst hnil
            rfl
          · subst hnil
            exact absurd List.nil_prefix hprefix
          · rfl
          · rfl
      · rw [child_setChild, if_neg hk]
        simp [List.cons_prefix_cons, hk]

theorem valAt_ensure_of_some (h : t.valAt q = some v) (fresh : List κ → α) (path : List κ) :
    (t.ensure fresh path).valAt q = some v := by
  rw [valAt_ensure, h, Option.some_or]

/-- What was missing on the way is created. -/
theorem valAt_ensure_of_none (h : t.valAt q = none) (hq : q <+: path) (fresh : List κ → α) :
    (t.ensure fresh path).valAt q = some (fresh (path.drop q.length)) := by
  rw [valAt_ensure, h, if_pos hq, Option.none_or]

theorem valAt_or_of_ensure {fresh : List κ → α} (h : (t.ensure fresh path).valAt q = some v) :
    t.valAt q = some v ∨ t.valAt q = none ∧ q <+: path ∧ fresh (path.drop q.length) = v := by
  rw [valAt_ensure] at h
  cases hold : t.valAt q with
  | some v₀ =>
    rw [hold, Option.some_or] at h
    exact .inl h
  | none =>
    rw [hold, Option.none_or] at h
    split_ifs at h with hq
    exact .inr ⟨rfl, hq, Option.some.inj h⟩

theorem isSome_valAt_ensure (fresh : List κ → α) (t : NamedTree κ α) (path q : List κ) :
    ((t.ensure fresh path).valAt q).isSome ↔ (t.valAt q).isSome ∨ q <+: path := by
  rw [valAt_ensure]
  split_ifs with hq
  · simp [hq]
  · simp [hq]

/-- **Changing a value** changes the answer for that path only. -/
theorem valAt_update (f : α → α) (t : NamedTree κ α) (path q : List κ) :
    (t.update f path).valAt q = if q = path then (t.valAt q).map f else t.valAt q := by
  induction path generalizing t q with
  | nil =>
    cases q with
    | nil => rfl
    | cons k q => rfl
  | cons k path ih =>
    rw [update]
    cases hc : t.child k with
    | none =>
      dsimp only
      split_ifs with hq
      · subst hq
        rw [valAt_cons, hc]
        rfl
      · rfl
    | some c =>
      cases q with
      | nil => rfl
      | cons k' q =>
        rw [valAt_cons, valAt_cons]
        by_cases hk : k' = k
        · subst hk
          rw [child_setChild, if_pos rfl, Option.bind_some, ih, hc]
          simp only [List.cons.injEq, true_and, Option.bind_some]
        · rw [child_setChild, if_neg hk]
          simp [hk]

theorem isSome_valAt_update (f : α → α) (t : NamedTree κ α) (path q : List κ) :
    ((t.update f path).valAt q).isSome ↔ (t.valAt q).isSome := by
  rw [valAt_update]
  split_ifs with hq
  · rw [Option.isSome_map]
  · rfl

theorem val_erase (t : NamedTree κ α) (path : List κ) : (t.erase path).val = t.val := by
  fun_cases erase t path <;> rfl

/-- **Taking out a node** takes out the paths that go through it. -/
theorem valAt_erase (t : NamedTree κ α) (path q : List κ) :
    (t.erase path).valAt q = if path ≠ [] ∧ path <+: q then none else t.valAt q := by
  induction path generalizing t q with
  | nil => simp [erase]
  | cons k path ih =>
    cases q with
    | nil =>
      rw [valAt_nil, val_erase]
      simp
    | cons k' q =>
      simp only [ne_eq, reduceCtorEq, not_false_eq_true, true_and, List.cons_prefix_cons]
      cases path with
      | nil =>
        -- the last name is erased from the children
        rw [erase, valAt_cons]
        rw [child_eraseChild, valAt_cons]
        by_cases hk : k' = k
        · subst hk
          simp
        · simp [hk, Ne.symm hk]
      | cons k₂ path =>
        rw [erase]
        · cases hc : t.child k with
          | none =>
            dsimp only
            split_ifs with hq
            · obtain ⟨rfl, -⟩ := hq
              rw [valAt_cons, hc]
              rfl
            · rfl
          | some c =>
            rw [valAt_cons, valAt_cons]
            rw [child_setChild]
            by_cases hk : k' = k
            · subst hk
              rw [if_pos rfl, Option.bind_some, ih, hc]
              simp
            · rw [if_neg hk, if_neg fun h => hk h.1.symm]
        · exact List.cons_ne_nil _ _

theorem isSome_valAt_erase (t : NamedTree κ α) (path q : List κ) :
    ((t.erase path).valAt q).isSome ↔ (t.valAt q).isSome ∧ ¬ (path ≠ [] ∧ path <+: q) := by
  rw [valAt_erase]
  split_ifs with hq
  · simp [hq]
  · simp [hq]

end PathTree
