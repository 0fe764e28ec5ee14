/-
# The composite file system

Model of `oop-framework/Composite_Filesystem.cpp`.  A `Node` is a `File` with a size or a
`Directory` with children; the objects are told apart by their addresses.  `remove` erases, in a
loop over the children, those with the given name, and digs further in the others.

What a directory contains is the list of its strict descendants, each with the nodes on the way to
it (`descendants`).  Result: `remove` filters that list by what has no node of the name on its way
(`descendants_remove`), from which everything else follows.
-/
import SystemsDesign.WhitespaceTokens

namespace CompositeFilesystem

open WhitespaceTokens

/-! ## Nodes -/

/-- The objects of the classes `File` and `Directory`, with their addresses. -/
inductive Node (A : Type*) where
  | file (address : A) (name : Text) (fileSize : ℤ)
  | directory (address : A) (name : Text) (children : List (Node A))

variable {A : Type*}

@[elab_as_elim, induction_eliminator]
theorem Node.induction {P : Node A → Prop}
    (file : ∀ address name fileSize, P (.file address name fileSize))
    (directory : ∀ address name children, (∀ c ∈ children, P c) →
      P (.directory address name children)) (d : Node A) : P d := by
  refine @Node.rec A P (fun children => ∀ c ∈ children, P c) file directory ?_ ?_ d
  · intro c hc
    cases hc
  · intro c cs hc hcs x hx
    rcases List.mem_cons.mp hx with rfl | hx
    · exact hc
    · exact hcs x hx

/-- `getName()`. -/
def Node.getName : Node A → Text
  | .file _ name _ => name
  | .directory _ name _ => name

mutual

/-- `size()`. -/
def Node.size : Node A → ℤ
  | .file _ _ fileSize => fileSize
  | .directory _ _ children => sizeLoop 0 children

/-- The loop of `Directory::size`. -/
def sizeLoop (total : ℤ) : List (Node A) → ℤ
  | [] => total
  | child :: children => sizeLoop (total + child.size) children

end

mutual

/-- `find(name)`; the null pointer is `none`. -/
def Node.find (name : Text) : Node A → Option (Node A)
  | .file address own fileSize => if name = own then some (.file address own fileSize) else none
  | .directory address own children =>
    if own = name then some (.directory address own children) else findLoop name children

/-- The loop of `Directory::find`. -/
def findLoop (name : Text) : List (Node A) → Option (Node A)
  | [] => none
  | child :: children =>
    match child.find name with
    | some result => some result
    | none => findLoop name children

end

mutual

/-- `remove(name)`. -/
def Node.remove (name : Text) : Node A → Node A
  | .file address own fileSize => .file address own fileSize
  | .directory address own children => .directory address own (removeLoop name children)

/-- The loop of `Directory::remove` from the iterator on: what becomes of the rest of the
children. -/
def removeLoop (name : Text) : List (Node A) → List (Node A)
  | [] => []
  | child :: children =>
    if child.getName = name then removeLoop name children
    else child.remove name :: removeLoop name children

end

/-! ## Descendants -/

/-- A node without its children: its address, its name, and its size if it is a file. -/
structure Entry (A : Type*) where
  address : A
  name : Text
  size : Option ℤ
  deriving DecidableEq

/-- A strict descendant of a directory, and the nodes between the two from above. -/
structure Descendant (A : Type*) where
  above : List (Entry A)
  node : Entry A
  deriving DecidableEq

/-- The entry of a node. -/
def Node.entry : Node A → Entry A
  | .file address name fileSize => ⟨address, name, some fileSize⟩
  | .directory address name _ => ⟨address, name, none⟩

/-- A descendant of a child, seen from the parent. -/
def Descendant.under (e : Entry A) (x : Descendant A) : Descendant A := ⟨e :: x.above, x.node⟩

mutual

/-- The strict descendants of a node, each before what is below it, in the order of the children. -/
def Node.descendants : Node A → List (Descendant A)
  | .file _ _ _ => []
  | .directory _ _ children => descendantsIn children

/-- The children of a directory and what is below them. -/
def descendantsIn : List (Node A) → List (Descendant A)
  | [] => []
  | child :: children =>
    ⟨[], child.entry⟩ :: child.descendants.map (Descendant.under child.entry)
      ++ descendantsIn children

end

/-- Neither the descendant nor a node above it has the name. -/
def Descendant.Spared (name : Text) (x : Descendant A) : Prop :=
  x.node.name ≠ name ∧ ∀ e ∈ x.above, e.name ≠ name

instance (name : Text) : DecidablePred (Descendant.Spared (A := A) name) := by
  intro x
  unfold Descendant.Spared
  infer_instance

variable {name : Text} {e : Entry A} {x : Descendant A}

@[simp] theorem entry_name (d : Node A) : d.entry.name = d.getName := by
  cases d with
  | file address own fileSize => rfl
  | directory address own children => rfl

@[simp] theorem entry_remove (name : Text) (d : Node A) : (d.remove name).entry = d.entry := by
  cases d with
  | file address own fileSize => rw [Node.remove]
  | directory address own children =>
    rw [Node.remove]
    rfl

/-- Seen from further above, a descendant is spared if the node on the way is. -/
theorem spared_under : (x.under e).Spared name ↔ e.name ≠ name ∧ x.Spared name := by
  unfold Descendant.Spared Descendant.under
  rw [List.forall_mem_cons]
  tauto

/-- What is below a node of the name is not spared, and the rest of it is spared as before. -/
theorem filter_spared_under (e : Entry A) (xs : List (Descendant A)) :
    (xs.map (Descendant.under e)).filter (fun x => x.Spared name)
      = if e.name = name then [] else
          (xs.filter fun x => x.Spared name).map (Descendant.under e) := by
  split_ifs with he
  · rw [List.filter_eq_nil_iff]
    intro x hx
    obtain ⟨y, -, rfl⟩ := List.mem_map.mp hx
    simp only [spared_under, decide_eq_true_eq]
    exact fun h => h.1 he
  · rw [List.filter_map]
    congr 1
    apply List.filter_congr
    intro x _
    simp only [Function.comp, spared_under, decide_eq_decide]
    exact and_iff_right he

/-! ## Removal -/

/-- **Removal filters the descendants** by what is spared. -/
theorem descendants_remove (name : Text) (d : Node A) :
    (d.remove name).descendants = d.descendants.filter fun x => x.Spared name := by
  induction d with
  | file address own fileSize => simp [Node.remove, Node.descendants]
  | directory address own children ih =>
    rw [Node.remove, Node.descendants, Node.descendants]
    -- along the children, as the loop goes
    induction children with
    | nil => simp [removeLoop, descendantsIn]
    | cons child children ihloop =>
      have hchild := ih child List.mem_cons_self
      have hrest := ihloop fun c hc => ih c (List.mem_cons_of_mem child hc)
      have hself : (⟨[], child.entry⟩ : Descendant A).Spared name ↔ child.getName ≠ name := by
        unfold Descendant.Spared
        rw [entry_name]
        simp
      rw [removeLoop, descendantsIn, List.filter_append, List.filter_cons, filter_spared_under,
        entry_name, ← hrest]
      by_cases hname : child.getName = name
      · simp [hname, hself]
      · simp [hname, hself, descendantsIn, hchild]

/-! ## Sizes -/

theorem sizeLoop_eq (total : ℤ) (children : List (Node A)) :
    sizeLoop total children = total + (children.map Node.size).sum := by
  induction children generalizing total with
  | nil => simp [sizeLoop]
  | cons child children ih =>
    rw [sizeLoop, ih, List.map_cons, List.sum_cons, add_assoc]

/-- The sizes of the files among some descendants, together. -/
def fileSizes (xs : List (Descendant A)) : ℤ := (xs.filterMap fun x => x.node.size).sum

theorem fileSizes_under (e : Entry A) (xs : List (Descendant A)) :
    fileSizes (xs.map (Descendant.under e)) = fileSizes xs := by
  unfold fileSizes
  rw [List.filterMap_map]
  rfl

/-- The size of a node is its own, if it is a file, and that of the files below it. -/
theorem size_eq (d : Node A) : d.size = d.entry.size.getD 0 + fileSizes d.descendants := by
  induction d with
  | file address own fileSize => simp [Node.size, Node.entry, Node.descendants, fileSizes]
  | directory address own children ih =>
    rw [Node.size, sizeLoop_eq, Node.descendants]
    show 0 + _ = 0 + _
    congr 1
    induction children with
    | nil => simp [descendantsIn, fileSizes]
    | cons child children ihsum =>
      have hrest := ihsum fun c hc => ih c (List.mem_cons_of_mem child hc)
      have hunder := fileSizes_under child.entry child.descendants
      rw [List.map_cons, List.sum_cons, hrest, ih child List.mem_cons_self, descendantsIn, ← hunder]
      unfold fileSizes
      rw [List.filterMap_append, List.sum_append, List.filterMap_cons]
      cases child.entry.size with
      | none => simp
      | some s => simp

/-! ## Search -/

theorem isSome_find (name : Text) (d : Node A) :
    (d.find name).isSome ↔ d.getName = name ∨ ∃ x ∈ d.descendants, x.node.name = name := by
  induction d with
  | file address own fileSize =>
    by_cases hname : name = own
    · simp [Node.find, Node.getName, hname]
    · simp [Node.find, Node.getName, Node.descendants, hname, Ne.symm hname]
  | directory address own children ih =>
    rw [Node.find, Node.descendants]
    by_cases hname : own = name
    · rw [if_pos hname]
      exact iff_of_true rfl (.inl hname)
    rw [if_neg hname]
    refine Iff.trans ?_ (or_iff_right hname).symm
    induction children with
    | nil => simp [findLoop, descendantsIn]
    | cons child children ihloop =>
      have hchild := ih child List.mem_cons_self
      have hrest := ihloop fun c hc => ih c (List.mem_cons_of_mem child hc)
      have hmem : (∃ x ∈ descendantsIn (child :: children), x.node.name = name) ↔
          (child.getName = name ∨ ∃ x ∈ child.descendants, x.node.name = name) ∨
            ∃ x ∈ descendantsIn children, x.node.name = name := by
        rw [descendantsIn]
        simp only [List.mem_append, List.mem_cons, List.mem_map, or_and_right, exists_or,
          exists_eq_left, exists_exists_and_eq_and, entry_name, Descendant.under]
      rw [hmem, ← hchild, ← hrest, findLoop]
      cases child.find name with
      | none => simp
      | some result => simp

/-! ## The result -/

end CompositeFilesystem
