/-
# Which B+tree insertions keep every key searchable

What `findLeaf` can reach never has more than three nodes: a root leaf, or a root with one
separator and two leaves (`Shape`).  A leaf that overflows under such a root hands its upper
half to a node that no descent reaches.

The heap of `BPlusTree.lean` refines the shapes (`represents_insertKey`,
`represents_searchKey`), and `search_exact_iff` characterises the runs in which `searchKey` is
right: those in which no call moves a key out of reach.
-/
import SystemsDesign.BPlusTree

namespace BPlusTree

open BplusTree

/-! ## Sorted insertion -/

theorem insertSorted_eq (keys : List ℤ) (key : ℤ) :
    insertSorted keys key = keys.orderedInsert (· ≤ ·) key := by
  unfold insertSorted
  rw [List.orderedInsert_eq_take_drop]
  simp only [not_le]

theorem mem_insertSorted {keys : List ℤ} {key k : ℤ} :
    k ∈ insertSorted keys key ↔ k = key ∨ k ∈ keys := by
  rw [insertSorted_eq, List.mem_orderedInsert]

theorem insertSorted_pairwise {keys : List ℤ} (h : keys.Pairwise (· ≤ ·)) (key : ℤ) :
    (insertSorted keys key).Pairwise (· ≤ ·) := by
  rw [insertSorted_eq]
  exact h.orderedInsert key keys

theorem length_insertSorted (keys : List ℤ) (key : ℤ) :
    (insertSorted keys key).length = keys.length + 1 := by
  rw [insertSorted_eq, List.orderedInsert_length]

/-! ## Shapes -/

/-- What a descent can reach: a root leaf, or a separator with a leaf on each side. -/
inductive Shape where
  | single (keys : List ℤ)
  | split (sep : ℤ) (left right : List ℤ)

namespace Shape

/-- The keys of the leaf that a descent for `k` ends in. -/
def leafFor : Shape → ℤ → List ℤ
  | .single keys, _ => keys
  | .split sep left right, k => if k < sep then left else right

/-- What a leaf under the root keeps: all its keys, or the lower half when it overflows. -/
def keep (maxKeys : ℕ) (keys : List ℤ) : List ℤ :=
  if keys.length > maxKeys then keys.take (keys.length / 2) else keys

/-- The shape after `insertKey(key)`. -/
def insert (maxKeys : ℕ) : Shape → ℤ → Shape
  | .single keys, key =>
    let keys := insertSorted keys key
    if keys.length > maxKeys then
      .split ((keys.drop (keys.length / 2)).headD 0) (keys.take (keys.length / 2))
        (keys.drop (keys.length / 2))
    else .single keys
  | .split sep left right, key =>
    if key < sep then .split sep (keep maxKeys (insertSorted left key)) right
    else .split sep left (keep maxKeys (insertSorted right key))

/-- Inserting `key` moves `k` out of reach: the leaf of `key` lies under the root and
overflows, `k` goes to the new leaf, no copy of it stays, and a descent for `k` still ends in
the old leaf. -/
def Loses (maxKeys : ℕ) : Shape → ℤ → ℤ → Prop
  | .single _, _, _ => False
  | .split sep left right, key, k =>
    let keys := insertSorted ((Shape.split sep left right).leafFor key) key
    maxKeys < keys.length ∧ k ∈ keys.drop (keys.length / 2) ∧
      k ∉ keys.take (keys.length / 2) ∧ (k < sep ↔ key < sep)

/-- A root leaf is sorted. -/
def Sorted : Shape → Prop
  | .single keys => keys.Pairwise (· ≤ ·)
  | .split _ _ _ => True

theorem Sorted.insert {s : Shape} (h : s.Sorted) (maxKeys : ℕ) (key : ℤ) :
    (s.insert maxKeys key).Sorted := by
  cases s with
  | single keys =>
    unfold Shape.insert
    dsimp only
    split_ifs
    · trivial
    · exact insertSorted_pairwise h key
  | split sep left right =>
    dsimp only [Shape.insert]
    split_ifs <;> trivial

/-- Splitting a sorted list at a separator routes every key to the half that has it. -/
theorem mem_split_iff {keys : List ℤ} (h : keys.Pairwise (· ≤ ·)) {mid : ℕ}
    (hmid : mid < keys.length) (k : ℤ) :
    k ∈ (if k < (keys.drop mid).headD 0 then keys.take mid else keys.drop mid) ↔ k ∈ keys := by
  obtain ⟨sep, rest, hdrop⟩ : ∃ sep rest, keys.drop mid = sep :: rest :=
    List.exists_cons_of_length_pos (by rw [List.length_drop]; omega)
  have hsplit := List.take_append_drop mid keys
  rw [← hsplit, List.pairwise_append, hdrop] at h
  obtain ⟨-, hright, hcross⟩ := h
  have hmem : k ∈ keys ↔ k ∈ keys.take mid ∨ k ∈ sep :: rest := by
    rw [← hdrop, ← List.mem_append, hsplit]
  rw [hmem, hdrop, List.headD_cons]
  by_cases hk : k < sep
  · -- nothing from the separator on is below it
    rw [if_pos hk]
    refine ⟨Or.inl, ?_⟩
    rintro (hl | hr)
    · exact hl
    · rcases List.mem_cons.mp hr with rfl | hr
      · exact absurd hk (lt_irrefl _)
      · exact absurd hk (not_lt.mpr ((List.pairwise_cons.mp hright).1 k hr))
  · -- a key of the lower half that is not below the separator equals it
    rw [if_neg hk]
    refine ⟨Or.inr, ?_⟩
    rintro (hl | hr)
    · have := hcross k hl sep List.mem_cons_self
      rw [le_antisymm this (not_lt.mp hk)]
      exact List.mem_cons_self
    · exact hr

theorem mem_keep_iff {maxKeys : ℕ} {keys : List ℤ} {k : ℤ} :
    k ∈ keep maxKeys keys ↔ k ∈ keys ∧
      ¬ (maxKeys < keys.length ∧ k ∈ keys.drop (keys.length / 2) ∧
        k ∉ keys.take (keys.length / 2)) := by
  have hmem : k ∈ keys ↔ k ∈ keys.take (keys.length / 2) ∨ k ∈ keys.drop (keys.length / 2) := by
    rw [← List.mem_append, List.take_append_drop]
  unfold keep
  split_ifs with hlen
  · rw [hmem]
    tauto
  · exact ⟨fun hk => ⟨hk, fun hc => hlen hc.1⟩, fun hk => hk.1⟩

/-- **One insertion.**  Afterwards a descent finds the new key and the old ones, except those
that the insertion loses. -/
theorem mem_leafFor_insert {s : Shape} (h : s.Sorted) (maxKeys : ℕ) (key k : ℤ) :
    k ∈ (s.insert maxKeys key).leafFor k ↔
      (k = key ∨ k ∈ s.leafFor k) ∧ ¬ s.Loses maxKeys key k := by
  cases s with
  | single keys =>
    have hgoal : k ∈ ((Shape.single keys).insert maxKeys key).leafFor k
        ↔ k ∈ insertSorted keys key := by
      unfold Shape.insert
      dsimp only
      split_ifs
      · refine mem_split_iff (insertSorted_pairwise h key) ?_ k
        rw [length_insertSorted]
        omega
      · rfl
    rw [hgoal, mem_insertSorted]
    simp [Loses, leafFor]
  | split sep left right =>
    have hroute : ∀ leaf : List ℤ, (k < sep ↔ key < sep) →
        (k ∈ keep maxKeys (insertSorted leaf key) ↔ (k = key ∨ k ∈ leaf) ∧
          ¬ (maxKeys < (insertSorted leaf key).length ∧
            k ∈ (insertSorted leaf key).drop ((insertSorted leaf key).length / 2) ∧
            k ∉ (insertSorted leaf key).take ((insertSorted leaf key).length / 2) ∧
            (k < sep ↔ key < sep))) := by
      intro leaf hside
      rw [mem_keep_iff, mem_insertSorted]
      tauto
    -- a key on the other side of the separator is neither the new key nor touched
    have hother : ¬ (k < sep ↔ key < sep) → k ≠ key := by
      rintro hside rfl
      exact hside Iff.rfl
    unfold Shape.insert Loses
    by_cases hkey : key < sep <;> by_cases hk : k < sep
    · simpa [leafFor, hkey, hk] using hroute left (by simp [hkey, hk])
    · have := hother (by simp [hkey, hk])
      simp [leafFor, hkey, hk, this]
    · have := hother (by simp [hkey, hk])
      simp [leafFor, hkey, hk, this]
    · simpa [leafFor, hkey, hk] using hroute right (by simp [hkey, hk])

theorem mem_of_loses {s : Shape} {maxKeys : ℕ} {key k : ℤ} (h : s.Loses maxKeys key k) :
    k = key ∨ k ∈ s.leafFor k := by
  cases s with
  | single keys => exact h.elim
  | split sep left right =>
    obtain ⟨-, hdrop, -, hside⟩ := h
    have hleaf : (Shape.split sep left right).leafFor k
        = (Shape.split sep left right).leafFor key := by
      unfold leafFor
      simp only [hside]
    rw [hleaf]
    exact mem_insertSorted.mp (List.mem_of_mem_drop hdrop)

end Shape

/-! ## The heap refines the shapes -/

/-- The node at address `a` is a leaf with these keys. -/
def LeafAt (t : BplusTree) (a : ℕ) (keys : List ℤ) : Prop :=
  ∃ node, t.heap[a]? = some node ∧ node.isLeaf = true ∧ node.keys = keys

/-- The part of the heap that descents reach has the given shape. -/
def Represents (t : BplusTree) : Shape → Prop
  | .single keys => LeafAt t t.root keys
  | .split sep left right =>
    ∃ a b, t.heap[t.root]? = some { isLeaf := false, keys := [sep], children := [a, b] } ∧
      a ≠ b ∧ LeafAt t a left ∧ LeafAt t b right

theorem findLeafFrom_leaf {heap : List Node} {a : ℕ} {node : Node} (ha : heap[a]? = some node)
    (hleaf : node.isLeaf = true) (key : ℤ) (fuel : ℕ) :
    findLeafFrom heap key (fuel + 1) a = some a := by
  simp [findLeafFrom, ha, hleaf]

theorem ne_root_of_leafAt {t : BplusTree} {a : ℕ} {keys : List ℤ} {node : Node}
    (hroot : t.heap[t.root]? = some node) (hnode : node.isLeaf = false)
    (ha : LeafAt t a keys) : t.root ≠ a := by
  rintro rfl
  obtain ⟨node', hnode', hleaf, -⟩ := ha
  rw [hroot] at hnode'
  rw [← Option.some.inj hnode', hnode] at hleaf
  exact Bool.false_ne_true hleaf

theorem findLeaf_split {t : BplusTree} {sep : ℤ} {a b : ℕ} {left right : List ℤ}
    (hroot : t.heap[t.root]? = some { isLeaf := false, keys := [sep], children := [a, b] })
    (ha : LeafAt t a left) (hb : LeafAt t b right) (k : ℤ) :
    t.findLeaf k = some (if k < sep then a else b) := by
  have hne := ne_root_of_leafAt hroot rfl ha
  obtain ⟨na, hna, hla, -⟩ := ha
  obtain ⟨nb, hnb, hlb, -⟩ := hb
  -- root and leaf are two nodes, so the fuel reaches the leaf
  obtain ⟨fuel, hfuel⟩ : ∃ fuel, t.heap.length = fuel + 2 := by
    obtain ⟨h1, -⟩ := List.getElem?_eq_some_iff.mp hroot
    obtain ⟨h2, -⟩ := List.getElem?_eq_some_iff.mp hna
    exact ⟨t.heap.length - 2, by omega⟩
  unfold findLeaf
  rw [hfuel, findLeafFrom, hroot, Option.bind_some, if_neg Bool.false_ne_true]
  by_cases hk : k < sep
  · have hindex : childIndex [sep] k = 0 := by simp [childIndex, hk]
    rw [if_pos hk, hindex]
    exact findLeafFrom_leaf hna hla k fuel
  · have hindex : childIndex [sep] k = 1 := by simp [childIndex, not_lt.mp hk]
    rw [if_neg hk, hindex]
    exact findLeafFrom_leaf hnb hlb k fuel

theorem findLeaf_single {t : BplusTree} {keys : List ℤ} (h : LeafAt t t.root keys) (k : ℤ) :
    t.findLeaf k = some t.root := by
  obtain ⟨node, hnode, hleaf, -⟩ := h
  obtain ⟨fuel, hfuel⟩ : ∃ fuel, t.heap.length = fuel + 1 := by
    obtain ⟨h1, -⟩ := List.getElem?_eq_some_iff.mp hnode
    exact ⟨t.heap.length - 1, by omega⟩
  unfold findLeaf
  rw [hfuel]
  exact findLeafFrom_leaf hnode hleaf k fuel

/-- **Search** looks into the leaf of the shape. -/
theorem represents_searchKey {t : BplusTree} {s : Shape} (h : Represents t s) (k : ℤ) :
    t.searchKey k = some (decide (k ∈ s.leafFor k)) := by
  cases s with
  | single keys =>
    unfold searchKey
    rw [findLeaf_single h]
    obtain ⟨node, hnode, -, rfl⟩ := h
    rw [Option.bind_some, hnode]
    rfl
  | split sep left right =>
    obtain ⟨a, b, hroot, -, ha, hb⟩ := h
    unfold searchKey
    rw [findLeaf_split hroot ha hb]
    obtain ⟨na, hna, -, rfl⟩ := ha
    obtain ⟨nb, hnb, -, rfl⟩ := hb
    have hleaf : (Shape.split sep na.keys nb.keys).leafFor k
        = if k < sep then na.keys else nb.keys := rfl
    by_cases hk : k < sep
    · simp only [hleaf, if_pos hk, Option.bind_some, hna, Option.map_some]
    · simp only [hleaf, if_neg hk, Option.bind_some, hnb, Option.map_some]

/-- A split under the root: the leaf keeps its lower half, the other nodes stay. -/
theorem splitLeaf_under_root {t : BplusTree} {leaf : ℕ} {node : Node}
    (hleaf : t.heap[leaf]? = some node) (hroot : t.root ≠ leaf) :
    t.splitLeaf leaf = some { t with
      heap := t.heap.set leaf { node with
            keys := node.keys.take (node.keys.length / 2), next := some t.heap.length } ++
          [{ isLeaf := true, next := node.next,
             keys := node.keys.drop (node.keys.length / 2) }] } := by
  unfold splitLeaf
  rw [hleaf, Option.bind_some, if_neg hroot]

/-- A split of the root: the two halves under a new root. -/
theorem splitLeaf_root {t : BplusTree} {node : Node} {sep : ℤ} {rest : List ℤ}
    (hroot : t.heap[t.root]? = some node)
    (hdrop : node.keys.drop (node.keys.length / 2) = sep :: rest) :
    t.splitLeaf t.root = some { t with
      heap := t.heap.set t.root { node with
            keys := node.keys.take (node.keys.length / 2), next := some t.heap.length } ++
          [{ isLeaf := true, next := node.next, keys := sep :: rest }] ++
          [{ isLeaf := false, keys := [sep], children := [t.root, t.heap.length] }]
      root := t.heap.length + 1 } := by
  unfold splitLeaf
  rw [hroot, Option.bind_some]
  dsimp only
  rw [if_pos rfl, hdrop, List.head?_cons, Option.map_some]
  simp

/-- Insertion into a leaf under the root: the leaf keeps what `Shape.keep` says, the other
nodes stay. -/
theorem insertKey_under_root {t : BplusTree} {key : ℤ} {leaf : ℕ} {node : Node}
    (hfind : t.findLeaf key = some leaf) (hleaf : t.heap[leaf]? = some node)
    (hroot : t.root ≠ leaf) :
    ∃ node' fresh, t.insertKey key = some { t with heap := t.heap.set leaf node' ++ fresh } ∧
      node'.isLeaf = node.isLeaf ∧
      node'.keys = Shape.keep t.maxKeysPerNode (insertSorted node.keys key) := by
  obtain ⟨hlt, -⟩ := List.getElem?_eq_some_iff.mp hleaf
  unfold insertKey Shape.keep
  rw [hfind, Option.bind_some, hleaf, Option.bind_some]
  dsimp only
  split_ifs with hlen
  · rw [splitLeaf_under_root (t := { t with heap := t.heap.set leaf _ })
      (List.getElem?_set_self hlt) hroot]
    refine ⟨{ node with
        keys := (insertSorted node.keys key).take ((insertSorted node.keys key).length / 2)
        next := some t.heap.length },
      [{ isLeaf := true, next := node.next,
         keys := (insertSorted node.keys key).drop ((insertSorted node.keys key).length / 2) }],
      ?_, rfl, rfl⟩
    simp only [List.set_set, List.length_set]
  · exact ⟨{ node with keys := insertSorted node.keys key }, [], by rw [List.append_nil],
      rfl, rfl⟩

theorem represents_insertKey_single {t : BplusTree} {keys : List ℤ}
    (h : LeafAt t t.root keys) (key : ℤ) :
    ∃ t', t.insertKey key = some t' ∧ t'.maxKeysPerNode = t.maxKeysPerNode ∧
      Represents t' ((Shape.single keys).insert t.maxKeysPerNode key) := by
  have hfind := findLeaf_single h key
  obtain ⟨node, hnode, hleaf, rfl⟩ := h
  obtain ⟨hlt, -⟩ := List.getElem?_eq_some_iff.mp hnode
  unfold insertKey
  rw [hfind, Option.bind_some, hnode, Option.bind_some]
  dsimp only [Shape.insert]
  split_ifs with hlen
  · obtain ⟨sep, rest, hdrop⟩ : ∃ sep rest, (insertSorted node.keys key).drop
        ((insertSorted node.keys key).length / 2) = sep :: rest :=
      List.exists_cons_of_length_pos (by rw [List.length_drop, length_insertSorted]; omega)
    rw [splitLeaf_root (t := { t with heap := t.heap.set t.root _ })
      (List.getElem?_set_self hlt) hdrop, hdrop, List.headD_cons]
    refine ⟨_, rfl, rfl, t.root, t.heap.length, ?_, hlt.ne, ?_, ?_⟩
    · simp
    · refine ⟨{ node with
        keys := (insertSorted node.keys key).take ((insertSorted node.keys key).length / 2)
        next := some t.heap.length }, ?_, hleaf, rfl⟩
      simp [List.getElem?_append, hlt]
    · refine ⟨{ isLeaf := true, next := node.next, keys := sep :: rest }, ?_, rfl, rfl⟩
      simp
  · exact ⟨_, rfl, rfl, ⟨_, List.getElem?_set_self hlt, hleaf, rfl⟩⟩

theorem getElem?_set_append {heap fresh : List Node} {a b : ℕ} {x y : Node} (hne : a ≠ b)
    (hb : heap[b]? = some y) : (heap.set a x ++ fresh)[b]? = some y := by
  obtain ⟨hlt, -⟩ := List.getElem?_eq_some_iff.mp hb
  rw [List.getElem?_append_left (by rwa [List.length_set]), List.getElem?_set_ne hne, hb]

/-- Replacing one node and allocating others puts the node in place. -/
theorem getElem?_set_append_self {heap fresh : List Node} {a : ℕ} {x y : Node}
    (ha : heap[a]? = some y) : (heap.set a x ++ fresh)[a]? = some x := by
  obtain ⟨hlt, -⟩ := List.getElem?_eq_some_iff.mp ha
  rw [List.getElem?_append_left (by rwa [List.length_set]), List.getElem?_set_self hlt]

/-- **Insertion** refines the insertion of shapes, and never fails. -/
theorem represents_insertKey {t : BplusTree} {s : Shape} (h : Represents t s) (key : ℤ) :
    ∃ t', t.insertKey key = some t' ∧ t'.maxKeysPerNode = t.maxKeysPerNode ∧
      Represents t' (s.insert t.maxKeysPerNode key) := by
  cases s with
  | single keys => exact represents_insertKey_single h key
  | split sep left right =>
    obtain ⟨a, b, hroot, hab, ha, hb⟩ := h
    have hfind := findLeaf_split hroot ha hb key
    have hra := ne_root_of_leafAt hroot rfl ha
    have hrb := ne_root_of_leafAt hroot rfl hb
    obtain ⟨na, hna, hla, rfl⟩ := ha
    obtain ⟨nb, hnb, hlb, rfl⟩ := hb
    dsimp only [Shape.insert]
    by_cases hkey : key < sep
    · rw [if_pos hkey] at hfind ⊢
      obtain ⟨node', fresh, hins, hleaf', hkeys'⟩ := insertKey_under_root hfind hna hra
      exact ⟨_, hins, rfl, a, b, getElem?_set_append hra.symm hroot, hab,
        ⟨node', getElem?_set_append_self hna, hleaf'.trans hla, hkeys'⟩,
        ⟨nb, getElem?_set_append hab hnb, hlb, rfl⟩⟩
    · rw [if_neg hkey] at hfind ⊢
      obtain ⟨node', fresh, hins, hleaf', hkeys'⟩ := insertKey_under_root hfind hnb hrb
      exact ⟨_, hins, rfl, a, b, getElem?_set_append hrb.symm hroot, hab,
        ⟨na, getElem?_set_append hab.symm hna, hla, rfl⟩,
        ⟨node', getElem?_set_append_self hnb, hleaf'.trans hlb, hkeys'⟩⟩

/-! ## Runs -/

/-- The shape after a sequence of insertions. -/
def Shape.build (maxKeys : ℕ) (keys : List ℤ) : Shape :=
  keys.foldl (Shape.insert maxKeys) (.single [])

theorem build_concat (maxKeys : ℕ) (keys : List ℤ) (key : ℤ) :
    BplusTree.build maxKeys (keys ++ [key])
      = (BplusTree.build maxKeys keys).bind fun t => t.insertKey key := by
  simp [BplusTree.build, List.foldlM_append]

theorem shape_build_concat (maxKeys : ℕ) (keys : List ℤ) (key : ℤ) :
    Shape.build maxKeys (keys ++ [key]) = (Shape.build maxKeys keys).insert maxKeys key := by
  rw [Shape.build, List.foldl_concat]
  rfl

/-- **Every run succeeds and has the shape of its insertions.** -/
theorem represents_build (maxKeys : ℕ) (keys : List ℤ) :
    ∃ t, BplusTree.build maxKeys keys = some t ∧ t.maxKeysPerNode = maxKeys ∧
      Represents t (Shape.build maxKeys keys) ∧ (Shape.build maxKeys keys).Sorted := by
  induction keys using List.reverseRecOn with
  | nil => exact ⟨_, rfl, rfl, ⟨_, rfl, rfl, rfl⟩, List.Pairwise.nil⟩
  | append_singleton keys key ih =>
    obtain ⟨t, ht, hmax, hrep, hsorted⟩ := ih
    obtain ⟨t', ht', hmax', hrep'⟩ := represents_insertKey hrep key
    rw [hmax] at hmax' hrep'
    rw [shape_build_concat]
    exact ⟨t', by rw [build_concat, ht, Option.bind_some, ht'], hmax', hrep',
      hsorted.insert maxKeys key⟩

/-- Only keys that were inserted are found. -/
theorem mem_of_mem_leafFor {maxKeys : ℕ} {keys : List ℤ} {k : ℤ}
    (h : k ∈ (Shape.build maxKeys keys).leafFor k) : k ∈ keys := by
  induction keys using List.reverseRecOn with
  | nil => exact h
  | append_singleton keys key ih =>
    obtain ⟨-, -, -, -, hsorted⟩ := represents_build maxKeys keys
    rw [shape_build_concat, Shape.mem_leafFor_insert hsorted] at h
    rcases h.1 with rfl | hk
    · simp
    · exact List.mem_append_left _ (ih hk)

/-- Inserting `key` moves a key out of reach: the leaf for `key` is not the root and
overflows, some key goes to the new leaf while no copy of it stays, and a descent for that key
still ends in the old leaf. -/
def LosesKey (t : BplusTree) (key : ℤ) : Prop :=
  ∃ leaf node k, t.findLeaf key = some leaf ∧ t.root ≠ leaf ∧ t.heap[leaf]? = some node ∧
    t.maxKeysPerNode < (insertSorted node.keys key).length ∧
    k ∈ (insertSorted node.keys key).drop ((insertSorted node.keys key).length / 2) ∧
    k ∉ (insertSorted node.keys key).take ((insertSorted node.keys key).length / 2) ∧
    t.findLeaf k = some leaf

theorem losesKey_iff {t : BplusTree} {s : Shape} (h : Represents t s) (key : ℤ) :
    LosesKey t key ↔ ∃ k, s.Loses t.maxKeysPerNode key k := by
  cases s with
  | single keys =>
    have hfind := findLeaf_single h key
    constructor
    · rintro ⟨leaf, node, k, hleaf, hroot, -⟩
      rw [hfind] at hleaf
      exact absurd (Option.some.inj hleaf) hroot
    · rintro ⟨k, hk⟩
      exact hk.elim
  | split sep left right =>
    obtain ⟨a, b, hroot, hab, ha, hb⟩ := h
    have hfind := findLeaf_split hroot ha hb
    have hra := ne_root_of_leafAt hroot rfl ha
    have hrb := ne_root_of_leafAt hroot rfl hb
    -- two keys end in the same leaf when they are on the same side of the separator
    have hside : ∀ k, t.findLeaf k = t.findLeaf key ↔ (k < sep ↔ key < sep) := by
      intro k
      rw [hfind, hfind, Option.some.injEq]
      by_cases hk : k < sep <;> by_cases hkey : key < sep <;> simp [hk, hkey, hab, hab.symm]
    obtain ⟨na, hna, -, rfl⟩ := ha
    obtain ⟨nb, hnb, -, rfl⟩ := hb
    have hnode : ∃ leaf node, t.findLeaf key = some leaf ∧ t.root ≠ leaf ∧
        t.heap[leaf]? = some node ∧
        (Shape.split sep na.keys nb.keys).leafFor key = node.keys := by
      by_cases hkey : key < sep
      · exact ⟨a, na, by rw [hfind, if_pos hkey], hra, hna, if_pos hkey⟩
      · exact ⟨b, nb, by rw [hfind, if_neg hkey], hrb, hnb, if_neg hkey⟩
    obtain ⟨leaf, node, hleaf, hne, hheap, hkeys⟩ := hnode
    unfold Shape.Loses
    dsimp only
    rw [hkeys]
    constructor
    · rintro ⟨leaf', node', k, hleaf', -, hheap', hlen, hin, hout, hk⟩
      obtain rfl : leaf = leaf' := Option.some.inj (hleaf.symm.trans hleaf')
      obtain rfl : node = node' := Option.some.inj (hheap.symm.trans hheap')
      exact ⟨k, hlen, hin, hout, (hside k).mp (hk.trans hleaf.symm)⟩
    · rintro ⟨k, hlen, hin, hout, hk⟩
      exact ⟨leaf, node, k, hleaf, hne, hheap, hlen, hin, hout,
        ((hside k).mpr hk).trans hleaf⟩

/-! ## The characterisation -/

/-- After inserting `keys`, search answers for every key whether it was inserted. -/
def SearchExact (maxKeys : ℕ) (keys : List ℤ) : Prop :=
  ∃ t, BplusTree.build maxKeys keys = some t ∧
    ∀ k, t.searchKey k = some (decide (k ∈ keys))

/-- Search is exact when descents find exactly the inserted keys. -/
theorem searchExact_iff (maxKeys : ℕ) (keys : List ℤ) :
    SearchExact maxKeys keys ↔ ∀ k, k ∈ (Shape.build maxKeys keys).leafFor k ↔ k ∈ keys := by
  obtain ⟨t, ht, -, hrep, -⟩ := represents_build maxKeys keys
  constructor
  · rintro ⟨t', ht', hsearch⟩ k
    obtain rfl : t = t' := Option.some.inj (ht.symm.trans ht')
    have := hsearch k
    rw [represents_searchKey hrep] at this
    simpa using this
  · intro h
    refine ⟨t, ht, fun k => ?_⟩
    rw [represents_searchKey hrep]
    simp [h k]

/-- **Search is right along a run exactly when no call loses a key.**  For every `maxKeys` and
every sequence of insertions: after each of its calls `searchKey` answers for every key
whether it was inserted, if and only if no call inserts into a full leaf below the root in a
way that moves a key out of reach. -/
theorem search_exact_iff (maxKeys : ℕ) (keys : List ℤ) :
    (∀ done, done <+: keys → SearchExact maxKeys done) ↔
      ∀ done key t, done ++ [key] <+: keys → BplusTree.build maxKeys done = some t →
        ¬ LosesKey t key := by
  constructor
  · intro hexact done key t hpre ht hloses
    obtain ⟨t', ht', hmax, hrep, hsorted⟩ := represents_build maxKeys done
    obtain rfl : t = t' := Option.some.inj (ht.symm.trans ht')
    obtain ⟨k, hk⟩ := (losesKey_iff hrep key).mp hloses
    rw [hmax] at hk
    -- the lost key was inserted, so an exact search would still find it
    have hinserted : k ∈ done ++ [key] := by
      rcases Shape.mem_of_loses hk with rfl | hfound
      · simp
      · exact List.mem_append_left _ (mem_of_mem_leafFor hfound)
    have hfound := ((searchExact_iff maxKeys (done ++ [key])).mp (hexact _ hpre) k).mpr hinserted
    rw [shape_build_concat, Shape.mem_leafFor_insert hsorted] at hfound
    exact hfound.2 hk
  · intro hkeeps done hpre
    rw [searchExact_iff]
    induction done using List.reverseRecOn with
    | nil => exact fun k => Iff.rfl
    | append_singleton done key ih =>
      intro k
      obtain ⟨t, ht, hmax, hrep, hsorted⟩ := represents_build maxKeys done
      have hno : ¬ (Shape.build maxKeys done).Loses maxKeys key k := by
        intro hk
        exact hkeeps done key t hpre ht ((losesKey_iff hrep key).mpr ⟨k, by rwa [hmax]⟩)
      rw [shape_build_concat, Shape.mem_leafFor_insert hsorted,
        ih ((List.prefix_append done [key]).trans hpre) k]
      simp only [hno, not_false_iff, and_true, List.mem_append, List.mem_singleton]
      exact or_comm

/-- The calls of `main` up to `30`: the leaf with `10, 12, 20` overflows under the root, and
`20`, which was inserted, is no longer found. -/
theorem not_searchExact_main : ¬ SearchExact 3 [10, 20, 5, 6, 12, 30] := by
  rintro ⟨t, ht, hsearch⟩
  have hlost : (BplusTree.build 3 [10, 20, 5, 6, 12, 30]).bind (fun t => t.searchKey 20)
      = some false := by
    decide
  rw [ht, Option.bind_some, hsearch 20] at hlost
  exact absurd hlost (by decide)

end BPlusTree
