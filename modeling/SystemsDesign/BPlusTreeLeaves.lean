/-
# The leaf chain of the B+tree

A leaf that is split off from a leaf under the root is reachable along `next` only.  The chain that
`printLeaves` walks nevertheless has every key: an insertion replaces one leaf of the chain by the
pieces that it is split into (`pieces`), and changes nothing else of it.
-/
import SystemsDesign.BPlusTreeSearch
import SystemsDesign.PointerHeap

namespace BPlusTree

open BplusTree PointerHeap

/-! ## Chains of leaves -/

/-- The nodes of a tree in memory. -/
def memory (heap : List Node) : Heap Node := ⟨fun a => heap[a]?, heap.length⟩

/-- A leaf of the chain is given by its address and its keys. -/
def leafNode (leaf : ℕ × List ℤ) (next : Option ℕ) : Node :=
  { isLeaf := true, next := next, keys := leaf.2 }

/-- The leaves are linked one after the other along `next`, and the last one leads to `r`. -/
abbrev Linked (heap : List Node) (leaves : List (ℕ × List ℤ)) (r : Option ℕ) : Prop :=
  Seg Prod.fst leafNode (memory heap) leaves r

/-- What stands at the root: the only leaf, or a separator whose left child is the first leaf of
the chain and whose right child is some leaf of it. -/
inductive Top (t : BplusTree) (leaves : List (ℕ × List ℤ)) : Prop where
  | single {keys : List ℤ} (h : leaves = [(t.root, keys)])
  | split {sep : ℤ} {a b : ℕ}
      (hroot : t.heap[t.root]? = some { isLeaf := false, keys := [sep], children := [a, b] })
      (hfirst : first Prod.fst leaves none = some a) (hright : b ∈ leaves.map Prod.fst)

/-- The leaves of a tree, from the leftmost one along `next`. -/
structure Chained (t : BplusTree) (leaves : List (ℕ × List ℤ)) : Prop where
  linked : Linked t.heap leaves none
  nodup : (leaves.map Prod.fst).Nodup
  top : Top t leaves

variable {t : BplusTree} {leaves : List (ℕ × List ℤ)}

theorem Chained.split_at (h : Chained t leaves) {a : ℕ} (ha : a ∈ leaves.map Prod.fst) :
    ∃ es keys fs, leaves = es ++ (a, keys) :: fs ∧
      t.heap[a]? = some (leafNode (a, keys) (first Prod.fst fs none)) := by
  obtain ⟨⟨a', keys⟩, hmem, rfl⟩ := List.mem_map.mp ha
  obtain ⟨es, fs, rfl⟩ := List.append_of_mem hmem
  exact ⟨es, keys, fs, rfl, h.linked.cell⟩

theorem Chained.leafAt (h : Chained t leaves) {a : ℕ} (ha : a ∈ leaves.map Prod.fst) :
    ∃ keys, LeafAt t a keys := by
  obtain ⟨es, keys, fs, -, hcell⟩ := h.split_at ha
  exact ⟨keys, _, hcell, rfl, rfl⟩

theorem mem_of_first {a : ℕ} (h : first Prod.fst leaves none = some a) :
    a ∈ leaves.map Prod.fst := by
  cases leaves with
  | nil => cases h
  | cons e es =>
    obtain rfl := Option.some.inj h
    exact List.mem_cons_self

theorem Chained.findLeaf_mem (h : Chained t leaves) (key : ℤ) :
    ∃ a ∈ leaves.map Prod.fst, t.findLeaf key = some a := by
  cases h.top with
  | single hl =>
    have hmem : t.root ∈ leaves.map Prod.fst := by simp [hl]
    obtain ⟨keys, hleaf⟩ := h.leafAt hmem
    exact ⟨t.root, hmem, findLeaf_single hleaf key⟩
  | @split sep a b hroot hfirst hright =>
    have hleft := mem_of_first hfirst
    obtain ⟨left, ha⟩ := h.leafAt hleft
    obtain ⟨right, hb⟩ := h.leafAt hright
    refine ⟨_, ?_, findLeaf_split hroot ha hb key⟩
    split_ifs
    · exact hleft
    · exact hright

/-! ## Walking the chain -/

/-- The walk along `next` passes the leaves of the chain. -/
theorem leavesFrom_linked {heap : List Node} (h : Linked heap leaves none) {fuel : ℕ}
    (hfuel : leaves.length ≤ fuel) :
    leavesFrom heap fuel (first Prod.fst leaves none) = some (leaves.map Prod.snd) := by
  induction leaves generalizing fuel with
  | nil => cases fuel <;> rfl
  | cons e es ih =>
    obtain ⟨hcell, hes⟩ := h
    obtain ⟨fuel, rfl⟩ : ∃ n, fuel = n + 1 := ⟨fuel - 1, by simp at hfuel; omega⟩
    have hnode : heap[e.1]? = some (leafNode e (first Prod.fst es none)) := hcell
    rw [first, leavesFrom, hnode, Option.bind_some]
    dsimp only [leafNode]
    rw [ih hes (by simpa using hfuel)]
    rfl

theorem Chained.addr_lt (h : Chained t leaves) {a : ℕ} (ha : a ∈ leaves.map Prod.fst) :
    a < t.heap.length := by
  obtain ⟨es, keys, fs, -, hcell⟩ := h.split_at ha
  exact (List.getElem?_eq_some_iff.mp hcell).1

theorem Chained.length_le (h : Chained t leaves) : leaves.length ≤ t.heap.length := by
  have hsub : (leaves.map Prod.fst).toFinset ⊆ Finset.range t.heap.length := by
    intro a ha
    exact Finset.mem_range.mpr (h.addr_lt (List.mem_toFinset.mp ha))
  have hcard := Finset.card_le_card hsub
  rwa [List.toFinset_card_of_nodup h.nodup, List.length_map, Finset.card_range] at hcard

theorem leftmostFrom_leaf {heap : List Node} {a : ℕ} {node : Node} (ha : heap[a]? = some node)
    (hleaf : node.isLeaf = true) (fuel : ℕ) : leftmostFrom heap (fuel + 1) a = some a := by
  simp [leftmostFrom, ha, hleaf]

theorem Chained.leftmost (h : Chained t leaves) :
    leftmostFrom t.heap t.heap.length t.root = first Prod.fst leaves none := by
  cases h.top with
  | single hl =>
    have hmem : t.root ∈ leaves.map Prod.fst := by simp [hl]
    have hlt := h.addr_lt hmem
    obtain ⟨keys, node, hnode, hleaf, -⟩ := h.leafAt hmem
    obtain ⟨fuel, hfuel⟩ : ∃ fuel, t.heap.length = fuel + 1 := ⟨t.heap.length - 1, by omega⟩
    rw [hfuel, leftmostFrom_leaf hnode hleaf, hl]
    rfl
  | @split sep a b hroot hfirst hright =>
    obtain ⟨keys, ha⟩ := h.leafAt (mem_of_first hfirst)
    have hne := ne_root_of_leafAt hroot rfl ha
    obtain ⟨node, hnode, hleaf, -⟩ := ha
    -- root and leaf are two nodes
    obtain ⟨fuel, hfuel⟩ : ∃ fuel, t.heap.length = fuel + 2 := by
      obtain ⟨h1, -⟩ := List.getElem?_eq_some_iff.mp hroot
      obtain ⟨h2, -⟩ := List.getElem?_eq_some_iff.mp hnode
      exact ⟨t.heap.length - 2, by omega⟩
    rw [hfuel, leftmostFrom, hroot, Option.bind_some, if_neg Bool.false_ne_true, hfirst]
    exact leftmostFrom_leaf hnode hleaf fuel

theorem Chained.exists_first (h : Chained t leaves) : ∃ a, first Prod.fst leaves none = some a := by
  cases h.top with
  | single hl => exact ⟨t.root, by rw [hl]; rfl⟩
  | split _ hfirst _ => exact ⟨_, hfirst⟩

/-- **`printLeaves` prints the keys of the chain.** -/
theorem Chained.printLeaves (h : Chained t leaves) :
    t.printLeaves = some (leaves.map Prod.snd) := by
  obtain ⟨a, ha⟩ := h.exists_first
  have hwalk := leavesFrom_linked h.linked h.length_le
  rw [ha] at hwalk
  rw [BplusTree.printLeaves, h.leftmost, ha, Option.bind_some, hwalk]

/-! ## Insertion -/

/-- What becomes of a leaf with these keys: it stays, or is split in two when it overflows. -/
def pieces (maxKeys fresh a : ℕ) (keys : List ℤ) : List (ℕ × List ℤ) :=
  if keys.length > maxKeys then
    [(a, keys.take (keys.length / 2)), (fresh, keys.drop (keys.length / 2))]
  else [(a, keys)]

theorem first_pieces (maxKeys fresh a : ℕ) (keys : List ℤ) (r : Option ℕ) :
    first Prod.fst (pieces maxKeys fresh a keys) r = some a := by
  rw [pieces]
  split_ifs <;> rfl

theorem map_fst_pieces (maxKeys fresh a : ℕ) (keys : List ℤ) :
    (pieces maxKeys fresh a keys).map Prod.fst =
      if keys.length > maxKeys then [a, fresh] else [a] := by
  rw [pieces]
  split_ifs <;> rfl

/-- A leaf is replaced by its pieces: the leaves keep their addresses. -/
theorem mem_map_replace {es fs : List (ℕ × List ℤ)} {maxKeys fresh a b : ℕ} {keys keys' : List ℤ}
    (hb : b ∈ (es ++ (a, keys) :: fs).map Prod.fst) :
    b ∈ (es ++ (pieces maxKeys fresh a keys' ++ fs)).map Prod.fst := by
  have hmem : a ∈ (pieces maxKeys fresh a keys').map Prod.fst := by
    rw [map_fst_pieces]
    split_ifs <;> simp
  rw [List.map_append, List.map_cons, List.mem_append, List.mem_cons] at hb
  rw [List.map_append, List.map_append, List.mem_append, List.mem_append]
  rcases hb with hb | rfl | hb
  · exact Or.inl hb
  · exact Or.inr (Or.inl hmem)
  · exact Or.inr (Or.inr hb)

/-- A leaf is replaced by its pieces: the addresses stay distinct if the new one is unused. -/
theorem nodup_replace {es fs : List (ℕ × List ℤ)} {maxKeys fresh a : ℕ} {keys keys' : List ℤ}
    (hnodup : ((es ++ (a, keys) :: fs).map Prod.fst).Nodup)
    (hfresh : fresh ∉ (es ++ (a, keys) :: fs).map Prod.fst) :
    ((es ++ (pieces maxKeys fresh a keys' ++ fs)).map Prod.fst).Nodup := by
  have hperm : ((es ++ (pieces maxKeys fresh a keys' ++ fs)).map Prod.fst).Perm
      ((if keys'.length > maxKeys then [a, fresh] else [a]) ++ (es ++ fs).map Prod.fst) := by
    rw [← map_fst_pieces]
    simp only [List.map_append]
    exact List.perm_append_comm_assoc _ _ _
  have hmiddle : ((es ++ (a, keys) :: fs).map Prod.fst).Perm (a :: (es ++ fs).map Prod.fst) := by
    rw [List.map_append, List.map_cons, List.map_append]
    exact List.perm_middle
  rw [hmiddle.nodup_iff] at hnodup
  rw [hmiddle.mem_iff] at hfresh
  rw [hperm.nodup_iff]
  split_ifs
  · have hswap := List.Perm.swap fresh a ((es ++ fs).map Prod.fst)
    exact hswap.nodup_iff.mpr (List.nodup_cons.mpr ⟨hfresh, hnodup⟩)
  · exact hnodup

theorem getElem?_set_append_of_ne {heap : List Node} {a b : ℕ} (x : Node) (more : List Node)
    (hb : b ≠ a) (hlt : b < heap.length) : (heap.set a x ++ more)[b]? = heap[b]? := by
  rw [List.getElem?_append_left (by rwa [List.length_set]), List.getElem?_set_ne hb.symm]

/-- The first node that is allocated comes after the others. -/
theorem getElem?_set_append_length (heap : List Node) (a : ℕ) (x y : Node) (more : List Node) :
    (heap.set a x ++ y :: more)[heap.length]? = some y := by
  rw [List.getElem?_append_right (by rw [List.length_set]), List.length_set, Nat.sub_self]
  rfl

/-- **`splitLeaf`.**  The leaf becomes two, and the other nodes stay; the root changes when it is
the leaf that is split. -/
theorem splitLeaf_linked {a : ℕ} {keys : List ℤ} {next : Option ℕ}
    (hcell : t.heap[a]? = some (leafNode (a, keys) next)) (hne : keys ≠ []) :
    ∃ t', t.splitLeaf a = some t' ∧ t'.maxKeysPerNode = t.maxKeysPerNode ∧
      Linked t'.heap [(a, keys.take (keys.length / 2)),
        (t.heap.length, keys.drop (keys.length / 2))] next ∧
      (∀ b, b ≠ a → b < t.heap.length → t'.heap[b]? = t.heap[b]?) ∧
      (t.root = a → ∃ sep, t'.heap[t'.root]? =
        some { isLeaf := false, keys := [sep], children := [a, t.heap.length] }) ∧
      (t.root ≠ a → t'.root = t.root) := by
  by_cases hroot : t.root = a
  · obtain ⟨sep, rest, hdrop⟩ : ∃ sep rest, keys.drop (keys.length / 2) = sep :: rest := by
      refine List.exists_cons_of_length_pos ?_
      have hpos := List.length_pos_iff.mpr hne
      rw [List.length_drop]
      omega
    subst hroot
    rw [splitLeaf_root hcell hdrop, List.append_assoc]
    refine ⟨_, rfl, rfl, ⟨getElem?_set_append_self hcell, ?_, trivial⟩,
      fun b hb hlt => getElem?_set_append_of_ne _ _ hb hlt, fun _ => ⟨sep, ?_⟩,
      fun h => absurd rfl h⟩
    · rw [hdrop]
      exact getElem?_set_append_length ..
    · simp
  · rw [splitLeaf_under_root hcell hroot]
    exact ⟨_, rfl, rfl, ⟨getElem?_set_append_self hcell, getElem?_set_append_length .., trivial⟩,
      fun b hb hlt => getElem?_set_append_of_ne _ _ hb hlt, fun h => absurd h hroot, fun _ => rfl⟩

/-- **`insertKey`, on the leaf that the descent ends in.**  The leaf becomes its pieces and the
other nodes stay; the root changes when it is the leaf that overflows. -/
theorem insertKey_pieces {key : ℤ} {a : ℕ} {keys : List ℤ} {next : Option ℕ}
    (hfind : t.findLeaf key = some a) (hcell : t.heap[a]? = some (leafNode (a, keys) next)) :
    ∃ t', t.insertKey key = some t' ∧ t'.maxKeysPerNode = t.maxKeysPerNode ∧
      Linked t'.heap (pieces t.maxKeysPerNode t.heap.length a (insertSorted keys key)) next ∧
      (∀ b, b ≠ a → b < t.heap.length → t'.heap[b]? = t.heap[b]?) ∧
      (t.root = a → (insertSorted keys key).length > t.maxKeysPerNode →
        ∃ sep, t'.heap[t'.root]? =
          some { isLeaf := false, keys := [sep], children := [a, t.heap.length] }) ∧
      (t.root ≠ a ∨ (insertSorted keys key).length ≤ t.maxKeysPerNode → t'.root = t.root) := by
  obtain ⟨hlt, -⟩ := List.getElem?_eq_some_iff.mp hcell
  have hpos := length_insertSorted keys key
  set keys' := insertSorted keys key
  set t₁ : BplusTree := { t with heap := t.heap.set a (leafNode (a, keys') next) }
  have hlength : t₁.heap.length = t.heap.length := List.length_set
  have hinsert : t.insertKey key =
      if keys'.length > t.maxKeysPerNode then t₁.splitLeaf a else some t₁ := by
    rw [insertKey, hfind, Option.bind_some, hcell, Option.bind_some]
    rfl
  have hset : t₁.heap[a]? = some (leafNode (a, keys') next) := List.getElem?_set_self hlt
  have hother : ∀ b, b ≠ a → t₁.heap[b]? = t.heap[b]? :=
    fun b hb => List.getElem?_set_ne hb.symm
  by_cases hlen : keys'.length > t.maxKeysPerNode
  · have hne : keys' ≠ [] := by
      intro hnil
      rw [hnil] at hpos
      cases hpos
    obtain ⟨t', hsplit, hmax, hlinked, hsame, hroot, hunder⟩ := splitLeaf_linked hset hne
    rw [hlength] at hlinked hsame hroot
    rw [hinsert, if_pos hlen, pieces, if_pos hlen]
    refine ⟨t', hsplit, hmax, hlinked, fun b hb hblt => (hsame b hb hblt).trans (hother b hb),
      fun hr _ => hroot hr, fun h => hunder (h.resolve_right (by omega))⟩
  · rw [hinsert, if_neg hlen, pieces, if_neg hlen]
    exact ⟨t₁, rfl, rfl, ⟨hset, trivial⟩, fun b hb _ => hother b hb, fun _ h => absurd h hlen,
      fun _ => rfl⟩

/-- The root stands over the chain after a leaf has become its pieces. -/
theorem Top.replace {es fs : List (ℕ × List ℤ)} {a : ℕ} {keys keys' : List ℤ} {next : Option ℕ}
    (h : Top t (es ++ (a, keys) :: fs)) (hcell : t.heap[a]? = some (leafNode (a, keys) next))
    {t' : BplusTree} (hother : ∀ b, b ≠ a → b < t.heap.length → t'.heap[b]? = t.heap[b]?)
    (hsplit : t.root = a → keys'.length > t.maxKeysPerNode → ∃ sep, t'.heap[t'.root]? =
      some { isLeaf := false, keys := [sep], children := [a, t.heap.length] })
    (hroot : t.root ≠ a ∨ keys'.length ≤ t.maxKeysPerNode → t'.root = t.root) :
    Top t' (es ++ (pieces t.maxKeysPerNode t.heap.length a keys' ++ fs)) := by
  cases h with
  | single hl =>
    obtain ⟨rfl, heq, rfl⟩ : es = [] ∧ (a, keys) = (t.root, _) ∧ fs = [] := by
      cases es with
      | nil =>
        obtain ⟨heq, hfs⟩ := List.cons.inj hl
        exact ⟨rfl, heq, hfs⟩
      | cons e es =>
        have hlen := congrArg List.length hl
        simp at hlen
    obtain ⟨rfl, -⟩ := Prod.mk.inj heq
    rw [List.nil_append, List.append_nil]
    by_cases hlen : keys'.length > t.maxKeysPerNode
    · obtain ⟨sep, hsep⟩ := hsplit rfl hlen
      refine .split hsep (first_pieces ..) ?_
      rw [map_fst_pieces, if_pos hlen]
      exact List.mem_cons_of_mem _ List.mem_cons_self
    · refine .single (?_ : _ = [(t'.root, keys')])
      rw [hroot (Or.inr (not_lt.mp hlen))]
      exact if_neg hlen
  | @split sep left right hsep hfirst hright =>
    have hne : t.root ≠ a := ne_root_of_leafAt hsep rfl ⟨_, hcell, rfl, rfl⟩
    obtain ⟨hlt, -⟩ := List.getElem?_eq_some_iff.mp hsep
    have hsep' := (hother t.root hne hlt).trans hsep
    rw [← hroot (Or.inl hne)] at hsep'
    refine .split hsep' ?_ (mem_map_replace hright)
    rw [first_append, first_append, first_pieces]
    rw [first_append] at hfirst
    exact hfirst

/-- **An insertion into the chain**: one leaf of it becomes its pieces. -/
theorem Chained.insertKey (h : Chained t leaves) (key : ℤ) :
    ∃ t' es a keys fs, leaves = es ++ (a, keys) :: fs ∧ t.insertKey key = some t' ∧
      t'.maxKeysPerNode = t.maxKeysPerNode ∧
      Chained t' (es ++
        (pieces t.maxKeysPerNode t.heap.length a (insertSorted keys key) ++ fs)) := by
  obtain ⟨a, ha, hfind⟩ := h.findLeaf_mem key
  obtain ⟨es, keys, fs, rfl, hcell⟩ := h.split_at ha
  obtain ⟨t', hinsert, hmax, hlinked, hother, hsplit, hroot⟩ := insertKey_pieces hfind hcell
  refine ⟨t', es, a, keys, fs, rfl, hinsert, hmax,
    h.linked.replace (fun e he => ?_) hlinked (first_pieces ..),
    nodup_replace h.nodup fun hmem => (h.addr_lt hmem).ne rfl,
    h.top.replace hcell hother hsplit hroot⟩
  -- the other leaves of the chain
  have hmem : e ∈ es ++ (a, keys) :: fs :=
    List.perm_middle.mem_iff.mpr (List.mem_cons_of_mem _ he)
  have hne : e.1 ≠ a := by
    intro heq
    have hnodup := h.nodup
    rw [(List.perm_middle.map Prod.fst).nodup_iff, List.map_cons, List.nodup_cons] at hnodup
    exact hnodup.1 (List.mem_map.mpr ⟨e, he, heq⟩)
  exact hother e.1 hne (h.addr_lt (List.mem_map_of_mem hmem))

/-! ## The keys of the chain -/

/-- The chain holds the inserted keys, in sorted leaves that do not overflow. -/
structure Holds (maxKeys : ℕ) (inserted : List ℤ) (leaves : List (ℕ × List ℤ)) : Prop where
  perm : (leaves.flatMap Prod.snd).Perm inserted
  sorted : ∀ leaf ∈ leaves, leaf.2.Pairwise (· ≤ ·)
  bounded : ∀ leaf ∈ leaves, leaf.2.length ≤ maxKeys

theorem flatMap_pieces (maxKeys fresh a : ℕ) (keys : List ℤ) :
    (pieces maxKeys fresh a keys).flatMap Prod.snd = keys := by
  rw [pieces]
  split_ifs
  · simp
  · simp

/-- The pieces of a sorted leaf are sorted, and none of them overflows. -/
theorem pieces_spec {maxKeys : ℕ} (hmax : 1 ≤ maxKeys) (fresh a : ℕ) {keys : List ℤ}
    (hsorted : keys.Pairwise (· ≤ ·)) (hlen : keys.length ≤ maxKeys + 1) :
    ∀ leaf ∈ pieces maxKeys fresh a keys,
      leaf.2.Pairwise (· ≤ ·) ∧ leaf.2.length ≤ maxKeys := by
  intro leaf hleaf
  rw [pieces] at hleaf
  split_ifs at hleaf with hover
  · rcases List.mem_cons.mp hleaf with rfl | hleaf
    · refine ⟨hsorted.sublist (List.take_sublist _ _), ?_⟩
      rw [List.length_take]
      omega
    · obtain rfl := List.mem_singleton.mp hleaf
      refine ⟨hsorted.sublist (List.drop_sublist _ _), ?_⟩
      rw [List.length_drop]
      omega
  · obtain rfl := List.mem_singleton.mp hleaf
    exact ⟨hsorted, not_lt.mp hover⟩

theorem Holds.insertKey {maxKeys : ℕ} (hmax : 1 ≤ maxKeys) {inserted keys : List ℤ}
    {es fs : List (ℕ × List ℤ)} {a : ℕ} (h : Holds maxKeys inserted (es ++ (a, keys) :: fs))
    (key : ℤ) (fresh : ℕ) :
    Holds maxKeys (inserted ++ [key])
      (es ++ (pieces maxKeys fresh a (insertSorted keys key) ++ fs)) := by
  have hmem : (a, keys) ∈ es ++ (a, keys) :: fs := by simp
  have hlen : (insertSorted keys key).length ≤ maxKeys + 1 := by
    rw [length_insertSorted]
    exact Nat.succ_le_succ (h.bounded _ hmem)
  have hpieces := pieces_spec hmax fresh a (insertSorted_pairwise (h.sorted _ hmem) key) hlen
  -- the other leaves are as they were
  have hleaf : ∀ leaf ∈ es ++ (pieces maxKeys fresh a (insertSorted keys key) ++ fs),
      leaf.2.Pairwise (· ≤ ·) ∧ leaf.2.length ≤ maxKeys := by
    intro leaf hl
    rw [List.mem_append, List.mem_append] at hl
    rcases hl with hl | hl | hl
    · exact ⟨h.sorted _ (by simp [hl]), h.bounded _ (by simp [hl])⟩
    · exact hpieces leaf hl
    · exact ⟨h.sorted _ (by simp [hl]), h.bounded _ (by simp [hl])⟩
  refine ⟨?_, fun leaf hl => (hleaf leaf hl).1, fun leaf hl => (hleaf leaf hl).2⟩
  have hperm := h.perm
  rw [List.flatMap_append, List.flatMap_cons] at hperm
  rw [List.flatMap_append, List.flatMap_append, flatMap_pieces]
  have hkeys : (insertSorted keys key).Perm (key :: keys) := by
    rw [insertSorted_eq]
    exact List.perm_orderedInsert _ key keys
  calc List.Perm (es.flatMap Prod.snd ++ (insertSorted keys key ++ fs.flatMap Prod.snd))
        (es.flatMap Prod.snd ++ (key :: keys ++ fs.flatMap Prod.snd)) :=
        (hkeys.append_right _).append_left _
    List.Perm _ (key :: (es.flatMap Prod.snd ++ (keys ++ fs.flatMap Prod.snd))) :=
        List.perm_middle
    List.Perm _ (key :: inserted) := hperm.cons key
    List.Perm _ (inserted ++ [key]) := (List.perm_append_singleton key inserted).symm

/-! ## Runs -/

theorem chained_build {maxKeys : ℕ} (hmax : 1 ≤ maxKeys) (keys : List ℤ) :
    ∃ t leaves, BplusTree.build maxKeys keys = some t ∧ t.maxKeysPerNode = maxKeys ∧
      Chained t leaves ∧ Holds maxKeys keys leaves := by
  induction keys using List.reverseRecOn with
  | nil =>
    refine ⟨BplusTree.new maxKeys, [(0, [])], rfl, rfl, ⟨⟨rfl, trivial⟩, by simp, .single rfl⟩, ?_⟩
    exact ⟨by simp, by simp, by simp⟩
  | append_singleton keys key ih =>
    obtain ⟨t, leaves, hbuild, rfl, hchained, hholds⟩ := ih
    obtain ⟨t', es, a, ks, fs, rfl, hinsert, hmax', hchained'⟩ := hchained.insertKey key
    refine ⟨t', _, ?_, hmax', hchained', hholds.insertKey hmax key _⟩
    rw [build_concat, hbuild, Option.bind_some, hinsert]

/-- **The leaf chain keeps every key.**  After any insertions into a tree with at least one key per
node, `printLeaves` ends; its leaves have every key as often as it was inserted and no other; they
are sorted, and none of them has more than `maxKeys` keys. -/
theorem printLeaves_exact (maxKeys : ℕ) (hmax : 1 ≤ maxKeys) (keys : List ℤ) :
    ∃ t leaves, BplusTree.build maxKeys keys = some t ∧ t.printLeaves = some leaves ∧
      (∀ k, leaves.flatten.count k = keys.count k) ∧
      ∀ leaf ∈ leaves, leaf.Pairwise (· ≤ ·) ∧ leaf.length ≤ maxKeys := by
  obtain ⟨t, leaves, hbuild, -, hchained, hholds⟩ := chained_build hmax keys
  refine ⟨t, _, hbuild, hchained.printLeaves, fun k => ?_, fun leaf hleaf => ?_⟩
  · rw [← List.flatMap_def]
    exact hholds.perm.count_eq k
  · obtain ⟨e, he, rfl⟩ := List.mem_map.mp hleaf
    exact ⟨hholds.sorted e he, hholds.bounded e he⟩

theorem printLeaves_exact_main :
    ∃ t leaves, BplusTree.build 3 [10, 20, 5, 6, 12, 30, 7, 17] = some t ∧
      t.printLeaves = some leaves ∧
      (∀ k, leaves.flatten.count k = [10, 20, 5, 6, 12, 30, 7, 17].count k) ∧
      ∀ leaf ∈ leaves, leaf.Pairwise (· ≤ ·) ∧ leaf.length ≤ 3 :=
  printLeaves_exact 3 (by decide) [10, 20, 5, 6, 12, 30, 7, 17]

/-- What `main` prints. -/
example : (BplusTree.build 3 [10, 20, 5, 6, 12, 30, 7, 17]).bind BplusTree.printLeaves =
    some [[5, 6, 7], [10, 12, 17], [20, 30]] := by
  decide

end BPlusTree
