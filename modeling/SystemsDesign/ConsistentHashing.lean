/-
# Consistent hashing

Model of `distributed/ConsistentHashing.cpp`: every node stands at three positions of a ring, and a
user belongs to the node at the first position clockwise from the hash of the user.  The hash
function is a parameter.

`Owns` says which position of a ring serves a point, for any map from positions.  When positions
are added, a point is served from where it was or from a new position (`Owns.of_extends`).
-/
import SystemsDesign.OrderedMap

namespace ConsistentHashes

/-! ## Rings -/

section Ring

variable {κ ν : Type*} [LinearOrder κ]

/-- The position `k` serves the point `p`: it is the smallest position from `p` on, or the smallest
one of all if there is none from `p` on. -/
def Owns (ring : κ → Option ν) (p k : κ) : Prop :=
  (ring k).isSome ∧
    ((p ≤ k ∧ ∀ k', (ring k').isSome → p ≤ k' → k ≤ k') ∨
      ((∀ k', (ring k').isSome → k' < p) ∧ ∀ k', (ring k').isSome → k ≤ k'))

variable {ring ring' : κ → Option ν} {p k k' : κ}

theorem Owns.unique (h : Owns ring p k) (h' : Owns ring p k') : k = k' := by
  obtain ⟨hk, hcases⟩ := h
  obtain ⟨hk', hcases'⟩ := h'
  rcases hcases with ⟨hp, hleast⟩ | ⟨hnone, hleast⟩ <;>
    rcases hcases' with ⟨hp', hleast'⟩ | ⟨hnone', hleast'⟩
  · exact le_antisymm (hleast k' hk' hp') (hleast' k hk hp)
  · exact absurd hp (not_le.mpr (hnone' k hk))
  · exact absurd hp' (not_le.mpr (hnone k' hk'))
  · exact le_antisymm (hleast k' hk') (hleast' k hk)

theorem Owns.of_extends (h : Owns ring' p k) (hk : (ring k).isSome)
    (hsub : ∀ k', (ring k').isSome → (ring' k').isSome) : Owns ring p k := by
  refine ⟨hk, h.2.imp (fun ⟨hp, hleast⟩ => ⟨hp, ?_⟩) fun ⟨hnone, hleast⟩ => ⟨?_, ?_⟩⟩
  · exact fun k' hk' => hleast k' (hsub k' hk')
  · exact fun k' hk' => hnone k' (hsub k' hk')
  · exact fun k' hk' => hleast k' (hsub k' hk')

end Ring

/-! ## The class -/

/-- `VIRTUAL_NODE`. -/
def virtualNode : ℕ := 3

/-- `ConsistentHashing`: the ring of hashed positions. -/
structure ConsistentHashing where
  ring : OrderedMap ℕ String := ∅

namespace ConsistentHashing

/-- The name of a virtual node. -/
def vnode (node : String) (i : ℕ) : String := node ++ "#" ++ toString i

/-- `addNode`, with `hash` for `std::hash<string>`. -/
def addNode (hash : String → ℕ) (ch : ConsistentHashing) (node : String) : ConsistentHashing where
  ring :=
    (List.range virtualNode).foldl (fun ring i => ring.insert (hash (vnode node i)) node) ch.ring

/-- `getNode`; to read the entry behind the last one of an empty ring is undefined. -/
def getNode (hash : String → ℕ) (ch : ConsistentHashing) (user : String) : Option String :=
  match ch.ring.toList.find? fun entry => hash user ≤ entry.1 with
  | some entry => some entry.2
  -- wrap around the hash ring
  | none => ch.ring.toList.head?.map Prod.snd

/-- The ring after a sequence of `addNode` calls. -/
def build (hash : String → ℕ) (nodes : List String) : ConsistentHashing :=
  nodes.foldl (addNode hash) {}

end ConsistentHashing

open ConsistentHashing

variable {hash : String → ℕ} {ch : ConsistentHashing}

/-! ## The ring -/

/-- The positions that a node is put at. -/
def positions (hash : String → ℕ) (node : String) : List ℕ :=
  (List.range virtualNode).map fun i => hash (vnode node i)

/-- The ring after some of the virtual nodes have been put on it. -/
theorem lookup_foldl_insert (node : String) (ps : List ℕ) (ring : OrderedMap ℕ String) (k : ℕ) :
    OrderedMap.lookup (ps.foldl (fun ring p => ring.insert p node) ring) k =
      if k ∈ ps then some node else OrderedMap.lookup ring k := by
  induction ps generalizing ring with
  | nil => simp
  | cons p ps ih =>
    rw [List.foldl_cons, ih, OrderedMap.lookup_insert]
    by_cases hk : k = p
    · subst hk
      simp
    · simp [hk]

/-- **`addNode`** puts the node at its positions and leaves the others. -/
theorem lookup_addNode (node : String) (k : ℕ) :
    OrderedMap.lookup (ch.addNode hash node).ring k =
      if k ∈ positions hash node then some node else OrderedMap.lookup ch.ring k := by
  rw [← lookup_foldl_insert, positions, List.foldl_map]
  rfl

theorem exists_lookup_build {nodes : List String} (hne : nodes ≠ []) :
    ∃ k, (OrderedMap.lookup (build hash nodes).ring k).isSome := by
  obtain ⟨nodes, node, rfl⟩ := (List.eq_nil_or_concat nodes).resolve_left hne
  refine ⟨hash (vnode node 0), ?_⟩
  rw [List.concat_eq_append, build, List.foldl_concat, lookup_addNode, if_pos]
  · rfl
  · exact List.mem_map.mpr ⟨0, by simp [virtualNode], rfl⟩

/-- **`getNode`** returns the node at the position that serves the user. -/
theorem getNode_owner (hash : String → ℕ) (user : String)
    (hne : ∃ k, (OrderedMap.lookup ch.ring k).isSome) :
    ∃ k node, Owns (OrderedMap.lookup ch.ring) (hash user) k ∧
      OrderedMap.lookup ch.ring k = some node ∧ ch.getNode hash user = some node := by
  rw [getNode]
  cases hfind : ch.ring.toList.find? fun entry => hash user ≤ entry.1 with
  | some entry =>
    obtain ⟨k, node⟩ := entry
    obtain ⟨hk, hp, hleast⟩ := OrderedMap.find?_toList_eq_some hfind
    have hlook : OrderedMap.lookup ch.ring k = some node := hk
    have hsome : (OrderedMap.lookup ch.ring k).isSome := by rw [hlook]; rfl
    refine ⟨k, node, ⟨hsome, Or.inl ⟨by simpa using hp, fun k' hk' hp' => ?_⟩⟩, hlook, rfl⟩
    obtain ⟨v', hv'⟩ := Option.isSome_iff_exists.mp hk'
    exact hleast k' v' hv' (by simpa using hp')
  | none =>
    have hbelow := OrderedMap.find?_toList_eq_none.mp hfind
    cases hhead : ch.ring.toList.head? with
    | none =>
      obtain ⟨k, hk⟩ := hne
      obtain ⟨v, hv⟩ := Option.isSome_iff_exists.mp hk
      have hmem : (k, v) ∈ ch.ring.toList := OrderedMap.mem_toList_iff.mpr hv
      rw [List.head?_eq_none_iff.mp hhead] at hmem
      cases hmem
    | some entry =>
      obtain ⟨k, node⟩ := entry
      obtain ⟨hk, hleast⟩ := OrderedMap.head?_toList_eq_some hhead
      have hlook : OrderedMap.lookup ch.ring k = some node := hk
      have hsome : (OrderedMap.lookup ch.ring k).isSome := by rw [hlook]; rfl
      refine ⟨k, node, ⟨hsome, Or.inr ⟨fun k' hk' => ?_, fun k' hk' => ?_⟩⟩, hlook, rfl⟩
      · obtain ⟨v', hv'⟩ := Option.isSome_iff_exists.mp hk'
        simpa using hbelow k' v' hv'
      · obtain ⟨v', hv'⟩ := Option.isSome_iff_exists.mp hk'
        exact hleast k' v' hv'

theorem getNode_addNode (user node : String)
    (hne : ∃ k, (OrderedMap.lookup ch.ring k).isSome) :
    (ch.addNode hash node).getNode hash user = ch.getNode hash user ∨
      (ch.addNode hash node).getNode hash user = some node := by
  have hsub : ∀ k, (OrderedMap.lookup ch.ring k).isSome →
      (OrderedMap.lookup (ch.addNode hash node).ring k).isSome := by
    intro k hk
    rw [lookup_addNode]
    split_ifs
    · rfl
    · exact hk
  obtain ⟨k, owner, howns, hlook, hget⟩ := getNode_owner hash user hne
  obtain ⟨k', owner', howns', hlook', hget'⟩ := getNode_owner hash user (hne.imp hsub)
  rw [hget, hget']
  rw [lookup_addNode] at hlook'
  split_ifs at hlook' with hmem
  · exact Or.inr hlook'.symm
  · -- the position was there before, so it was the one that served the user
    have hold := howns'.of_extends (by rw [hlook']; rfl) hsub
    rw [howns.unique hold, hlook'] at hlook
    exact Or.inl hlook

/-- **Consistent hashing moves users to the new node only.**  For every hash function, on a ring
built by at least one `addNode`, `getNode` returns the node at the position that serves the user:
the smallest one from the hash of the user on, or the smallest of all.  After `addNode(node)` it
returns what it returned before or `node`. -/
theorem getNode_moves_to_new_node (hash : String → ℕ) (nodes : List String) (hne : nodes ≠ [])
    (node user : String) :
    (∃ k owner, Owns (OrderedMap.lookup (build hash nodes).ring) (hash user) k ∧
      OrderedMap.lookup (build hash nodes).ring k = some owner ∧
      (build hash nodes).getNode hash user = some owner) ∧
    (((build hash nodes).addNode hash node).getNode hash user
        = (build hash nodes).getNode hash user ∨
      ((build hash nodes).addNode hash node).getNode hash user = some node) := by
  have hring : ∃ k, (OrderedMap.lookup (build hash nodes).ring k).isSome := exists_lookup_build hne
  exact ⟨getNode_owner hash user hring, getNode_addNode user node hring⟩

theorem getNode_moves_to_new_node_two :
    ((build String.length ["NodeA", "B"]).addNode String.length "Node").getNode String.length "User"
        = (build String.length ["NodeA", "B"]).getNode String.length "User" ∨
      ((build String.length ["NodeA", "B"]).addNode String.length "Node").getNode String.length
        "User" = some "Node" :=
  (getNode_moves_to_new_node String.length ["NodeA", "B"] (by decide) "Node" "User").2

end ConsistentHashes
