/-
# The B+tree (`storage/B+tree.cpp`)

Nodes live in a heap that only grows; a pointer is the index of the node.  `none` stands
for a run that dereferences a pointer or an index that does not exist, or whose descent
never reaches a leaf.

`splitLeaf` links the new leaf into the chain of leaves, and gives it a parent only when the
leaf that overflowed was the root.
-/
import Mathlib

namespace BPlusTree

/-! ## The data structure -/

/-- `BplusTree::Node`. -/
structure Node where
  isLeaf : Bool
  next : Option ℕ := none
  keys : List ℤ := []
  children : List ℕ := []
  deriving DecidableEq, Repr

/-- `class BplusTree`: the nodes allocated so far, the root and `MAX_KEYS_PER_NODE`. -/
structure BplusTree where
  heap : List Node
  root : ℕ
  maxKeysPerNode : ℕ
  deriving DecidableEq, Repr

namespace BplusTree

/-- The constructor `BplusTree(max_keys)`: the root is an empty leaf. -/
def new (maxKeys : ℕ) : BplusTree :=
  { heap := [{ isLeaf := true }], root := 0, maxKeysPerNode := maxKeys }

/-- The child to follow: the loop of `findLeaf` stops at the first separator above the key. -/
def childIndex (keys : List ℤ) (key : ℤ) : ℕ := (keys.takeWhile fun k => k ≤ key).length

/-- The descent of `findLeaf`, over at most `fuel` nodes. -/
def findLeafFrom (heap : List Node) (key : ℤ) : ℕ → ℕ → Option ℕ
  | 0, _ => none
  | fuel + 1, curr =>
    heap[curr]?.bind fun node =>
      if node.isLeaf then some curr
      else node.children[childIndex node.keys key]?.bind (findLeafFrom heap key fuel)

/-- `findLeaf`.  A descent that visits more nodes than there are never ends. -/
def findLeaf (t : BplusTree) (key : ℤ) : Option ℕ :=
  findLeafFrom t.heap key t.heap.length t.root

/-- `searchKey`. -/
def searchKey (t : BplusTree) (key : ℤ) : Option Bool :=
  (t.findLeaf key).bind fun leaf => t.heap[leaf]?.map fun node => decide (key ∈ node.keys)

/-- The keys of a leaf after `leaf->keys.insert(it, key)`, where `it` is the first position
that does not hold a smaller key. -/
def insertSorted (keys : List ℤ) (key : ℤ) : List ℤ :=
  (keys.takeWhile fun k => k < key) ++ key :: (keys.dropWhile fun k => k < key)

/-- `splitLeaf`. -/
def splitLeaf (t : BplusTree) (leaf : ℕ) : Option BplusTree :=
  t.heap[leaf]?.bind fun node =>
    let mid := node.keys.length / 2
    let newLeaf := t.heap.length
    let heap := t.heap.set leaf { node with keys := node.keys.take mid, next := some newLeaf } ++
      [{ isLeaf := true, next := node.next, keys := node.keys.drop mid }]
    if t.root = leaf then
      -- root split case
      (node.keys.drop mid).head?.map fun first =>
        { t with
          heap := heap ++ [{ isLeaf := false, keys := [first], children := [leaf, newLeaf] }]
          root := heap.length }
    else some { t with heap := heap }

/-- `insertKey`. -/
def insertKey (t : BplusTree) (key : ℤ) : Option BplusTree :=
  (t.findLeaf key).bind fun leaf =>
    t.heap[leaf]?.bind fun node =>
      let keys := insertSorted node.keys key
      let t' := { t with heap := t.heap.set leaf { node with keys := keys } }
      -- split leaf if it overflows
      if keys.length > t.maxKeysPerNode then t'.splitLeaf leaf else some t'

/-- The descent of `printLeaves` to the leftmost leaf, over at most `fuel` nodes. -/
def leftmostFrom (heap : List Node) : ℕ → ℕ → Option ℕ
  | 0, _ => none
  | fuel + 1, curr =>
    heap[curr]?.bind fun node =>
      if node.isLeaf then some curr else node.children[0]?.bind (leftmostFrom heap fuel)

/-- The walk of `printLeaves` along `next`, over at most `fuel` nodes: the keys of each node. -/
def leavesFrom (heap : List Node) : ℕ → Option ℕ → Option (List (List ℤ))
  | _, none => some []
  | 0, some _ => none
  | fuel + 1, some curr =>
    heap[curr]?.bind fun node => (leavesFrom heap fuel node.next).map fun rest => node.keys :: rest

/-- `printLeaves`: the keys that it prints, leaf by leaf.  A walk that visits more nodes than there
are never ends. -/
def printLeaves (t : BplusTree) : Option (List (List ℤ)) :=
  (leftmostFrom t.heap t.heap.length t.root).bind fun leaf =>
    leavesFrom t.heap t.heap.length (some leaf)

/-- A sequence of `insertKey` calls on a new tree. -/
def build (maxKeys : ℕ) (keys : List ℤ) : Option BplusTree :=
  keys.foldlM insertKey (new maxKeys)

end BplusTree

end BPlusTree
