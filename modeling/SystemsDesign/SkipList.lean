/-
# The skip list (`storage/skipList.cpp`)

The nodes live in a heap and point to each other by address, as in the source; `delete`
takes a node out of the heap, and following a pointer to a node that is not there makes an
operation fail (`none`).

* `serach`, `insert` and `erase` walk right as long as the next value is below the target,
  then one level down.  A walk in a heap with `next` addresses that takes more than
  `next` steps goes round in a circle; the loops are therefore run with that much fuel, and a
  loop that uses it up is one that does not end (`none`).
* `insert` keeps the last node of each level on a stack, and then inserts from the bottom
  upwards as long as the coin, `(rand() & 1) == 0`, says so.  What the coins show is an input
  of the call.

Values are integers without a width; they are only compared.
-/
import SystemsDesign.PointerHeap

namespace SkipLists

open PointerHeap

/-- `class Node`. -/
structure Node where
  val : ℤ
  right : Option Addr
  down : Option Addr
  deriving DecidableEq, Repr

/-- `class SkipList`, with the heap its nodes are in. -/
structure SkipList where
  heap : Heap Node
  head : Addr

/-- The constructor: a single head node. -/
def new : SkipList := ⟨Heap.alloc ⟨fun _ => none, 0⟩ ⟨0, none, none⟩, 0⟩

/-! ## Walking -/

/-- `while (curr && curr->right && curr->right->val < target) curr = curr->right;` -/
def moveRight (h : Heap Node) (target : ℤ) : ℕ → Addr → Option Addr
  | 0, _ => none
  | fuel + 1, curr => do
    let n ← h.cell curr
    match n.right with
    | none => some curr
    | some r =>
      let m ← h.cell r
      if m.val < target then moveRight h target fuel r else some curr

/-- `curr->right && curr->right->val == target`: the node on the right if it has the value. -/
def rightIs (h : Heap Node) (n : Node) (target : ℤ) : Option (Option (Addr × Node)) :=
  match n.right with
  | none => some none
  | some r => do
    let m ← h.cell r
    if m.val = target then some (some (r, m)) else some none

/-! ## `serach` -/

/-- The outer loop of `serach`. -/
def serachFrom (h : Heap Node) (target : ℤ) : ℕ → Option Addr → Option Bool
  | _, none => some false
  | 0, some _ => none
  | fuel + 1, some curr => do
    let curr ← moveRight h target (h.next + 1) curr
    let n ← h.cell curr
    match ← rightIs h n target with
    | some _ => some true
    | none => serachFrom h target fuel n.down

/-- `serach`. -/
def serach (s : SkipList) (target : ℤ) : Option Bool :=
  serachFrom s.heap target (s.heap.next + 1) (some s.head)

/-! ## `insert` -/

/-- The first loop of `insert`: the stack `insertPoints`, its back first. -/
def insertPoints (h : Heap Node) (target : ℤ) :
    ℕ → Option Addr → List Addr → Option (List Addr)
  | _, none, points => some points
  | 0, some _, _ => none
  | fuel + 1, some curr, points => do
    let curr ← moveRight h target (h.next + 1) curr
    let n ← h.cell curr
    insertPoints h target fuel n.down (curr :: points)

/-- The second loop of `insert`: the heap, `insert_upwards` and `downNode` at its end. -/
def insertUp (target : ℤ) (h : Heap Node) :
    List Addr → (ℕ → Bool) → Bool → Option Addr → Option (Heap Node × Bool × Option Addr)
  | [], _, insertUpwards, downNode => some (h, insertUpwards, downNode)
  | leftNode :: points, coins, insertUpwards, downNode =>
    if insertUpwards then do
      let n ← h.cell leftNode
      let temp := h.next
      let h := (h.alloc ⟨target, n.right, downNode⟩).store leftNode { n with right := some temp }
      insertUp target h points (fun i => coins (i + 1)) (coins 0) (some temp)
    else some (h, false, downNode)

/-- `insert`, where `coins i` is the outcome of the `i`-th flip of this call. -/
def insert (s : SkipList) (target : ℤ) (coins : ℕ → Bool) : Option SkipList := do
  let points ← insertPoints s.heap target (s.heap.next + 1) (some s.head) []
  let (h, insertUpwards, downNode) ← insertUp target s.heap points coins true none
  if insertUpwards then
    -- an extra level at the top
    let temp := h.next
    let h := h.alloc ⟨target, none, downNode⟩
    some ⟨h.alloc ⟨0, some temp, some s.head⟩, h.next⟩
  else some ⟨h, s.head⟩

/-! ## `erase` -/

/-- The loop of `erase`: `found` and the heap at its end. -/
def eraseFrom (target : ℤ) :
    ℕ → Heap Node → Option Addr → Bool → Option (Bool × Heap Node)
  | _, h, none, found => some (found, h)
  | 0, _, some _, _ => none
  | fuel + 1, h, some curr, found => do
    let curr ← moveRight h target (h.next + 1) curr
    let n ← h.cell curr
    match ← rightIs h n target with
    | some (temp, m) =>
      eraseFrom target fuel ((h.store curr { n with right := m.right }).free temp) n.down true
    | none => eraseFrom target fuel h n.down found

/-- `erase`: the result and the list afterwards. -/
def erase (s : SkipList) (target : ℤ) : Option (Bool × SkipList) := do
  let (found, h) ← eraseFrom target (s.heap.next + 1) s.heap (some s.head) false
  some (found, ⟨h, s.head⟩)

/-! ## Runs -/

/-- The calls on a skip list; an `insert` comes with the coins it flips. -/
inductive Op where
  | insert (target : ℤ) (coins : ℕ → Bool)
  | erase (target : ℤ)
  | serach (target : ℤ)

/-- One call: the list afterwards, and what the call returns. -/
def step (s : SkipList) : Op → Option (SkipList × Option Bool)
  | .insert target coins => (insert s target coins).map fun s' => (s', none)
  | .erase target => (erase s target).map fun p => (p.2, some p.1)
  | .serach target => (serach s target).map fun found => (s, some found)

/-- A sequence of calls: the list at the end, and what the calls returned. -/
def run : SkipList → List Op → Option (SkipList × List (Option Bool))
  | s, [] => some (s, [])
  | s, op :: ops => do
    let (s, answer) ← step s op
    let (s, answers) ← run s ops
    some (s, answer :: answers)

end SkipLists
