/-
# The lock-free stack

Model of `CAS/LockFree_Stack.cpp`.  A step of a call is one access to memory: the load of `head`, a
compare-exchange of `head`, or an access to a node.  Any number of calls run at the same time, and
their steps interleave freely; a weak compare-exchange may fail although it sees the value it
expects.  Nodes are never freed, and a new node is at an address that was not in use before.

The state also keeps the calls whose compare-exchange succeeded, in that order, and for every `pop`
the values of `head` that it read.
-/
import SystemsDesign.TransitionSystem
import SystemsDesign.PointerHeap

namespace LockFreeStacks

open PointerHeap TransitionSystem

variable {T : Type*}

/-! ## The source -/

/-- A node of the list. -/
structure Node (T : Type*) where
  val : T
  next : Option Addr := none
  deriving DecidableEq, Repr

/-- What a `push` does next. -/
inductive PushPhase where
  /-- Allocate the node. -/
  | new
  /-- Load `head`. -/
  | load (newNode : Addr)
  /-- Write to `new_node->next` what was read from `head`. -/
  | link (newNode : Addr) (head : Option Addr)
  /-- Read the expected value from `new_node->next`. -/
  | expect (newNode : Addr)
  /-- The compare-exchange. -/
  | cas (newNode : Addr) (expected : Option Addr)
  | done
  deriving DecidableEq, Repr

/-- What a `pop` does next. -/
inductive PopPhase (T : Type*) where
  /-- Load `head`. -/
  | load
  /-- Test `old_head`, and read `old_head->next` if it is not null. -/
  | loop (oldHead : Option Addr)
  /-- The compare-exchange. -/
  | cas (oldHead : Addr) (nextNode : Option Addr)
  /-- Read `old_head->val`. -/
  | readVal (oldHead : Addr)
  /-- Returned true, with this result. -/
  | popped (result : T)
  /-- Returned false. -/
  | empty
  deriving DecidableEq, Repr

/-- A call; a `pop` with the values of `head` it read, last first. -/
inductive Call (T : Type*) where
  | push (v : T) (phase : PushPhase)
  | pop (phase : PopPhase T) (reads : List (Option Addr))
  deriving DecidableEq, Repr

/-- An operation on a stack. -/
inductive Op (T : Type*) where
  | push (v : T)
  | pop
  deriving DecidableEq, Repr

/-- The stack, the calls so far, and the calls whose compare-exchange succeeded, in that order. -/
structure State (T : Type*) where
  heap : Heap (Node T) := ⟨fun _ => none, 0⟩
  head : Option Addr := none
  calls : List (Call T) := []
  log : List (ℕ × Op T) := []

/-- The call `i` goes on. -/
def State.goto (s : State T) (i : ℕ) (c : Call T) : State T := { s with calls := s.calls.set i c }

/-- The next step of the call `i`, a `push`.  There is none after its end, nor where it would access
a node that does not exist. -/
def pushStep (s : State T) (i : ℕ) (v : T) (spurious : Bool) : PushPhase → Option (State T)
  | .new =>
    some { s.goto i (.push v (.load s.heap.next)) with heap := s.heap.alloc ⟨v, none⟩ }
  | .load newNode => some (s.goto i (.push v (.link newNode s.head)))
  | .link newNode head =>
    (s.heap.cell newNode).map fun node =>
      { s.goto i (.push v (.expect newNode)) with
        heap := s.heap.store newNode { node with next := head } }
  | .expect newNode =>
    (s.heap.cell newNode).map fun node => s.goto i (.push v (.cas newNode node.next))
  | .cas newNode expected =>
    if s.head = expected ∧ spurious = false then
      some { s.goto i (.push v .done) with
        head := some newNode, log := s.log ++ [(i, .push v)] }
    else some (s.goto i (.push v (.link newNode s.head)))
  | .done => none

/-- The next step of the call `i`, a `pop`. -/
def popStep (s : State T) (i : ℕ) (reads : List (Option Addr)) (spurious : Bool) :
    PopPhase T → Option (State T)
  | .load => some (s.goto i (.pop (.loop s.head) (s.head :: reads)))
  | .loop none => some (s.goto i (.pop .empty reads))
  | .loop (some oldHead) =>
    (s.heap.cell oldHead).map fun node => s.goto i (.pop (.cas oldHead node.next) reads)
  | .cas oldHead nextNode =>
    if s.head = some oldHead ∧ spurious = false then
      some { s.goto i (.pop (.readVal oldHead) (s.head :: reads)) with
        head := nextNode, log := s.log ++ [(i, .pop)] }
    else some (s.goto i (.pop (.loop s.head) (s.head :: reads)))
  | .readVal oldHead =>
    (s.heap.cell oldHead).map fun node => s.goto i (.pop (.popped node.val) reads)
  | .popped _ | .empty => none

/-- A new call, or a step of the call `i`. -/
inductive Action (T : Type*) where
  | push (v : T)
  | pop
  | step (i : ℕ) (spurious : Bool)
  deriving DecidableEq, Repr

/-- One step. -/
def step (s : State T) : Action T → Option (State T)
  | .push v => some { s with calls := s.calls ++ [.push v .new] }
  | .pop => some { s with calls := s.calls ++ [.pop .load []] }
  | .step i spurious =>
    match s.calls[i]? with
    | none => none
    | some (.push v phase) => pushStep s i v spurious phase
    | some (.pop phase reads) => popStep s i reads spurious phase

/-! ## What the stack is for -/

/-- The operation on a stack, top first. -/
def Op.apply (stack : List T) : Op T → List T
  | .push v => v :: stack
  | .pop => stack.tail

/-- The stack after the operations of the log. -/
def applied (log : List (ℕ × Op T)) : List T :=
  log.foldl (fun stack entry => entry.2.apply stack) []

/-- The values of the list that starts at an address. -/
def Reaches (heap : Heap (Node T)) : Option Addr → List T → Prop
  | start, [] => start = none
  | start, v :: vs => ∃ a next, start = some a ∧ heap.cell a = some ⟨v, next⟩ ∧ Reaches heap next vs

/-- The `pop` with number `i` took the value `v`: its compare-exchange succeeded once, when `v` was
on top of the stack. -/
def Took (log : List (ℕ × Op T)) (i : ℕ) (v : T) : Prop :=
  ∃ before after, log = before ++ (i, .pop) :: after ∧ (applied before).head? = some v ∧
    (i, .pop) ∉ before ∧ (i, .pop) ∉ after

/-- The call has returned. -/
def Call.Returned : Call T → Prop
  | .push _ .done | .pop (.popped _) _ | .pop .empty _ => True
  | _ => False

theorem applied_concat (log : List (ℕ × Op T)) (i : ℕ) (op : Op T) :
    applied (log ++ [(i, op)]) = op.apply (applied log) := by
  rw [applied, List.foldl_append]
  rfl

theorem Took.concat {log : List (ℕ × Op T)} {i j : ℕ} {v : T} (h : Took log j v) (hne : j ≠ i)
    (op : Op T) : Took (log ++ [(i, op)]) j v := by
  obtain ⟨before, after, rfl, htop, hbefore, hafter⟩ := h
  refine ⟨before, after ++ [(i, op)], ?_, htop, hbefore, fun hmem => ?_⟩
  · rw [List.append_assoc, List.cons_append]
  rcases List.mem_append.mp hmem with hmem | hmem
  · exact hafter hmem
  · exact hne (congrArg Prod.fst (List.mem_singleton.mp hmem))

end LockFreeStacks
