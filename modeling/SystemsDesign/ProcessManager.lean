/-
# The process table

Model of `storage/ProcessManager_structure.cpp`.  Processes are in memory and point to each other:
a process to its parent, and the parent, in a vector, to its children.  The table maps a pid to the
process.  A call that accesses a process that was deleted has no result, since its behaviour is
undefined.

`killProcess` calls itself for the children.  Each call works on a process that is newer than the
one before, so that the recursion is bounded by the number of processes there ever were.

The functions that return processes or print them change nothing and are left out, and so is the CPU
context, which no function reads.
-/
import SystemsDesign.TransitionSystem
import SystemsDesign.PointerHeap

namespace ProcessManagers

open PointerHeap

/-! ## The source -/

/-- `ProcessState`. -/
inductive ProcessState where
  | ready
  | running
  | blocked
  | terminated
  deriving DecidableEq, Repr

/-- `Process`. -/
structure Process where
  pid : ℤ
  ppid : ℤ
  state : ProcessState := .ready
  cpuTime : UInt64 := 0
  memoryUsage : UInt64 := 0
  parent : Option Addr := none
  children : List Addr := []
  deriving DecidableEq, Repr

/-- The processes in memory and the table. -/
structure ProcessManager where
  heap : Heap Process := ⟨fun _ => none, 0⟩
  processTable : ℤ → Option Addr := fun _ => none

namespace ProcessManager

/-- `addProcess`; the new process is at the address `m.heap.next`. -/
def addProcess (m : ProcessManager) (pid : ℤ) (ppid : ℤ := -1) : Option ProcessManager :=
  match m.processTable ppid with
  | none =>
    some {
      heap := m.heap.alloc { pid := pid, ppid := ppid }
      processTable := Function.update m.processTable pid (some m.heap.next) }
  | some parent =>
    (m.heap.cell parent).map fun q => {
      heap := (m.heap.alloc { pid := pid, ppid := ppid, parent := some parent }).store parent
        { q with children := q.children ++ [m.heap.next] }
      processTable := Function.update m.processTable pid (some m.heap.next) }

/-- Remove all occurrences of `proc` from the children of its parent. -/
def unlink (heap : Heap Process) (proc : Addr) : Option Addr → Option (Heap Process)
  | none => some heap
  | some parent =>
    (heap.cell parent).map fun q =>
      heap.store parent { q with children := q.children.filter (· ≠ proc) }

/-- The end of `removeProcess` and of `killProcess`: the process is removed from its parent's
children and from the table, and deleted. -/
def discard (m : ProcessManager) (pid : ℤ) (proc : Addr) (parent : Option Addr) :
    Option ProcessManager :=
  (unlink m.heap proc parent).map fun heap => {
    heap := heap.free proc
    processTable := Function.update m.processTable pid none }

/-- `removeProcess`. -/
def removeProcess (m : ProcessManager) (pid : ℤ) : Option ProcessManager :=
  match m.processTable pid with
  | none => some m
  | some proc => (m.heap.cell proc).bind fun p => m.discard pid proc p.parent

/-- `killProcess` to a bounded depth. -/
def kill : ℕ → ProcessManager → ℤ → Option ProcessManager
  | 0, _, _ => none
  | depth + 1, m, pid =>
    match m.processTable pid with
    | none => some m
    | some p =>
      (m.heap.cell p).bind fun proc =>
        -- the vector is copied before the loop
        (proc.children.foldlM
          (fun (m : ProcessManager) child =>
            (m.heap.cell child).bind fun c => kill depth m c.pid) m).bind fun m =>
          (m.heap.cell p).bind fun proc =>
            { m with heap := m.heap.store p { proc with state := .terminated } }.discard pid p
              proc.parent

/-- `killProcess`. -/
def killProcess (m : ProcessManager) (pid : ℤ) : Option ProcessManager :=
  kill (m.heap.next + 1) m pid

/-- A change of a process that the table has. -/
def update (m : ProcessManager) (pid : ℤ) (change : Process → Process) : Option ProcessManager :=
  match m.processTable pid with
  | none => some m
  | some proc => (m.heap.cell proc).map fun p => { m with heap := m.heap.store proc (change p) }

/-- `updateState`. -/
def updateState (m : ProcessManager) (pid : ℤ) (state : ProcessState) : Option ProcessManager :=
  m.update pid fun p => { p with state := state }

/-- `updateCpuTime`. -/
def updateCpuTime (m : ProcessManager) (pid : ℤ) (cpuTime : UInt64) : Option ProcessManager :=
  m.update pid fun p => { p with cpuTime := cpuTime }

/-- `updateMemoryUsage`. -/
def updateMemoryUsage (m : ProcessManager) (pid : ℤ) (memoryUsage : UInt64) :
    Option ProcessManager :=
  m.update pid fun p => { p with memoryUsage := memoryUsage }

/-- `setState`. -/
def setState (m : ProcessManager) (pid : ℤ) (state : ProcessState) : Option ProcessManager :=
  m.update pid fun p => { p with state := state }

end ProcessManager

/-- The calls that change something. -/
inductive Call where
  | addProcess (pid ppid : ℤ)
  | removeProcess (pid : ℤ)
  | killProcess (pid : ℤ)
  | updateState (pid : ℤ) (state : ProcessState)
  | updateCpuTime (pid : ℤ) (cpuTime : UInt64)
  | updateMemoryUsage (pid : ℤ) (memoryUsage : UInt64)
  | setState (pid : ℤ) (state : ProcessState)
  deriving DecidableEq, Repr

/-- The process table after a call. -/
def step (m : ProcessManager) : Call → Option ProcessManager
  | .addProcess pid ppid => m.addProcess pid ppid
  | .removeProcess pid => m.removeProcess pid
  | .killProcess pid => m.killProcess pid
  | .updateState pid state => m.updateState pid state
  | .updateCpuTime pid cpuTime => m.updateCpuTime pid cpuTime
  | .updateMemoryUsage pid memoryUsage => m.updateMemoryUsage pid memoryUsage
  | .setState pid state => m.setState pid state

/-! ## Links -/

/-- The process at `a` is in the table. -/
def InTable (m : ProcessManager) (a : Addr) : Prop := ∃ pid, m.processTable pid = some a

/-- No link dangles, and the links agree: the parent of a process in the table is in the table and
lists it, and the children of a process are in the table and have it as their parent. -/
structure Linked (m : ProcessManager) : Prop where
  parent : ∀ pid a, m.processTable pid = some a → ∃ p, m.heap.cell a = some p ∧
    ∀ b, p.parent = some b → InTable m b ∧ ∃ q, m.heap.cell b = some q ∧ a ∈ q.children
  children : ∀ a p, m.heap.cell a = some p → ∀ c ∈ p.children,
    InTable m c ∧ ∃ q, m.heap.cell c = some q ∧ q.parent = some a

/-- The call keeps the links: a process is added under a pid that is not in the table, or whose
process has no links and is not to become the parent, and a process is removed when it has no
children. -/
def KeepsLinks (m : ProcessManager) : Call → Prop
  | .addProcess pid ppid => ∀ a p, m.processTable pid = some a → m.heap.cell a = some p →
    p.parent = none ∧ p.children = [] ∧ ppid ≠ pid
  | .removeProcess pid => ∀ a p, m.processTable pid = some a → m.heap.cell a = some p →
    p.children = []
  | _ => True

end ProcessManagers
