/-
# The hash join

Model of `database-internals/HashJoin.cpp`.  `execute` puts the departments into a hash table, by
`dept_id`, and then looks up every employee in it; the rows of the join are printed.  The table is a
member of the operator and is never cleared.

Results: after a sequence of calls the table holds the departments of all of them (`Tables`), so
that a call prints the rows of a nested-loop join with all departments so far
(`execute_output`).  It prints the join of its own arguments exactly if no department of an earlier
call matches one of its employees.
-/
import SystemsDesign.Transcripts
import SystemsDesign.WhitespaceTokens

namespace HashJoins

open Transcripts TransitionSystem WhitespaceTokens

/-! ## The operator -/

/-- A row of the probed table. -/
structure Employee where
  empId : ℤ
  name : Text
  deptId : ℤ
  deriving DecidableEq

/-- A row of the table that is built on. -/
structure Department where
  deptId : ℤ
  name : Text
  deriving DecidableEq

/-- The data member of `HashJoin`. -/
structure HashJoin where
  hashTable : ℤ → Option (List Department)

namespace HashJoin

/-- A new operator. -/
def new : HashJoin where
  hashTable := fun _ => none

/-- `hashTable[dept.dept_id].push_back(dept)`. -/
def push (self : HashJoin) (dept : Department) : HashJoin where
  hashTable := Function.update self.hashTable dept.deptId
    (some ((self.hashTable dept.deptId).getD [] ++ [dept]))

/-- `buildHashtable(departments)`. -/
def buildHashtable (self : HashJoin) (departments : List Department) : HashJoin :=
  departments.foldl push self

/-- The line that is printed for a row of the join. -/
def line (emp : Employee) (dept : Department) : Text :=
  decimal emp.empId ++ ' ' :: emp.name ++ ' ' :: dept.name ++ ['\n']

/-- `probe(employees)`. -/
def probe (self : HashJoin) (employees : List Employee) : List Text :=
  employees.flatMap fun emp =>
    match self.hashTable emp.deptId with
    | none => []
    | some depts => depts.map (line emp)

end HashJoin

open HashJoin

/-- The arguments of `execute`. -/
structure Call where
  employees : List Employee
  departments : List Department
  deriving DecidableEq

/-- `execute(employees, departments)`: what it prints, and the operator afterwards. -/
def execute (self : HashJoin) (call : Call) : List Text × HashJoin :=
  let self := self.buildHashtable call.departments
  (self.probe call.employees, self)

/-- What a nested-loop inner join prints. -/
def nestedLoopJoin (employees : List Employee) (departments : List Department) : List Text :=
  employees.flatMap fun emp =>
    departments.flatMap fun dept => if dept.deptId = emp.deptId then [line emp dept] else []

/-! ## The table -/

/-- The departments with an id, in order. -/
def matching (departments : List Department) (id : ℤ) : List Department :=
  departments.filter fun dept => dept.deptId = id

/-- The hash table holds these departments. -/
def Tables (self : HashJoin) (departments : List Department) : Prop :=
  ∀ id, (self.hashTable id).getD [] = matching departments id

variable {self : HashJoin} {departments : List Department} {employees : List Employee}

theorem Tables.push (h : Tables self departments) (dept : Department) :
    Tables (self.push dept) (departments ++ [dept]) := by
  intro id
  have hlast : matching (departments ++ [dept]) id
      = matching departments id ++ if dept.deptId = id then [dept] else [] := by
    unfold matching
    rw [List.filter_append, List.filter_singleton]
    by_cases hdept : dept.deptId = id
    · simp [hdept]
    · simp [hdept]
  show (Function.update self.hashTable dept.deptId _ id).getD [] = _
  rw [hlast]
  by_cases hid : id = dept.deptId
  · subst hid
    rw [Function.update_self, if_pos rfl, Option.getD_some, h]
  · rw [Function.update_of_ne hid, if_neg (Ne.symm hid), List.append_nil, h]

theorem Tables.build (h : Tables self departments) (more : List Department) :
    Tables (self.buildHashtable more) (departments ++ more) := by
  unfold buildHashtable
  induction more generalizing self departments with
  | nil => simpa using h
  | cons dept more ih =>
    have hmore := ih (h.push dept)
    rwa [List.append_assoc, List.singleton_append] at hmore

/-- After a sequence of calls, the departments of all of them are in the table. -/
theorem tables_final (calls : List Call) :
    Tables (final execute .new calls) (calls.flatMap Call.departments) := by
  -- from the last call
  induction calls using List.reverseRecOn with
  | nil => exact fun id => rfl
  | append_singleton calls call ih =>
    rw [final_append, List.flatMap_append, List.flatMap_singleton]
    exact ih.build call.departments

/-! ## The rows -/

theorem Tables.probe (h : Tables self departments) (employees : List Employee) :
    self.probe employees
      = employees.flatMap fun emp => (matching departments emp.deptId).map (line emp) := by
  unfold HashJoin.probe
  congr 1
  funext emp
  rw [← h emp.deptId]
  cases self.hashTable emp.deptId with
  | none => rfl
  | some depts => rfl

/-- The inner loop of a nested-loop join goes through the matching departments. -/
theorem nestedLoopJoin_eq (employees : List Employee) (departments : List Department) :
    nestedLoopJoin employees departments
      = employees.flatMap fun emp => (matching departments emp.deptId).map (line emp) := by
  unfold nestedLoopJoin matching
  congr 1
  funext emp
  induction departments with
  | nil => rfl
  | cons dept departments ih =>
    rw [List.flatMap_cons, ih, List.filter_cons]
    by_cases hdept : dept.deptId = emp.deptId
    · simp [hdept]
    · simp [hdept]

/-- **A call joins its employees with the departments of all calls so far.** -/
theorem execute_output (before : List Call) (call : Call) :
    (execute (final execute .new before) call).1
      = nestedLoopJoin call.employees (before.flatMap Call.departments ++ call.departments) := by
  rw [nestedLoopJoin_eq]
  exact ((tables_final before).build call.departments).probe call.employees

/-- Putting something in front of each piece makes no difference only if it is nothing. -/
theorem flatMap_append_eq_iff {α β : Type*} (l : List α) (f g : α → List β) :
    (l.flatMap fun a => f a ++ g a) = l.flatMap g ↔ ∀ a ∈ l, f a = [] := by
  constructor
  · intro h a ha
    have hlength := congrArg List.length h
    simp only [List.length_flatMap, List.length_append, List.sum_map_add] at hlength
    have hzero : (l.map fun a => (f a).length).sum = 0 := by omega
    exact List.length_eq_zero_iff.mp
      (List.sum_eq_zero_iff.mp hzero _ (List.mem_map_of_mem ha))
  · intro h
    apply List.flatMap_congr
    intro a ha
    rw [h a ha, List.nil_append]

/-- Departments in front of the others leave the join alone exactly if they match nobody. -/
theorem nestedLoopJoin_append_iff (employees : List Employee)
    (earlier departments : List Department) :
    nestedLoopJoin employees (earlier ++ departments) = nestedLoopJoin employees departments ↔
      ∀ emp ∈ employees, ∀ dept ∈ earlier, dept.deptId ≠ emp.deptId := by
  have happend : ∀ emp : Employee, (matching (earlier ++ departments) emp.deptId).map (line emp)
      = (matching earlier emp.deptId).map (line emp)
        ++ (matching departments emp.deptId).map (line emp) := by
    intro emp
    unfold matching
    rw [List.filter_append, List.map_append]
  rw [nestedLoopJoin_eq, nestedLoopJoin_eq]
  simp only [happend]
  rw [flatMap_append_eq_iff]
  simp only [List.map_eq_nil_iff, matching, List.filter_eq_nil_iff, decide_eq_true_eq, ne_eq]

/-! ## Sequences of calls -/

/-- No employee of the call belongs to a department of an earlier one. -/
def Unrelated (before : List Call) (call : Call) : Prop :=
  ∀ emp ∈ call.employees, ∀ dept ∈ before.flatMap Call.departments, dept.deptId ≠ emp.deptId

/-- **When the hash join is a nested-loop join.**  Every call of a sequence prints the join of its
own arguments if and only if none of them has an employee of a department of an earlier call. -/
theorem execute_eq_nestedLoopJoin_iff (calls : List Call) :
    (∀ entry ∈ transcript execute .new calls,
      entry.2 = nestedLoopJoin entry.1.employees entry.1.departments) ↔
      ∀ before call after, calls = before ++ call :: after → Unrelated before call := by
  have hcall : ∀ before call, (execute (final execute .new before) call).1
      = nestedLoopJoin call.employees call.departments ↔ Unrelated before call := by
    intro before call
    rw [execute_output, nestedLoopJoin_append_iff]
    rfl
  constructor
  · rintro h before call after rfl
    refine (hcall before call).mp (h (call, _) ?_)
    rw [transcript_append, transcript_cons]
    exact List.mem_append_right _ List.mem_cons_self
  · -- from the last call
    induction calls using List.reverseRecOn with
    | nil => simp
    | append_singleton calls call ih =>
      intro h entry hentry
      rw [transcript_append, List.mem_append] at hentry
      rcases hentry with hentry | hentry
      · refine ih (fun before c after hsplit => ?_) entry hentry
        exact h before c (after ++ [call]) (by rw [hsplit, List.append_assoc, List.cons_append])
      · obtain rfl := List.mem_singleton.mp hentry
        exact (hcall calls call).mpr (h calls call [] rfl)

/-- An employee of a department, joined twice, is printed twice by the second call. -/
theorem execute_twice :
    ∃ call : Call, ∃ entry ∈ transcript execute .new [call, call],
      entry.2 ≠ nestedLoopJoin entry.1.employees entry.1.departments := by
  refine ⟨⟨[⟨101, ['A'], 2⟩], [⟨2, ['S']⟩]⟩, _, List.mem_cons_of_mem _ List.mem_cons_self, ?_⟩
  decide +kernel

end HashJoins
