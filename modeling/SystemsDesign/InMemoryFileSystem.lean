/-
# The in-memory file system

Model of `storage/In-memory_FileSystem.cpp`.  The tree of `FileNode`s is a tree addressed by the
components of a path (`PathTree`); `mkdir` and `createFile` create what is missing on the way,
`deletePath` takes out a subtree, and `write` appends to a file.  Calls are taken one after the
other, so the locks of the nodes play no part.

Result: what `exists` and `read` answer can be read off from the calls made so far.  A path exists
if a call created it, alone or on the way to something below, and nothing has removed it since;
and a file holds what has been written to it since it was created.
-/
import SystemsDesign.DelimitedTokens
import SystemsDesign.PathTree

namespace InMemoryFileSystems

open PathTree WhitespaceTokens

/-! ## The file system -/

/-- The data members of `FileNode` besides `children` and `rwlock`. -/
structure FileNode where
  isFile : Bool := false
  content : Text := []
  deriving DecidableEq

/-- The data member of `FileSystemIndex`. -/
structure FileSystemIndex where
  root : NamedTree Text FileNode

/-- The constructor. -/
def FileSystemIndex.new : FileSystemIndex where
  root := .node {} []

/-- The components of a path. -/
def tokenize (path : Text) : List Text := DelimitedTokens.tokens '/' path

namespace FileSystemIndex

/-- `mkdir`. -/
def mkdir (fs : FileSystemIndex) (path : Text) : FileSystemIndex where
  root := fs.root.ensure (fun _ => {}) (tokenize path)

/-- `createFile`: only the last component becomes a file, and only if it is new. -/
def createFile (fs : FileSystemIndex) (path : Text) : FileSystemIndex where
  root := fs.root.ensure (fun rest => { isFile := rest.isEmpty }) (tokenize path)

/-- `exists`. -/
def pathExists (fs : FileSystemIndex) (path : Text) : Bool :=
  (fs.root.find (tokenize path)).isSome

/-- `ls`; the order of an `unordered_map` is not specified. -/
def ls (fs : FileSystemIndex) (path : Text) : List Text :=
  match fs.root.find (tokenize path) with
  | none => []
  | some curr =>
    if curr.val.isFile then (tokenize path).getLast?.toList else curr.children.map Prod.fst

/-- `deletePath`. -/
def deletePath (fs : FileSystemIndex) (path : Text) : FileSystemIndex where
  root := fs.root.erase (tokenize path)

/-- `curr->content += data`, for files. -/
def append (data : Text) (node : FileNode) : FileNode :=
  if node.isFile then { node with content := node.content ++ data } else node

/-- `write`. -/
def write (fs : FileSystemIndex) (path data : Text) : FileSystemIndex where
  root := fs.root.update (append data) (tokenize path)

/-- `read`. -/
def read (fs : FileSystemIndex) (path : Text) : Text :=
  match fs.root.find (tokenize path) with
  | none => []
  | some curr => if curr.val.isFile then curr.val.content else []

end FileSystemIndex

/-- The calls that change the file system. -/
inductive Call where
  | mkdir (path : Text)
  | createFile (path : Text)
  | write (path data : Text)
  | deletePath (path : Text)
  deriving DecidableEq

/-- One call. -/
def exec (fs : FileSystemIndex) : Call → FileSystemIndex
  | .mkdir path => fs.mkdir path
  | .createFile path => fs.createFile path
  | .write path data => fs.write path data
  | .deletePath path => fs.deletePath path

/-- The file system after a sequence of calls. -/
def run (calls : List Call) : FileSystemIndex := calls.foldl exec .new

/-! ## What the calls say about a path -/

/-- The call creates the path, or goes through it on the way to what it creates. -/
def Call.Creates (q : List Text) : Call → Prop
  | .mkdir path | .createFile path => q <+: tokenize path
  | _ => False

/-- The call creates the path as a file, if it is new. -/
def Call.createsFile (q : List Text) : Call → Bool
  | .createFile path => tokenize path = q
  | _ => false

/-- The call removes the path, or something above it. -/
def Call.Removes (q : List Text) : Call → Prop
  | .deletePath path => tokenize path ≠ [] ∧ tokenize path <+: q
  | _ => False

/-- What the call writes to the path. -/
def Call.written (q : List Text) : Call → Text
  | .write path data => if tokenize path = q then data else []
  | _ => []

/-- The call `c` has created the node that a path names after `calls`: the path did not exist
before it, and has not been removed since. -/
structure CreatedBy (calls : List Call) (path : Text) (before : List Call) (c : Call)
    (after : List Call) : Prop where
  split : calls = before ++ c :: after
  absent : (run before).pathExists path = false
  creates : c.Creates (tokenize path)
  kept : ∀ d ∈ after, ¬ d.Removes (tokenize path)

/-- `ls` of a directory lists the names under which something exists in it. -/
theorem mem_ls_iff {fs : FileSystemIndex} {path : Text} {curr : NamedTree Text FileNode}
    (hcurr : fs.root.find (tokenize path) = some curr) (hdir : curr.val.isFile = false)
    (name : Text) :
    name ∈ fs.ls path ↔ (fs.root.valAt (tokenize path ++ [name])).isSome := by
  rw [isSome_valAt_concat hcurr]
  simp only [FileSystemIndex.ls, hcurr, hdir, Bool.false_eq_true, if_false]

/-! ## One call -/

section OneCall

variable {fs : FileSystemIndex} {c : Call} {q : List Text} {node : FileNode}

/-- What is there after a call was created by it, or was there and has not been removed. -/
theorem isSome_valAt_exec :
    ((exec fs c).root.valAt q).isSome ↔
      c.Creates q ∨ (fs.root.valAt q).isSome ∧ ¬ c.Removes q := by
  cases c with
  | mkdir path =>
    show ((fs.root.ensure _ _).valAt q).isSome ↔ q <+: tokenize path ∨ _ ∧ ¬ False
    rw [isSome_valAt_ensure, not_false_eq_true, and_true, or_comm]
  | createFile path =>
    show ((fs.root.ensure _ _).valAt q).isSome ↔ q <+: tokenize path ∨ _ ∧ ¬ False
    rw [isSome_valAt_ensure, not_false_eq_true, and_true, or_comm]
  | write path data =>
    show ((fs.root.update _ _).valAt q).isSome ↔ False ∨ _ ∧ ¬ False
    rw [isSome_valAt_update, not_false_eq_true, and_true, false_or]
  | deletePath path =>
    show ((fs.root.erase _).valAt q).isSome ↔ False ∨ _
    rw [isSome_valAt_erase, false_or]
    rfl

theorem Call.Creates.not_removes (h : c.Creates q) : ¬ c.Removes q := by
  cases c with
  | mkdir path => exact not_false
  | createFile path => exact not_false
  | _ => exact h.elim

theorem valAt_of_creates (habsent : fs.root.valAt q = none) (hc : c.Creates q) :
    (exec fs c).root.valAt q = some { isFile := c.createsFile q } := by
  cases c with
  | mkdir path => exact valAt_ensure_of_none habsent hc _
  | createFile path =>
    -- nothing of the path is left exactly if it is the whole path
    have hrest : ((tokenize path).drop q.length).isEmpty = decide (tokenize path = q) := by
      obtain ⟨rest, hrest⟩ : q <+: tokenize path := hc
      rw [← hrest, List.drop_left]
      cases rest with
      | nil => simp
      | cons k rest => simp
    have hnew := valAt_ensure_of_none habsent hc fun rest => ({ isFile := rest.isEmpty } : FileNode)
    rw [hrest] at hnew
    exact hnew
  | _ => exact hc.elim

/-- A path that is there and not removed keeps its kind, and gets what is written to it. -/
theorem valAt_of_not_removes (hnode : fs.root.valAt q = some node) (hc : ¬ c.Removes q) :
    (exec fs c).root.valAt q = some (FileSystemIndex.append (c.written q) node) := by
  have hsame : FileSystemIndex.append [] node = node := by
    unfold FileSystemIndex.append
    rw [List.append_nil]
    exact ite_self node
  cases c with
  | mkdir path => exact (valAt_ensure_of_some hnode _ _).trans (congrArg some hsame.symm)
  | createFile path => exact (valAt_ensure_of_some hnode _ _).trans (congrArg some hsame.symm)
  | write path data =>
    show (fs.root.update _ _).valAt q
      = some (FileSystemIndex.append (if tokenize path = q then data else []) node)
    rw [valAt_update, hnode]
    by_cases hq : q = tokenize path
    · rw [if_pos hq, if_pos hq.symm]
      rfl
    · rw [if_neg hq, if_neg (Ne.symm hq), hsame]
  | deletePath path =>
    have hkept : ¬ (tokenize path ≠ [] ∧ tokenize path <+: q) := hc
    show (fs.root.erase _).valAt q = some (FileSystemIndex.append [] node)
    rw [valAt_erase, if_neg hkept, hsame, hnode]

end OneCall

/-! ## All calls -/

section AllCalls

variable {fs : FileSystemIndex} {calls before after : List Call} {c : Call} {q : List Text}
  {node : FileNode} {path : Text}

theorem append_append (data more : Text) (node : FileNode) :
    FileSystemIndex.append more (FileSystemIndex.append data node)
      = FileSystemIndex.append (data ++ more) node := by
  unfold FileSystemIndex.append
  cases h : node.isFile with
  | false => simp [h]
  | true => simp [List.append_assoc]

/-- **As long as it is not removed, a node keeps its kind and collects what is written to it.** -/
theorem valAt_foldl (hnode : fs.root.valAt q = some node) (hkept : ∀ d ∈ after, ¬ d.Removes q) :
    (after.foldl exec fs).root.valAt q
      = some (FileSystemIndex.append (after.flatMap (Call.written q)) node) := by
  induction after generalizing fs node with
  | nil =>
    show fs.root.valAt q = _
    rw [hnode, List.flatMap_nil, FileSystemIndex.append, List.append_nil]
    exact congrArg some (ite_self node).symm
  | cons d after ih =>
    have hd := valAt_of_not_removes hnode (hkept d List.mem_cons_self)
    rw [List.foldl_cons, ih hd fun e he => hkept e (List.mem_cons_of_mem d he), append_append,
      List.flatMap_cons]

theorem run_split (before : List Call) (c : Call) (after : List Call) :
    run (before ++ c :: after) = after.foldl exec (exec (run before) c) := by
  unfold run
  rw [List.foldl_append, List.foldl_cons]

theorem pathExists_eq (fs : FileSystemIndex) (path : Text) :
    fs.pathExists path = (fs.root.valAt (tokenize path)).isSome := by
  unfold FileSystemIndex.pathExists NamedTree.valAt
  rw [Option.isSome_map]

theorem read_eq (fs : FileSystemIndex) (path : Text) :
    fs.read path = match fs.root.valAt (tokenize path) with
      | none => []
      | some node => if node.isFile then node.content else [] := by
  unfold FileSystemIndex.read NamedTree.valAt
  cases fs.root.find (tokenize path) with
  | none => rfl
  | some curr => rfl

theorem valAt_of_absent (h : fs.pathExists path = false) :
    fs.root.valAt (tokenize path) = none := by
  rw [pathExists_eq] at h
  exact Option.not_isSome_iff_eq_none.mp (by rw [h]; decide)

theorem valAt_of_createdBy (h : CreatedBy calls path before c after) :
    (run calls).root.valAt (tokenize path)
      = some (FileSystemIndex.append (after.flatMap (Call.written (tokenize path)))
          { isFile := c.createsFile (tokenize path) }) := by
  rw [h.split, run_split]
  exact valAt_foldl (valAt_of_creates (valAt_of_absent h.absent) h.creates) h.kept

/-- **A path other than the root that exists was created by some call.** -/
theorem exists_createdBy (hne : tokenize path ≠ []) (h : (run calls).pathExists path = true) :
    ∃ before c after, CreatedBy calls path before c after := by
  -- by induction on the calls, from the last one
  induction calls using List.reverseRecOn with
  | nil =>
    rw [pathExists_eq] at h
    obtain ⟨k, q, hq⟩ := List.exists_cons_of_ne_nil hne
    rw [hq] at h
    cases h
  | append_singleton calls d ih =>
    rw [pathExists_eq, run_split] at h
    have hlast := isSome_valAt_exec.mp h
    by_cases hbefore : (run calls).pathExists path = true
    · -- it was there before the last call, which has not removed it
      obtain ⟨before, c, after, hcreated⟩ := ih hbefore
      refine ⟨before, c, after ++ [d], ?_, hcreated.absent, hcreated.creates, fun e he => ?_⟩
      · rw [hcreated.split, List.append_assoc, List.cons_append]
      · rcases List.mem_append.mp he with he | he
        · exact hcreated.kept e he
        · obtain rfl := List.mem_singleton.mp he
          exact hlast.elim Call.Creates.not_removes And.right
    · refine ⟨calls, d, [], rfl, Bool.eq_false_of_not_eq_true hbefore, ?_, by simp⟩
      rw [pathExists_eq] at hbefore
      exact hlast.resolve_right fun hsome => hbefore hsome.1

/-- What a call has created or gone through exists until it is removed. -/
theorem pathExists_of_creates (hc : c.Creates (tokenize path))
    (hkept : ∀ d ∈ after, ¬ d.Removes (tokenize path)) :
    (run (before ++ c :: after)).pathExists path = true := by
  obtain ⟨node, hnode⟩ := Option.isSome_iff_exists.mp
    ((@isSome_valAt_exec (run before) c (tokenize path)).mpr (.inl hc))
  rw [pathExists_eq, run_split, valAt_foldl hnode hkept]
  rfl

theorem read_root (calls : List Call) (hroot : tokenize path = []) :
    (run calls).read path = [] := by
  have hkept : ∀ d ∈ calls, ¬ d.Removes [] := by
    intro d _ hd
    cases d with
    | deletePath p => exact hd.1 (List.prefix_nil.mp hd.2)
    | _ => exact hd
  have hval := @valAt_foldl .new calls [] {} rfl hkept
  rw [read_eq, hroot]
  unfold run
  rw [hval]
  rfl

end AllCalls

/-! ## The result -/

/-- **The file system is a path map with the history of its calls.**  A path exists if it is the
root, or a prefix of what some call created and no later call removed it; reading it gives what has
been written to it since it was created as a file, and nothing for everything else. -/
theorem fileSystem_eq_history (calls : List Call) (path : Text) :
    ((run calls).pathExists path = true ↔ tokenize path = [] ∨
      ∃ before c after, calls = before ++ c :: after ∧ c.Creates (tokenize path) ∧
        ∀ d ∈ after, ¬ d.Removes (tokenize path)) ∧
    (∀ before c after, CreatedBy calls path before c after →
      (run calls).read path = if c.createsFile (tokenize path) then
        after.flatMap (Call.written (tokenize path)) else []) ∧
    ((¬ ∃ before c after, CreatedBy calls path before c after) →
      (run calls).read path = []) := by
  refine ⟨⟨fun h => ?_, ?_⟩, fun before c after hcreated => ?_, fun hnone => ?_⟩
  · by_cases hne : tokenize path = []
    · exact .inl hne
    · obtain ⟨before, c, after, hcreated⟩ := exists_createdBy hne h
      exact .inr ⟨before, c, after, hcreated.split, hcreated.creates, hcreated.kept⟩
  · rintro (hroot | ⟨before, c, after, rfl, hc, hkept⟩)
    · rw [pathExists_eq, hroot]
      rfl
    · exact pathExists_of_creates hc hkept
  · rw [read_eq, valAt_of_createdBy hcreated]
    show (if (FileSystemIndex.append _ _).isFile then _ else _) = _
    cases hfile : c.createsFile (tokenize path) with
    | false => rfl
    | true => rfl
  · by_cases hne : tokenize path = []
    · exact read_root calls hne
    · have habsent : ¬ (run calls).pathExists path = true :=
        fun h => hnone (exists_createdBy hne h)
      rw [read_eq, valAt_of_absent (Bool.eq_false_of_not_eq_true habsent)]

end InMemoryFileSystems
