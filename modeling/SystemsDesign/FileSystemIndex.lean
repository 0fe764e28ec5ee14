/-
# The file system index

Model of `storage/FileSystem_Index.cpp`: a tree of `FileNode`s over the components of a path, like
the in-memory file system, with metadata instead of contents.  Files get inode numbers from
`next_inode`.  Calls are taken one after the other.

A file is meant to have no children: `ls` answers a file with its own name, "since it has no
children".  But `mkdir` and `createFile` walk through files as they walk through directories, and
what they create below a file is hidden from `ls` while `exists` finds it.

Results: files stay leaves exactly as long as no call goes through a file, and the inode number of
a file identifies it.
-/
import SystemsDesign.DelimitedTokens
import SystemsDesign.PathTree
import SystemsDesign.TransitionSystem

namespace FileSystemIndexes

open PathTree TransitionSystem WhitespaceTokens

/-! ## The index -/

/-- `Metadata`. -/
structure Metadata where
  inodeNumber : ℤ
  fileSize : ℕ
  deriving DecidableEq

/-- The data members of `FileNode` besides `children` and `rwlock`, and its constructor's
defaults. -/
structure FileNode where
  isFile : Bool := false
  metadata : Metadata := ⟨0, 0⟩
  deriving DecidableEq

/-- The data members of `FileSystemIndex`. -/
structure FileSystemIndex where
  root : NamedTree Text FileNode
  nextInode : ℤ

/-- The constructor. -/
def FileSystemIndex.new : FileSystemIndex where
  root := .node {} []
  nextInode := 1

/-- The components of a path. -/
def tokenize (path : Text) : List Text := DelimitedTokens.tokens '/' path

namespace FileSystemIndex

/-- `mkdir`. -/
def mkdir (fs : FileSystemIndex) (path : Text) : FileSystemIndex :=
  { fs with root := fs.root.ensure (fun _ => {}) (tokenize path) }

/-- The node that `createFile` creates with `rest` of the path left. -/
def newNode (nextInode : ℤ) (fileSize : ℕ) (rest : List Text) : FileNode :=
  let isFile := rest.isEmpty
  { isFile, metadata := ⟨if isFile then nextInode else 0, if isFile then fileSize else 0⟩ }

/-- The loop of `createFile` from `curr` on, and `next_inode` after it. -/
def createLoop (fileSize : ℕ) :
    NamedTree Text FileNode → ℤ → List Text → NamedTree Text FileNode × ℤ
  | curr, nextInode, [] => (curr, nextInode)
  | curr, nextInode, name :: rest =>
    let next := match curr.child name with
      | some child => createLoop fileSize child nextInode rest
      | none =>
        createLoop fileSize (.node (newNode nextInode fileSize rest) [])
          (if rest.isEmpty then nextInode + 1 else nextInode) rest
    (.node curr.val (setChild name next.1 curr.children), next.2)

/-- `createFile`. -/
def createFile (fs : FileSystemIndex) (path : Text) (fileSize : ℕ) : FileSystemIndex :=
  let (root, nextInode) := createLoop fileSize fs.root fs.nextInode (tokenize path)
  { root, nextInode }

/-- `exists`. -/
def pathExists (fs : FileSystemIndex) (path : Text) : Bool :=
  (fs.root.find (tokenize path)).isSome

/-- `getMetadata`. -/
def getMetadata (fs : FileSystemIndex) (path : Text) : Metadata :=
  match fs.root.find (tokenize path) with
  | none => ⟨-1, 0⟩
  | some curr => curr.val.metadata

/-- `ls`; the order of an `unordered_map` is not specified. -/
def ls (fs : FileSystemIndex) (path : Text) : List Text :=
  match fs.root.find (tokenize path) with
  | none => []
  | some curr =>
    if curr.val.isFile then (tokenize path).getLast?.toList else curr.children.map Prod.fst

/-- `deletePath`. -/
def deletePath (fs : FileSystemIndex) (path : Text) : FileSystemIndex :=
  { fs with root := fs.root.erase (tokenize path) }

end FileSystemIndex

/-- The calls that change the index. -/
inductive Call where
  | mkdir (path : Text)
  | createFile (path : Text) (fileSize : ℕ)
  | deletePath (path : Text)
  deriving DecidableEq

/-- One call. -/
def exec (fs : FileSystemIndex) : Call → FileSystemIndex
  | .mkdir path => fs.mkdir path
  | .createFile path fileSize => fs.createFile path fileSize
  | .deletePath path => fs.deletePath path

/-! ## Files are leaves -/

/-- No node that is a file has children. -/
def LeafFiles (fs : FileSystemIndex) : Prop :=
  ∀ q node, fs.root.find q = some node → node.val.isFile = true → node.children = []

/-- The call does not go through a file: no proper prefix of what it creates names one. -/
def AvoidsFiles (fs : FileSystemIndex) : Call → Prop
  | .mkdir path | .createFile path _ =>
    ∀ q node, q <+: tokenize path → q ≠ tokenize path → fs.root.valAt q = some node →
      node.isFile = false
  | .deletePath _ => True

/-- The loop of `createFile` creates what is missing; the inode number can only be used up by the
last component. -/
theorem createLoop_eq_ensure (fileSize : ℕ) (curr : NamedTree Text FileNode) (nextInode : ℤ)
    (path : List Text) : (FileSystemIndex.createLoop fileSize curr nextInode path).1
      = curr.ensure (FileSystemIndex.newNode nextInode fileSize) path := by
  induction path generalizing curr with
  | nil => rfl
  | cons name rest ih =>
    rw [FileSystemIndex.createLoop, NamedTree.ensure]
    cases curr.child name with
    | some child =>
      dsimp only
      rw [ih, Option.getD_some]
    | none =>
      dsimp only
      rw [Option.getD_none]
      cases rest with
      | nil => rfl
      | cons name' rest => rw [List.isEmpty_cons, if_neg Bool.noConfusion, ih]

section LeafFiles

variable {fs : FileSystemIndex} {root : NamedTree Text FileNode} {fresh : List Text → FileNode}
  {path : List Text}

/-- In terms of paths: a path that goes on behind a file leads nowhere. -/
def LeafPaths (root : NamedTree Text FileNode) : Prop :=
  ∀ q node k, root.valAt q = some node → node.isFile = true → root.valAt (q ++ [k]) = none

/-- Files are leaves if the paths behind them lead nowhere. -/
theorem leafFiles_iff : LeafFiles fs ↔ LeafPaths fs.root := by
  constructor
  · intro h q node k hnode hfile
    obtain ⟨curr, hcurr, rfl⟩ := Option.map_eq_some_iff.mp hnode
    have hconcat := isSome_valAt_concat hcurr k
    rw [h q curr hcurr hfile] at hconcat
    simpa using hconcat
  · intro h q curr hcurr hfile
    have hnode : fs.root.valAt q = some curr.val := congrArg (Option.map NamedTree.val) hcurr
    rw [List.eq_nil_iff_forall_not_mem]
    intro c hc
    have hconcat := (isSome_valAt_concat hcurr c.1).mpr (List.mem_map_of_mem hc)
    rw [h q curr.val c.1 hnode hfile] at hconcat
    cases hconcat

theorem not_leafPaths_ensure {q : List Text} {node : FileNode} (hq : q <+: path) (hne : q ≠ path)
    (hnode : root.valAt q = some node) (hfile : node.isFile = true) :
    ¬ LeafPaths (root.ensure fresh path) := by
  intro h
  obtain ⟨rest, hrest⟩ := hq
  cases rest with
  | nil => exact hne (by rw [← hrest, List.append_nil])
  | cons k rest =>
    have hbehind : q ++ [k] <+: path := ⟨rest, by rw [← hrest, List.append_assoc]; rfl⟩
    have hsome := (isSome_valAt_ensure fresh root path (q ++ [k])).mpr (.inr hbehind)
    rw [h q node k (valAt_ensure_of_some hnode fresh path) hfile] at hsome
    cases hsome

/-- Creating what is missing on a path keeps files leaves if the path does not go through one, and
if at most the last node created is a file. -/
theorem leafPaths_ensure (hfresh : ∀ rest, (fresh rest).isFile = true → rest = [])
    (h : LeafPaths root) (havoids : ∀ q node, q <+: path → q ≠ path →
      root.valAt q = some node → node.isFile = false) :
    LeafPaths (root.ensure fresh path) := by
  intro q node k hnode hfile
  by_contra hsome
  have hbehind := (isSome_valAt_ensure fresh root path (q ++ [k])).mp
    (Option.isSome_iff_ne_none.mpr hsome)
  rcases valAt_or_of_ensure hnode with hold | ⟨hold, -, rfl⟩
  · -- a file that was there: the call has gone through it
    rw [h q node k hold hfile] at hbehind
    have hprefix : q ++ [k] <+: path := hbehind.resolve_left Bool.noConfusion
    have hne : q ≠ path := by
      rintro rfl
      exact absurd hprefix.length_le (by simp)
    have hdir := havoids q node ((List.prefix_append q [k]).trans hprefix) hne hold
    exact absurd (hdir.symm.trans hfile) Bool.noConfusion
  · -- a file that is new: it is the end of the path
    have hprefix : q ++ [k] <+: path := by
      refine hbehind.resolve_left fun hbefore => ?_
      have hq := valAt_isSome_of_prefix (List.prefix_append q [k]) hbefore
      rw [hold] at hq
      cases hq
    have hend := List.drop_eq_nil_iff.mp (hfresh _ hfile)
    have hlength := hprefix.length_le
    rw [List.length_append, List.length_singleton] at hlength
    omega

theorem leafPaths_erase (h : LeafPaths root) : LeafPaths (root.erase path) := by
  intro q node k hnode hfile
  rw [valAt_erase] at hnode ⊢
  split_ifs at hnode with hq
  split_ifs with hbehind
  · rfl
  · exact h q node k hnode hfile

/-- **Files stay leaves exactly if the call does not go through one.** -/
theorem leafFiles_exec_iff (h : LeafFiles fs) (c : Call) :
    LeafFiles (exec fs c) ↔ AvoidsFiles fs c := by
  rw [leafFiles_iff] at h ⊢
  -- both creating calls walk in the same way
  have hcreate (fresh : List Text → FileNode)
      (hfresh : ∀ rest, (fresh rest).isFile = true → rest = []) (path : List Text) :
      LeafPaths (fs.root.ensure fresh path) ↔ ∀ q node, q <+: path → q ≠ path →
        fs.root.valAt q = some node → node.isFile = false := by
    refine ⟨fun hleaf q node hq hne hnode => ?_, leafPaths_ensure hfresh h⟩
    by_contra hfile
    exact not_leafPaths_ensure hq hne hnode (Bool.eq_true_of_not_eq_false hfile) hleaf
  cases c with
  | mkdir path => exact hcreate _ (fun _ hfile => absurd hfile Bool.noConfusion) _
  | createFile path fileSize =>
    show LeafPaths (FileSystemIndex.createLoop fileSize fs.root fs.nextInode _).1 ↔ _
    rw [createLoop_eq_ensure]
    exact hcreate _ (fun _ hfile => List.isEmpty_iff.mp hfile) _
  | deletePath path => exact iff_of_true (leafPaths_erase h) trivial

end LeafFiles

/-! ## The result -/

theorem leafFiles_new : LeafFiles .new := by
  rw [leafFiles_iff]
  intro q node k _ _
  cases q with
  | nil => rfl
  | cons k' q => rfl

/-- **Files are leaves as long as no call goes through a file**, in every state of a sequence of
calls, and only then. -/
theorem leafFiles_always_iff (calls : List Call) :
    Invariably exec LeafFiles .new calls ↔ Throughout exec AvoidsFiles .new calls :=
  invariably_iff_throughout (fun _ c h => leafFiles_exec_iff h c) leafFiles_new

/-- `createFile("/a", 1)` and `mkdir("/a/b")`. -/
def throughFile : List Call :=
  [.createFile ['/', 'a'] 1, .mkdir ['/', 'a', '/', 'b']]

theorem tokenize_throughFile :
    tokenize ['/', 'a'] = [['a']] ∧ tokenize ['/', 'a', '/', 'b'] = [['a'], ['b']] := by
  unfold tokenize
  rw [DelimitedTokens.tokens_eq_runs, DelimitedTokens.tokens_eq_runs]
  decide

/-- After these calls the file `/a` has a child, which `exists` finds and `ls` hides. -/
theorem file_with_child :
    ¬ LeafFiles (throughFile.foldl exec .new) ∧
      (throughFile.foldl exec .new).pathExists ['/', 'a', '/', 'b'] = true ∧
      (throughFile.foldl exec .new).ls ['/', 'a'] = [['a']] := by
  obtain ⟨ha, hab⟩ := tokenize_throughFile
  have htree : throughFile.foldl exec .new =
      { root := .node {} [(['a'], .node ⟨true, ⟨1, 1⟩⟩ [(['b'], .node {} [])])]
        nextInode := 2 } := by
    show (FileSystemIndex.new.createFile ['/', 'a'] 1).mkdir ['/', 'a', '/', 'b'] = _
    unfold FileSystemIndex.mkdir FileSystemIndex.createFile
    rw [ha, hab]
    rfl
  rw [htree]
  refine ⟨fun h => ?_, ?_, ?_⟩
  · exact absurd (h [['a']] _ rfl rfl) (List.cons_ne_nil _ _)
  · unfold FileSystemIndex.pathExists
    rw [hab]
    rfl
  · unfold FileSystemIndex.ls
    rw [ha]
    rfl

/-! ## Inode numbers -/

/-- Files have different inode numbers, all of them positive and below the next one, and
directories have the number 0. -/
structure InodesUnique (fs : FileSystemIndex) : Prop where
  next : 0 < fs.nextInode
  directory : ∀ q node, fs.root.valAt q = some node → node.isFile = false →
    node.metadata.inodeNumber = 0
  file : ∀ q node, fs.root.valAt q = some node → node.isFile = true →
    0 < node.metadata.inodeNumber ∧ node.metadata.inodeNumber < fs.nextInode
  unique : ∀ q q' node node', fs.root.valAt q = some node → fs.root.valAt q' = some node' →
    node.isFile = true → node'.isFile = true →
    node.metadata.inodeNumber = node'.metadata.inodeNumber → q = q'

section Inodes

variable {fs : FileSystemIndex} {q path : List Text} {node : FileNode}

/-- The loop of `createFile` uses up an inode number if the path is new. -/
theorem createLoop_nextInode (fileSize : ℕ) (curr : NamedTree Text FileNode) (nextInode : ℤ)
    (path : List Text) : (FileSystemIndex.createLoop fileSize curr nextInode path).2
      = if curr.valAt path = none then nextInode + 1 else nextInode := by
  induction path generalizing curr nextInode with
  | nil => exact (if_neg (Option.some_ne_none curr.val)).symm
  | cons name rest ih =>
    rw [FileSystemIndex.createLoop, valAt_cons]
    cases curr.child name with
    | some child => exact ih child nextInode
    | none =>
      rw [Option.bind_none, if_pos rfl]
      dsimp only
      rw [ih, valAt_leaf]
      -- below the new node everything is new, down to the file
      cases rest with
      | nil => rfl
      | cons name' rest => rfl

/-- A node after the creation of a path was there before, is the new file at the end of the path,
or is a new directory. -/
theorem node_of_createFile (fs : FileSystemIndex) (fileSize : ℕ) (hnode : (fs.root.ensure
      (FileSystemIndex.newNode fs.nextInode fileSize) path).valAt q = some node) :
    fs.root.valAt q = some node ∨
      fs.root.valAt path = none ∧ q = path ∧ node = ⟨true, ⟨fs.nextInode, fileSize⟩⟩ ∨
      node = {} := by
  rcases valAt_or_of_ensure hnode with hold | ⟨hold, hq, rfl⟩
  · exact .inl hold
  · cases hend : path.drop q.length with
    | nil =>
      obtain rfl : q = path := hq.eq_of_length_le (List.drop_eq_nil_iff.mp hend)
      exact .inr (.inl ⟨hold, rfl, rfl⟩)
    | cons name rest => exact .inr (.inr rfl)

theorem InodesUnique.of_nodes (h : InodesUnique fs) {root : NamedTree Text FileNode}
    (hnodes : ∀ q node, root.valAt q = some node → fs.root.valAt q = some node ∨ node = {}) :
    InodesUnique { fs with root } := by
  have hfiles (q : List Text) (node : FileNode) (hnode : root.valAt q = some node)
      (hfile : node.isFile = true) : fs.root.valAt q = some node := by
    refine (hnodes q node hnode).resolve_right ?_
    rintro rfl
    exact absurd hfile Bool.noConfusion
  refine ⟨h.next, fun q node hnode hdir => ?_, fun q node hnode hfile => ?_,
    fun q q' node node' hnode hnode' hfile hfile' => ?_⟩
  · rcases hnodes q node hnode with hold | rfl
    · exact h.directory q node hold hdir
    · rfl
  · exact h.file q node (hfiles q node hnode hfile) hfile
  · exact h.unique q q' node node' (hfiles q node hnode hfile) (hfiles q' node' hnode' hfile')
      hfile hfile'

theorem InodesUnique.of_newFile (h : InodesUnique fs) {root : NamedTree Text FileNode}
    {fileSize : ℕ} (hnodes : ∀ q node, root.valAt q = some node → fs.root.valAt q = some node ∨
      q = path ∧ node = ⟨true, ⟨fs.nextInode, fileSize⟩⟩ ∨ node = {}) :
    InodesUnique { root, nextInode := fs.nextInode + 1 } := by
  have hfiles (q : List Text) (node : FileNode) (hnode : root.valAt q = some node)
      (hfile : node.isFile = true) : fs.root.valAt q = some node ∨
        q = path ∧ node.metadata.inodeNumber = fs.nextInode := by
    rcases hnodes q node hnode with hold | ⟨hq, rfl⟩ | rfl
    · exact .inl hold
    · exact .inr ⟨hq, rfl⟩
    · exact absurd hfile Bool.noConfusion
  refine ⟨h.next.trans (lt_add_one _), fun q node hnode hdir => ?_,
    fun q node hnode hfile => ?_, fun q q' node node' hnode hnode' hfile hfile' heq => ?_⟩
  · rcases hnodes q node hnode with hold | ⟨-, rfl⟩ | rfl
    · exact h.directory q node hold hdir
    · exact absurd hdir.symm Bool.noConfusion
    · rfl
  · rcases hfiles q node hnode hfile with hold | ⟨-, hinode⟩
    · obtain ⟨hpos, hlt⟩ := h.file q node hold hfile
      exact ⟨hpos, hlt.trans (lt_add_one _)⟩
    · rw [hinode]
      exact ⟨h.next, lt_add_one _⟩
  · rcases hfiles q node hnode hfile with hold | ⟨hq, hinode⟩
    · rcases hfiles q' node' hnode' hfile' with hold' | ⟨-, hinode'⟩
      · exact h.unique q q' node node' hold hold' hfile hfile' heq
      · exact absurd (heq.trans hinode') (h.file q node hold hfile).2.ne
    · rcases hfiles q' node' hnode' hfile' with hold' | ⟨hq', -⟩
      · exact absurd (heq.symm.trans hinode) (h.file q' node' hold' hfile').2.ne
      · exact hq.trans hq'.symm

/-- `createFile` gives a new file the next number. -/
theorem InodesUnique.createFile (h : InodesUnique fs) (path : Text) (fileSize : ℕ) :
    InodesUnique (fs.createFile path fileSize) := by
  have hcreate : fs.createFile path fileSize =
      { root := fs.root.ensure (FileSystemIndex.newNode fs.nextInode fileSize) (tokenize path)
        nextInode := if fs.root.valAt (tokenize path) = none then fs.nextInode + 1
          else fs.nextInode } := by
    rw [← createLoop_eq_ensure, ← createLoop_nextInode fileSize]
    rfl
  rw [hcreate]
  by_cases hnew : fs.root.valAt (tokenize path) = none
  · rw [if_pos hnew]
    apply h.of_newFile
    intro q node hnode
    exact (node_of_createFile fs fileSize hnode).imp_right (Or.imp_left And.right)
  · rw [if_neg hnew]
    apply h.of_nodes
    intro q node hnode
    rcases node_of_createFile fs fileSize hnode with hold | ⟨hnone, -⟩ | hdir
    · exact .inl hold
    · exact absurd hnone hnew
    · exact .inr hdir

/-- **Every call keeps the inode numbers unique.** -/
theorem InodesUnique.exec (h : InodesUnique fs) (c : Call) :
    InodesUnique (FileSystemIndexes.exec fs c) := by
  cases c with
  | mkdir path =>
    apply h.of_nodes
    intro q node hnode
    rcases valAt_or_of_ensure hnode with hold | ⟨-, -, hnew⟩
    · exact .inl hold
    · exact .inr hnew.symm
  | createFile path fileSize => exact h.createFile path fileSize
  | deletePath path =>
    apply h.of_nodes
    intro q node hnode
    rw [valAt_erase] at hnode
    split_ifs at hnode
    exact .inl hnode

end Inodes

/-- A fresh index has a root directory and nothing else. -/
theorem inodesUnique_new : InodesUnique .new := by
  have hroot (q : List Text) (node : FileNode)
      (hnode : FileSystemIndex.new.root.valAt q = some node) : node = {} := by
    cases q with
    | nil => exact (Option.some.inj hnode).symm
    | cons name q => cases hnode
  refine ⟨one_pos, fun q node hnode _ => ?_, fun q node hnode hfile => ?_,
    fun q q' node node' hnode _ hfile => ?_⟩
  · rw [hroot q node hnode]
  · exact absurd (hroot q node hnode ▸ hfile) Bool.noConfusion
  · exact absurd (hroot q node hnode ▸ hfile) Bool.noConfusion

theorem inodesUnique_run (calls : List Call) : InodesUnique (calls.foldl exec .new) :=
  foldl_invariant (fun _ c h => h.exec c) inodesUnique_new calls

/-- **A positive inode number identifies a file**: the paths for which `getMetadata` answers with
it have the same components. -/
theorem tokenize_eq_of_inodeNumber (calls : List Call) (path path' : Text)
    (hpos : 0 < ((calls.foldl exec .new).getMetadata path).inodeNumber)
    (heq : ((calls.foldl exec .new).getMetadata path).inodeNumber
      = ((calls.foldl exec .new).getMetadata path').inodeNumber) :
    tokenize path = tokenize path' := by
  have hinodes := inodesUnique_run calls
  have hfile (p : Text) (hp : 0 < ((calls.foldl exec .new).getMetadata p).inodeNumber) :
      ∃ node, (calls.foldl exec .new).root.valAt (tokenize p) = some node ∧ node.isFile = true ∧
        ((calls.foldl exec .new).getMetadata p) = node.metadata := by
    unfold FileSystemIndex.getMetadata at hp ⊢
    cases hfind : (calls.foldl exec .new).root.find (tokenize p) with
    | none =>
      rw [hfind] at hp
      exact absurd hp (by decide)
    | some curr =>
      rw [hfind] at hp
      have hnode : (calls.foldl exec .new).root.valAt (tokenize p) = some curr.val :=
        congrArg (Option.map NamedTree.val) hfind
      refine ⟨curr.val, hnode, ?_, rfl⟩
      by_contra hdir
      have hzero := hinodes.directory _ _ hnode (Bool.eq_false_of_not_eq_true hdir)
      exact absurd hzero hp.ne'
  obtain ⟨node, hnode, hisFile, hmeta⟩ := hfile path hpos
  obtain ⟨node', hnode', hisFile', hmeta'⟩ := hfile path' (heq ▸ hpos)
  rw [hmeta, hmeta'] at heq
  exact hinodes.unique _ _ node node' hnode hnode' hisFile hisFile' heq

theorem tokenize_eq_of_inodeNumber_oneFile :
    0 < (([.createFile ['/', 'a'] 1] : List Call).foldl exec .new |>.getMetadata
      ['/', 'a']).inodeNumber ∧ tokenize ['/', 'a'] = tokenize ['a'] := by
  have ha : tokenize ['/', 'a'] = [['a']] ∧ tokenize ['a'] = [['a']] := by
    unfold tokenize
    rw [DelimitedTokens.tokens_eq_runs, DelimitedTokens.tokens_eq_runs]
    decide
  have hnumber : ∀ path, tokenize path = [['a']] →
      (([.createFile ['/', 'a'] 1] : List Call).foldl exec .new |>.getMetadata path).inodeNumber
        = 1 := by
    intro path hpath
    simp only [List.foldl_cons, List.foldl_nil, exec, FileSystemIndex.createFile,
      FileSystemIndex.getMetadata, hpath, ha.1]
    rfl
  refine ⟨by rw [hnumber _ ha.1]; decide, tokenize_eq_of_inodeNumber [.createFile ['/', 'a'] 1]
    ['/', 'a'] ['a'] ?_ ?_⟩
  · rw [hnumber _ ha.1]
    decide
  · rw [hnumber _ ha.1, hnumber _ ha.2]

end FileSystemIndexes
