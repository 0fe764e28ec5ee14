/-
# The trie file system

Model of `Trie/In-memory_file_system.cpp`.  The `TrieNode`s form a tree addressed by the components
of a path (`PathTree`).  `mkdir` and `addContentToFile` create what is missing on the way, the first
without a name and the second with the name of the component; `ls` of a file answers with the name
its node was given.

Results: every node can be read off from the calls (`valAt_run`): its name from the first call that
went through it, its kind and content from the calls that added content to it.  So a path reads as
what was added to it (`readContentFromFile_run`), and `ls` is right
except for files whose node was created by `mkdir`, which it lists under the empty name.
-/
import SystemsDesign.DelimitedTokens
import SystemsDesign.PathTree

namespace TrieFileSystems

open PathTree WhitespaceTokens

/-! ## The file system -/

/-- The data members of `TrieNode` besides `children`, with the defaults of its constructor. -/
structure TrieNode where
  name : Text := []
  isFile : Bool := false
  content : Text := []
  deriving DecidableEq

/-- The data member of `FileSystem`. -/
structure FileSystem where
  root : NamedTree Text TrieNode

/-- The constructor. -/
def FileSystem.new : FileSystem where
  root := .node { name := ['/'] } []

/-- `split_filepath(path)`. -/
def splitFilepath (path : Text) : List Text := DelimitedTokens.tokens '/' path

/-- The keys of a `map`, in the order in which it is iterated. -/
def keys {τ : Type*} (children : List (Text × τ)) : List Text :=
  (children.map Prod.fst).toFinset.sort (· ≤ ·)

/-- What `addContentToFile` puts at component `i`, when `rest` is what follows it. -/
def newNode (parts rest : List Text) : TrieNode :=
  let i := parts.length - 1 - rest.length
  { name := parts.getD i [], isFile := i = parts.length - 1 }

/-- The last two lines of `addContentToFile`. -/
def addContent (content : Text) (node : TrieNode) : TrieNode :=
  { node with isFile := true, content := node.content ++ content }

namespace FileSystem

/-- `traverse_filepath(path)`; the null pointer is `none`. -/
def traverseFilepath (fs : FileSystem) (path : Text) : Option (NamedTree Text TrieNode) :=
  fs.root.find (splitFilepath path)

/-- `ls(path)`; `none` where it follows the null pointer. -/
def ls (fs : FileSystem) (path : Text) : Option (List Text) :=
  (fs.traverseFilepath path).map fun node =>
    if node.val.isFile then [node.val.name] else keys node.children

/-- `readContentFromFile(path)`; `none` where it follows the null pointer. -/
def readContentFromFile (fs : FileSystem) (path : Text) : Option Text :=
  (fs.traverseFilepath path).map fun node => node.val.content

/-- `mkdir(path)`. -/
def mkdir (fs : FileSystem) (path : Text) : FileSystem where
  root := fs.root.ensure (fun _ => {}) (splitFilepath path)

/-- `addContentToFile(path, content)`. -/
def addContentToFile (fs : FileSystem) (path content : Text) : FileSystem where
  root :=
    let parts := splitFilepath path
    (fs.root.ensure (newNode parts) parts).update (addContent content) parts

end FileSystem

/-- The calls that change the file system. -/
inductive Call where
  | mkdir (path : Text)
  | addContentToFile (path content : Text)
  deriving DecidableEq

/-- One call. -/
def exec (fs : FileSystem) : Call → FileSystem
  | .mkdir path => fs.mkdir path
  | .addContentToFile path content => fs.addContentToFile path content

/-- The file system after a sequence of calls. -/
def run (calls : List Call) : FileSystem := calls.foldl exec .new

/-! ## What the calls say about a path -/

namespace Call

/-- The components of the path of a call. -/
def parts : Call → List Text
  | mkdir path => splitFilepath path
  | addContentToFile path _ => splitFilepath path

/-- The call adds content to the path. -/
def addsTo (q : List Text) : Call → Bool
  | mkdir _ => false
  | addContentToFile path _ => splitFilepath path = q

/-- What the call adds to the path. -/
def added (q : List Text) : Call → Text
  | mkdir _ => []
  | addContentToFile path content => if splitFilepath path = q then content else []

/-- The name that the call gives to a node it creates on its way. -/
def nameFor (q : List Text) : Call → Text
  | mkdir _ => []
  | addContentToFile _ _ => q.getLast?.getD []

/-- The call is a `mkdir`. -/
def isMkdir : Call → Bool
  | mkdir _ => true
  | addContentToFile _ _ => false

end Call

/-- The first call that goes through a path, which creates its node. -/
def creator (calls : List Call) (q : List Text) : Option Call :=
  calls.find? fun c => q.isPrefixOf c.parts

/-- The node that a call makes of one, there or new. -/
def Call.touch (c : Call) (q : List Text) (node : TrieNode) : TrieNode :=
  { node with isFile := node.isFile || c.addsTo q, content := node.content ++ c.added q }

variable {fs : FileSystem} {c : Call} {calls : List Call} {q : List Text} {path : Text}
  {node : TrieNode}

/-! ## One call -/

/-- What `addContentToFile` creates at a component has its name. -/
theorem newNode_of_prefix {parts : List Text} (hq : q <+: parts) (hne : q ≠ []) :
    newNode parts (parts.drop q.length)
      = { name := q.getLast?.getD [], isFile := parts = q } := by
  have hpos : 0 < q.length := List.length_pos_iff.mpr hne
  have hle : q.length ≤ parts.length := hq.length_le
  have hi : parts.length - 1 - (parts.drop q.length).length = q.length - 1 := by
    rw [List.length_drop]
    omega
  have hname : parts.getD (q.length - 1) [] = q.getLast?.getD [] := by
    obtain ⟨rest, rfl⟩ := hq
    rw [List.getD_eq_getElem?_getD, List.getElem?_append_left (by omega), List.getLast?_eq_getElem?]
  have hfile : q.length - 1 = parts.length - 1 ↔ parts = q := by
    constructor
    · intro h
      exact (hq.eq_of_length (by omega)).symm
    · rintro rfl
      rfl
  simp only [newNode, hi, hname, hfile]

/-- **One call** goes through the prefixes of its path: it creates those that are missing and
touches them all. -/
theorem valAt_exec (fs : FileSystem) (c : Call) (hne : q ≠ []) :
    (exec fs c).root.valAt q = ((fs.root.valAt q).or
      (if q <+: c.parts then some { name := c.nameFor q } else none)).map (c.touch q) := by
  cases c with
  | mkdir path =>
    -- nothing is added to any path
    have hsame : (Call.mkdir path).touch q = id := by
      funext node
      simp [Call.touch, Call.addsTo, Call.added]
    rw [hsame, Option.map_id]
    exact valAt_ensure _ _ _ _
  | addContentToFile path content =>
    show ((fs.root.ensure _ _).update _ _).valAt q = _
    rw [valAt_update, valAt_ensure]
    by_cases hq : q = splitFilepath path
    · -- the end of the path
      have htouch : ∀ node : TrieNode,
          (Call.addContentToFile path content).touch q node = addContent content node := by
        intro node
        simp [Call.touch, Call.addsTo, Call.added, addContent, hq]
      rw [if_pos hq, if_pos (hq ▸ List.prefix_rfl), newNode_of_prefix (hq ▸ List.prefix_rfl) hne]
      show _ = Option.map _ ((fs.root.valAt q).or (if q <+: splitFilepath path then _ else none))
      rw [if_pos (hq ▸ List.prefix_rfl)]
      cases fs.root.valAt q with
      | none =>
        have hnew := htouch { name := (Call.addContentToFile path content).nameFor q }
        exact congrArg some hnew.symm
      | some node => exact congrArg some (htouch node).symm
    · have hsame : (Call.addContentToFile path content).touch q = id := by
        funext node
        simp [Call.touch, Call.addsTo, Call.added, Ne.symm hq]
      rw [if_neg hq, hsame, Option.map_id]
      by_cases hpre : q <+: splitFilepath path
      · rw [if_pos hpre, newNode_of_prefix hpre hne]
        simp [Call.parts, Call.nameFor, hpre, Ne.symm hq]
      · simp [Call.parts, hpre]

/-! ## All calls -/

theorem run_concat (calls : List Call) (c : Call) : run (calls ++ [c]) = exec (run calls) c := by
  unfold run
  rw [List.foldl_append]
  rfl

/-- The creator of a path, one call later. -/
theorem creator_concat (calls : List Call) (c : Call) (q : List Text) :
    creator (calls ++ [c]) q
      = (creator calls q).or (if q <+: c.parts then some c else none) := by
  unfold creator
  rw [List.find?_append, List.find?_singleton]
  simp only [List.isPrefixOf_iff_prefix]

theorem no_content_of_creator (h : creator calls q = none) :
    calls.any (Call.addsTo q) = false ∧ calls.flatMap (Call.added q) = [] := by
  have hnot : ∀ c ∈ calls, ¬ q <+: c.parts := by
    intro c hc hpre
    exact List.find?_eq_none.mp h c hc (List.isPrefixOf_iff_prefix.mpr hpre)
  have hadds : ∀ c ∈ calls, c.addsTo q = false ∧ c.added q = [] := by
    intro c hc
    have hc' := hnot c hc
    cases c with
    | mkdir path => exact ⟨rfl, rfl⟩
    | addContentToFile path content =>
      have hne : splitFilepath path ≠ q := by
        rintro rfl
        exact hc' List.prefix_rfl
      simp [Call.addsTo, Call.added, hne]
  constructor
  · rw [List.any_eq_false]
    intro c hc
    rw [(hadds c hc).1]
    decide
  · rw [List.flatMap_eq_nil_iff]
    exact fun c hc => (hadds c hc).2

/-- **A node is what the calls say:** its name is from the one that created it, and it is a file
with the content that has been added to it. -/
theorem valAt_run (calls : List Call) (hne : q ≠ []) :
    (run calls).root.valAt q = (creator calls q).map fun c =>
      { name := c.nameFor q
        isFile := calls.any (Call.addsTo q)
        content := calls.flatMap (Call.added q) } := by
  -- from the last call
  induction calls using List.reverseRecOn with
  | nil =>
    obtain ⟨k, q, rfl⟩ := List.exists_cons_of_ne_nil hne
    rfl
  | append_singleton calls c ih =>
    rw [run_concat, valAt_exec _ _ hne, ih, creator_concat]
    cases hcreator : creator calls q with
    | some first =>
      simp only [Option.map_some, Option.some_or, Call.touch, List.any_append, List.any_cons,
        List.any_nil, Bool.or_false, List.flatMap_append, List.flatMap_singleton]
    | none =>
      obtain ⟨hany, hcontent⟩ := no_content_of_creator hcreator
      simp only [Option.map_none, Option.none_or, List.any_append, hany, Bool.false_or,
        List.any_cons, List.any_nil, Bool.or_false, List.flatMap_append, hcontent,
        List.nil_append, List.flatMap_singleton]
      by_cases hpre : q <+: c.parts
      · simp [hpre, Call.touch]
      · simp [hpre]

/-- The root stays a directory as long as every path has a component. -/
theorem isFile_root (hcalls : ∀ c ∈ calls, c.parts ≠ []) :
    (run calls).root.val.isFile = false := by
  induction calls using List.reverseRecOn with
  | nil => rfl
  | append_singleton calls c ih =>
    have hc : c.parts ≠ [] := hcalls c (by simp)
    have hroot := ih fun d hd => hcalls d (List.mem_append_left _ hd)
    have hval : (exec (run calls) c).root.valAt [] = (run calls).root.valAt [] := by
      cases c with
      | mkdir path => exact valAt_ensure_of_some rfl _ _
      | addContentToFile path content =>
        have hne : [] ≠ splitFilepath path := Ne.symm hc
        show ((NamedTree.ensure _ _ _).update _ _).valAt [] = _
        rw [valAt_update, if_neg hne, valAt_ensure_of_some rfl]
        rfl
    rw [run_concat, ← hroot]
    exact congrArg TrieNode.isFile (Option.some.inj hval)

/-- **Reading.**  A path other than the root holds everything that has been added to it, in the
order of the calls; a directory holds nothing, and a path that no call went through is not there. -/
theorem readContentFromFile_run (calls : List Call) (hne : splitFilepath path ≠ []) :
    (run calls).readContentFromFile path
      = (creator calls (splitFilepath path)).map fun _ =>
          calls.flatMap (Call.added (splitFilepath path)) := by
  have hread : (run calls).readContentFromFile path
      = ((run calls).root.valAt (splitFilepath path)).map TrieNode.content := by
    unfold FileSystem.readContentFromFile FileSystem.traverseFilepath NamedTree.valAt
    rw [Option.map_map]
    rfl
  rw [hread, valAt_run calls hne, Option.map_map]
  rfl

theorem splitFilepath_slash_a : splitFilepath ['/', 'a'] = [['a']] := by
  rw [splitFilepath, DelimitedTokens.tokens_eq_runs]
  decide

theorem readContentFromFile_run_twice :
    (run [.addContentToFile ['/', 'a'] ['x'],
      .addContentToFile ['/', 'a'] ['y']]).readContentFromFile ['/', 'a'] = some ['x', 'y'] := by
  rw [readContentFromFile_run _ (by rw [splitFilepath_slash_a]; decide)]
  simp [creator, Call.added, Call.parts, splitFilepath_slash_a]

/-! ## Listing -/

/-- What `ls` of a directory is for: the names of the children, strictly increasing. -/
structure ListsChildren (fs : FileSystem) (path : Text) (names : List Text) : Prop where
  increasing : names.Pairwise (· < ·)
  mem_iff : ∀ name, name ∈ names ↔ (fs.root.valAt (splitFilepath path ++ [name])).isSome

/-- `ls` answers as it should: with the last component for what has got content, and with the names
of the children otherwise. -/
def ListsRight (calls : List Call) (path : Text) : Prop :=
  if ∃ c ∈ calls, c.addsTo (splitFilepath path) = true then
    ∃ last, (splitFilepath path).getLast? = some last ∧ (run calls).ls path = some [last]
  else ∃ names, (run calls).ls path = some names ∧ ListsChildren (run calls) path names

theorem listsChildren_keys {t : NamedTree Text TrieNode} (ht : fs.traverseFilepath path = some t) :
    ListsChildren fs path (keys t.children) := by
  constructor
  · exact (Finset.sortedLT_sort _).pairwise
  · intro name
    unfold keys
    rw [isSome_valAt_concat ht, Finset.mem_sort, List.mem_toFinset]

theorem ne_nil_of_mem_split {part : Text} (h : part ∈ splitFilepath path) : part ≠ [] := by
  unfold splitFilepath DelimitedTokens.tokens at h
  exact of_decide_eq_true (List.mem_filter.mp h).2

/-- The name of a node is its last component exactly if it was not created by `mkdir`. -/
theorem nameFor_eq_iff {last : Text} (hlast : (splitFilepath path).getLast? = some last) :
    c.nameFor (splitFilepath path) = last ↔ c.isMkdir = false := by
  cases c with
  | mkdir p =>
    refine iff_of_false ?_ (by simp [Call.isMkdir])
    exact (ne_nil_of_mem_split (List.mem_of_getLast? hlast)).symm
  | addContentToFile p content =>
    refine iff_of_true ?_ rfl
    show (splitFilepath path).getLast?.getD [] = last
    rw [hlast, Option.getD_some]

variable {t : NamedTree Text TrieNode}

theorem valAt_of_traverse (ht : fs.traverseFilepath path = some t) :
    fs.root.valAt (splitFilepath path) = some t.val :=
  congrArg (Option.map NamedTree.val) ht

theorem split_ne_nil_of_addsTo (hcalls : ∀ c ∈ calls, c.parts ≠ [])
    (h : ∃ c ∈ calls, c.addsTo (splitFilepath path) = true) : splitFilepath path ≠ [] := by
  obtain ⟨c, hc, hadds⟩ := h
  cases c with
  | mkdir p => cases hadds
  | addContentToFile p content =>
    have heq : splitFilepath p = splitFilepath path := of_decide_eq_true hadds
    rw [← heq]
    exact hcalls _ hc

theorem isFile_iff (hcalls : ∀ c ∈ calls, c.parts ≠ [])
    (ht : (run calls).traverseFilepath path = some t) :
    t.val.isFile = true ↔ ∃ c ∈ calls, c.addsTo (splitFilepath path) = true := by
  have hval := valAt_of_traverse ht
  by_cases hne : splitFilepath path = []
  · -- the root
    rw [hne] at hval
    refine iff_of_false ?_ fun h => split_ne_nil_of_addsTo hcalls h hne
    rw [← Option.some.inj hval, isFile_root hcalls]
    decide
  · rw [valAt_run calls hne, Option.map_eq_some_iff] at hval
    obtain ⟨first, -, hnode⟩ := hval
    rw [← hnode]
    exact List.any_eq_true

theorem exists_creator (hne : splitFilepath path ≠ [])
    (ht : (run calls).traverseFilepath path = some t) :
    ∃ first, creator calls (splitFilepath path) = some first ∧
      t.val.name = first.nameFor (splitFilepath path) := by
  have hval := valAt_of_traverse ht
  rw [valAt_run calls hne, Option.map_eq_some_iff] at hval
  obtain ⟨first, hfirst, hnode⟩ := hval
  exact ⟨first, hfirst, by rw [← hnode]⟩

/-- **When `ls` is right.**  For calls on paths with at least one component, `ls` of a path that
exists answers as it should if and only if the path is not one that has got content and whose node
was created by `mkdir`. -/
theorem listsRight_iff (calls : List Call) (hcalls : ∀ c ∈ calls, c.parts ≠ []) (path : Text)
    (hpath : ((run calls).traverseFilepath path).isSome) :
    ListsRight calls path ↔ ¬ ((∃ c ∈ calls, c.addsTo (splitFilepath path) = true) ∧
      ∃ c, creator calls (splitFilepath path) = some c ∧ c.isMkdir = true) := by
  obtain ⟨t, ht⟩ := Option.isSome_iff_exists.mp hpath
  have hls : (run calls).ls path
      = some (if t.val.isFile then [t.val.name] else keys t.children) := by
    unfold FileSystem.ls
    rw [ht, Option.map_some]
  unfold ListsRight
  rw [hls]
  by_cases hadded : ∃ c ∈ calls, c.addsTo (splitFilepath path) = true
  · -- a file: its name is right unless it was created by `mkdir`
    have hne := split_ne_nil_of_addsTo hcalls hadded
    obtain ⟨first, hfirst, hname⟩ := exists_creator hne ht
    obtain ⟨last, hlast⟩ : ∃ last, (splitFilepath path).getLast? = some last :=
      ⟨_, List.getLast?_eq_some_getLast hne⟩
    have hmkdir := @nameFor_eq_iff first path last hlast
    rw [if_pos hadded, if_pos ((isFile_iff hcalls ht).mpr hadded), hname, hfirst, hlast]
    simp only [Option.some.injEq, exists_eq_left', List.cons.injEq, and_true, hmkdir, hadded,
      true_and, Bool.not_eq_true]
  · -- a directory
    rw [if_neg hadded, if_neg fun hfile => hadded ((isFile_iff hcalls ht).mp hfile)]
    exact iff_of_true ⟨_, rfl, listsChildren_keys ht⟩ fun h => hadded h.1

/-- A directory that gets content is listed as a file without a name. -/
theorem ls_of_mkdir_then_content :
    ∃ calls path, (∀ c ∈ calls, c.parts ≠ []) ∧ ((run calls).traverseFilepath path).isSome ∧
      (run calls).ls path = some [[]] ∧ ¬ ListsRight calls path := by
  refine ⟨[.mkdir ['/', 'a'], .addContentToFile ['/', 'a'] ['x']], ['/', 'a'], ?_⟩
  have hls : (run [.mkdir ['/', 'a'], .addContentToFile ['/', 'a'] ['x']]).ls ['/', 'a']
      = some [[]] := by
    simp only [FileSystem.ls, FileSystem.traverseFilepath, run, List.foldl_cons, List.foldl_nil,
      exec, FileSystem.mkdir, FileSystem.addContentToFile, splitFilepath_slash_a]
    rfl
  have hright : ¬ ListsRight [.mkdir ['/', 'a'], .addContentToFile ['/', 'a'] ['x']]
      ['/', 'a'] := by
    unfold ListsRight
    rw [if_pos ⟨_, List.mem_cons_of_mem _ List.mem_cons_self, decide_eq_true rfl⟩, hls,
      splitFilepath_slash_a]
    rintro ⟨last, hlast, heq⟩
    obtain rfl : ['a'] = last := Option.some.inj hlast
    cases heq
  refine ⟨?_, ?_, hls, hright⟩
  · simp [Call.parts, splitFilepath_slash_a]
  · have hsome := congrArg Option.isSome hls
    rwa [FileSystem.ls, Option.isSome_map] at hsome

/-- A file that `addContentToFile` creates is listed by its name. -/
theorem listsRight_of_content : ListsRight [.addContentToFile ['/', 'a'] ['x']] ['/', 'a'] := by
  refine (listsRight_iff [.addContentToFile ['/', 'a'] ['x']] ?_ ['/', 'a'] ?_).mpr ?_
  · simp [Call.parts, splitFilepath_slash_a]
  · simp only [FileSystem.traverseFilepath, run, List.foldl_cons, List.foldl_nil, exec,
      FileSystem.addContentToFile, splitFilepath_slash_a]
    rfl
  · rintro ⟨-, c, hc, hmkdir⟩
    rw [creator, splitFilepath_slash_a] at hc
    obtain rfl := List.mem_singleton.mp (List.mem_of_find?_eq_some hc)
    cases hmkdir

end TrieFileSystems
