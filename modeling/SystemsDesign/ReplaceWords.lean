/-
# Replacing words by their roots

Model of `Trie/replace_with_shortest_dictionary_prefix.cpp`.  The words of a dictionary are put into
a trie, and every word of a sentence is walked along in it: at the first node where a word of the
dictionary ends, that word takes its place; if there is no further node, the word is kept.

The trie has the prefixes of the dictionary as its nodes and marks the words among them (`Roots`),
so that the walk finds the shortest word of the dictionary, never a partial path (`findRoot_spec`).
-/
import SystemsDesign.AlphabetTrie
import SystemsDesign.RecordStreams
import SystemsDesign.TransitionSystem

namespace ReplaceWords

open AlphabetTrie PathTree NamedTree RecordStreams TransitionSystem WhitespaceTokens

/-! ## The trie -/

/-- `insert(word)`; the value of a node is its `isLeaf`. -/
def insert (trie : Trie Bool) (word : Text) : Option (Trie Bool) :=
  insertWord false id (fun _ => true) trie word

/-- The loop of `findRoot(word)`, at the node `p`, with the letters of `result` behind it. -/
def findRootFrom (word : Text) : Trie Bool → Text → Text → Option Text
  -- no shorter prefix found in ALL paths, return original word
  | _, _, [] => some word
  | p, result, ch :: rest =>
    if inAlphabet ch then
      match p.child ch with
      -- no shorter prefix found in this path, return original word
      | none => some word
      | some p =>
        -- shorter prefix found, return prefix
        if p.val then some (result ++ [ch]) else findRootFrom word p (result ++ [ch]) rest
    else none

/-- `findRoot(word)`. -/
def findRoot (trie : Trie Bool) (word : Text) : Option Text := findRootFrom word trie [] word

/-- The loop body of `replaceWords` puts a blank between what there is and the next word. -/
def append (result root : Text) : Text := (if result = [] then result else result ++ [' ']) ++ root

/-- `replaceWords(dictionary, sentence)`: the result, and the trie with the dictionary in it. -/
def replaceWords (trie : Trie Bool) (dictionary : List Text) (sentence : Text) :
    Option (Text × Trie Bool) := do
  let trie ← run insert trie dictionary
  let result ← (wordReader.all sentence).foldlM
    (fun result word => (findRoot trie word).map (append result)) []
  return (result, trie)

/-! ## The dictionary in the trie -/

/-- The nodes are the prefixes of the words, and those of the words are marked. -/
structure Roots (trie : Trie Bool) (dictionary : List Text) : Prop where
  isSome_iff : ∀ q, (trie.valAt q).isSome ↔ q = [] ∨ ∃ word ∈ dictionary, q <+: word
  marked_iff : ∀ q, trie.valAt q = some true ↔ q ∈ dictionary

variable {trie : Trie Bool} {dictionary : List Text} {word : Text}

theorem roots_create : Roots (create false) [] := by
  constructor
  · intro q
    rw [valAt_create]
    by_cases hnil : q = [] <;> simp [hnil]
  · intro q
    rw [valAt_create]
    by_cases hnil : q = [] <;> simp [hnil]

/-- **A word is inserted.** -/
theorem Roots.insert (h : Roots trie dictionary) (hword : Lowercase word) :
    ∃ trie', insert trie word = some trie' ∧ Roots trie' (dictionary ++ [word]) := by
  refine ⟨trie.walk false id (fun _ => true) word, if_pos hword, fun q => ?_, fun q => ?_⟩
  · rw [valAt_walk]
    split_ifs with hpre
    · exact iff_of_true rfl (Or.inr ⟨word, List.mem_append_right _ (List.mem_singleton_self word),
        hpre⟩)
    · rw [h.isSome_iff]
      simp [hpre, or_and_right, exists_or]
  · have hmem : q ∈ dictionary ++ [word] ↔ q = word ∨ trie.valAt q = some true := by
      rw [h.marked_iff, List.mem_append, List.mem_singleton, or_comm]
    rw [hmem, valAt_walk]
    by_cases hpre : q <+: word
    · rw [if_pos hpre, Option.some_inj, touched]
      by_cases hq : q = word
      · simp [hq]
      · cases trie.valAt q <;> simp [hq]
    · have hq : q ≠ word := by
        rintro rfl
        exact hpre List.prefix_rfl
      rw [if_neg hpre, or_iff_right hq]

theorem Roots.insertAll (h : Roots trie dictionary) {words : List Text}
    (hwords : ∀ word ∈ words, Lowercase word) :
    ∃ trie', run ReplaceWords.insert trie words = some trie' ∧
      Roots trie' (dictionary ++ words) := by
  induction words generalizing trie dictionary with
  | nil => exact ⟨trie, rfl, by rwa [List.append_nil]⟩
  | cons word words ih =>
    obtain ⟨hword, hwords⟩ := List.forall_mem_cons.mp hwords
    obtain ⟨trie₁, hinsert, h₁⟩ := h.insert hword
    obtain ⟨trie', hrun, h'⟩ := ih h₁ hwords
    refine ⟨trie', ?_, ?_⟩
    · rw [run_cons, hinsert]
      exact hrun
    · rwa [List.append_assoc, List.singleton_append] at h'

/-! ## The walk -/

/-- What a word has to be replaced by: the shortest word of the dictionary that is a prefix of it,
other than the empty one, or itself if there is none. -/
def IsReplacement (dictionary : List Text) (word root : Text) : Prop :=
  (root ∈ dictionary ∧ root ≠ [] ∧ root <+: word ∧
    ∀ other ∈ dictionary, other ≠ [] → other <+: word → root.length ≤ other.length) ∨
  (root = word ∧ ∀ other ∈ dictionary, other ≠ [] → ¬ other <+: word)

theorem concat_prefix_of_length_lt {done rest other : Text} {ch : Char}
    (h : other <+: done ++ ch :: rest) (hlen : done.length < other.length) :
    done ++ [ch] <+: other := by
  refine List.prefix_of_prefix_length_le ?_ h ?_
  · exact ⟨rest, by rw [List.append_assoc, List.singleton_append]⟩
  · rw [List.length_append, List.length_singleton]
    exact hlen

/-- **The walk**, at a node below which no word of the dictionary has ended yet. -/
theorem findRootFrom_spec (h : Roots trie dictionary) {done rest : Text} {p : Trie Bool}
    (hword : done ++ rest = word) (hlower : Lowercase rest) (hp : trie.find done = some p)
    (hlonger : ∀ other ∈ dictionary, other ≠ [] → other <+: word → done.length < other.length) :
    ∃ root, findRootFrom word p done rest = some root ∧ IsReplacement dictionary word root := by
  induction rest generalizing done p with
  | nil =>
    rw [List.append_nil] at hword
    refine ⟨word, rfl, Or.inr ⟨rfl, fun other hmem hne hpre => ?_⟩⟩
    have hlt := hlonger other hmem hne hpre
    rw [hword] at hlt
    exact absurd hpre.length_le hlt.not_ge
  | cons ch rest ih =>
    obtain ⟨hch, hlower⟩ := lowercase_cons.mp hlower
    have hnext : trie.find (done ++ [ch]) = p.child ch := by
      rw [find_concat, hp, Option.bind_some]
    -- a word of the dictionary that is left goes through the next letter
    have hthrough : ∀ other ∈ dictionary, other ≠ [] → other <+: word → done ++ [ch] <+: other :=
      fun other hmem hne hpre => concat_prefix_of_length_lt (hword.symm ▸ hpre)
        (hlonger other hmem hne hpre)
    rw [findRootFrom, if_pos hch]
    cases hc : p.child ch with
    | none =>
      refine ⟨word, rfl, Or.inr ⟨rfl, fun other hmem hne hpre => ?_⟩⟩
      have hsome : (trie.valAt (done ++ [ch])).isSome :=
        (h.isSome_iff _).mpr (Or.inr ⟨other, hmem, hthrough other hmem hne hpre⟩)
      rw [valAt, hnext, hc] at hsome
      cases hsome
    | some c =>
      have hval : trie.valAt (done ++ [ch]) = some c.val := by
        rw [valAt, hnext, hc, Option.map_some]
      dsimp only
      cases hleaf : c.val with
      | true =>
        rw [hleaf] at hval
        refine ⟨done ++ [ch], if_pos rfl, Or.inl ⟨(h.marked_iff _).mp hval, by simp, ?_, ?_⟩⟩
        · exact ⟨rest, by rw [← hword, List.append_assoc, List.singleton_append]⟩
        · exact fun other hmem hne hpre => (hthrough other hmem hne hpre).length_le
      | false =>
        rw [hleaf] at hval
        rw [if_neg Bool.false_ne_true]
        refine ih (by rw [List.append_assoc, List.singleton_append, hword]) hlower
          (hnext.trans hc) fun other hmem hne hpre => ?_
        -- the node is not that of a word
        have hle := (hthrough other hmem hne hpre).length_le
        refine lt_of_le_of_ne hle fun heq => ?_
        have hother := (hthrough other hmem hne hpre).eq_of_length heq
        have hmarked := (h.marked_iff (done ++ [ch])).mpr (hother ▸ hmem)
        rw [hval] at hmarked
        cases hmarked

/-- **A word is replaced by its shortest root.** -/
theorem findRoot_spec (h : Roots trie dictionary) (hword : Lowercase word) :
    ∃ root, findRoot trie word = some root ∧ IsReplacement dictionary word root :=
  findRootFrom_spec h rfl hword rfl fun _ _ hne _ => List.length_pos_of_ne_nil hne

/-! ## The sentence -/

theorem IsReplacement.ne_nil {root : Text} (h : IsReplacement dictionary word root)
    (hword : word ≠ []) : root ≠ [] := by
  rcases h with ⟨-, hne, -⟩ | ⟨rfl, -⟩
  · exact hne
  · exact hword

theorem ne_nil_of_forall₂ {words roots : List Text}
    (h : List.Forall₂ (IsReplacement dictionary) words roots) (hwords : ∀ word ∈ words, word ≠ []) :
    ∀ root ∈ roots, root ≠ [] := by
  induction h with
  | nil => exact hwords
  | cons hroot _ ih =>
    obtain ⟨hword, hwords⟩ := List.forall_mem_cons.mp hwords
    exact List.forall_mem_cons.mpr ⟨hroot.ne_nil hword, ih hwords⟩

/-- The loop over the words, with something in the result: each word is put behind a blank. -/
theorem foldl_append_of_ne_nil {result : Text} (hresult : result ≠ []) (roots : List Text) :
    roots.foldl append result = result ++ roots.flatMap (' ' :: ·) := by
  induction roots generalizing result with
  | nil => simp
  | cons root roots ih =>
    have happend : append result root = result ++ ' ' :: root := by
      rw [append, if_neg hresult, List.append_assoc, List.singleton_append]
    rw [List.foldl_cons, happend, ih (by simp), List.flatMap_cons, List.append_assoc]

theorem intercalate_cons (root : Text) (roots : List Text) :
    [' '].intercalate (root :: roots) = root ++ roots.flatMap (' ' :: ·) := by
  induction roots generalizing root with
  | nil => simp [List.intercalate]
  | cons next roots ih =>
    rw [List.intercalate_cons_cons, ih, List.flatMap_cons, List.append_assoc]
    rfl

/-- The loop over the words joins them with single blanks. -/
theorem foldl_append_eq_intercalate {roots : List Text} (hroots : ∀ root ∈ roots, root ≠ []) :
    roots.foldl append [] = [' '].intercalate roots := by
  cases roots with
  | nil => rfl
  | cons root roots =>
    rw [List.foldl_cons, intercalate_cons, append, if_pos rfl, List.nil_append,
      foldl_append_of_ne_nil (hroots root List.mem_cons_self)]

/-- The loop over the words finds the replacement of each. -/
theorem foldlM_findRoot (h : Roots trie dictionary) {words : List Text}
    (hwords : ∀ word ∈ words, Lowercase word) (result : Text) :
    ∃ roots, words.foldlM (fun result word => (findRoot trie word).map (append result)) result
        = some (roots.foldl append result) ∧
      List.Forall₂ (IsReplacement dictionary) words roots := by
  induction words generalizing result with
  | nil => exact ⟨[], rfl, List.Forall₂.nil⟩
  | cons word words ih =>
    obtain ⟨hword, hwords⟩ := List.forall_mem_cons.mp hwords
    obtain ⟨root, hfind, hroot⟩ := findRoot_spec h hword
    obtain ⟨roots, hfold, hroots⟩ := ih hwords (append result root)
    refine ⟨root :: roots, ?_, List.Forall₂.cons hroot hroots⟩
    rw [List.foldlM_cons, hfind]
    exact hfold

/-- **Words are replaced by their shortest roots.**  With a dictionary of lowercase words and a
sentence of lowercase words between any white space, the result is the words in order, joined by
single blanks, each of them replaced by its shortest root or kept. -/
theorem replaceWords_correct {dictionary : List Text} {sentence : Text}
    (hdictionary : ∀ word ∈ dictionary, Lowercase word)
    (hsentence : ∀ ch ∈ sentence, inAlphabet ch = true ∨ isSpace ch = true) :
    ∃ trie roots,
      replaceWords (create false) dictionary sentence = some ([' '].intercalate roots, trie) ∧
        List.Forall₂ (IsReplacement dictionary) (wordsOf sentence) roots := by
  obtain ⟨trie, hrun, htrie⟩ := roots_create.insertAll hdictionary
  rw [List.nil_append] at htrie
  have hlower : ∀ word ∈ wordsOf sentence, Lowercase word := by
    intro word hmem ch hch
    obtain ⟨hword, hchars⟩ := isWord_of_mem_wordsOf hmem
    refine (hsentence ch (hchars ch hch)).resolve_right fun hspace => ?_
    rw [hword.2 ch hch] at hspace
    cases hspace
  obtain ⟨roots, hfold, hroots⟩ := foldlM_findRoot htrie hlower []
  have hne : ∀ root ∈ roots, root ≠ [] :=
    ne_nil_of_forall₂ hroots fun word hmem => (isWord_of_mem_wordsOf hmem).1.1
  refine ⟨trie, roots, ?_, hroots⟩
  rw [replaceWords, hrun, wordReader_all_eq]
  rw [foldl_append_eq_intercalate hne] at hfold
  simp [hfold]

/-- A dictionary with two roots of one word, and a sentence with more white space than it needs. -/
theorem replaceWords_correct_roots :
    (∀ word ∈ ["cat".toList, "ca".toList, "bat".toList], Lowercase word) ∧
      ∃ trie roots,
        replaceWords (create false) ["cat".toList, "ca".toList, "bat".toList]
            " the  cattle ba\n".toList = some ([' '].intercalate roots, trie) ∧
          List.Forall₂ (IsReplacement ["cat".toList, "ca".toList, "bat".toList])
            (wordsOf " the  cattle ba\n".toList) roots := by
  have hchars : " the  cattle ba\n".toList.all (fun ch => inAlphabet ch || isSpace ch) = true := by
    decide
  refine ⟨by decide, replaceWords_correct (by decide) fun ch hch => ?_⟩
  simpa using List.all_eq_true.mp hchars ch hch

end ReplaceWords
