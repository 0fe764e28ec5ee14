/-
# The trie that counts words

Model of `Trie/prefix_tree_with_frequency.cpp`.  Every node counts the words that go through it and
those that end at it; an insertion adds one along the path of the word, and an erasure takes one
away and leaves the nodes.

After every history the counters are the tallies of the multiset of stored words (`Counts`),
although each of them is changed by the words of many different paths.
-/
import SystemsDesign.AlphabetTrie
import SystemsDesign.TransitionSystem

namespace CountingTrie

open AlphabetTrie PathTree NamedTree TransitionSystem WhitespaceTokens

/-! ## The trie -/

/-- The counters of a node. -/
@[ext]
structure Counters where
  wordCount : ℤ := 0
  prefixCount : ℤ := 0
  deriving DecidableEq, Repr

/-- `prefixCount++`, or `--`. -/
def addPrefix (n : ℤ) (c : Counters) : Counters := { c with prefixCount := c.prefixCount + n }

/-- `wordCount++`, or `--`. -/
def addWord (n : ℤ) (c : Counters) : Counters := { c with wordCount := c.wordCount + n }

/-- `findNode(word)`; the null pointer is `none` inside. -/
def findNode : Trie Counters → Text → Option (Option (Trie Counters))
  | p, [] => some (some p)
  | p, ch :: word =>
    if inAlphabet ch then
      match p.child ch with
      | none => some none
      | some c => findNode c word
    else none

/-- `countWordsEqualTo(word)`. -/
def countWordsEqualTo (trie : Trie Counters) (word : Text) : Option ℤ :=
  (findNode trie word).map fun
    | none => 0
    | some p => p.val.wordCount

/-- `countWordsStartingWith(prefix)`. -/
def countWordsStartingWith (trie : Trie Counters) (initial : Text) : Option ℤ :=
  (findNode trie initial).map fun
    | none => 0
    | some p => p.val.prefixCount

/-- `insert(word)`. -/
def insert (trie : Trie Counters) (word : Text) : Option (Trie Counters) :=
  insertWord {} (addPrefix 1) (addWord 1) trie word

/-- `erase(word)`, which goes through the children without looking whether they are there. -/
def erase (trie : Trie Counters) (word : Text) : Option (Trie Counters) :=
  if Lowercase word then trie.walkExisting (addPrefix (-1)) (addWord (-1)) word else none

/-- The calls that change the trie. -/
inductive Op where
  | insert (word : Text)
  | erase (word : Text)
  deriving DecidableEq, Repr

/-- One call. -/
def step (trie : Trie Counters) : Op → Option (Trie Counters)
  | .insert word => insert trie word
  | .erase word => erase trie word

/-! ## The words -/

/-- What the calls do to the multiset of stored words. -/
def apply (stored : Multiset Text) : Op → Multiset Text
  | .insert word => word ::ₘ stored
  | .erase word => stored.erase word

/-- A call with a lowercase word; only a stored word is erased. -/
def Allowed (stored : Multiset Text) : Op → Prop
  | .insert word => Lowercase word
  | .erase word => Lowercase word ∧ word ∈ stored

instance (stored : Multiset Text) (op : Op) : Decidable (Allowed stored op) := by
  cases op <;> unfold Allowed <;> infer_instance

/-- What the node at `q` has to count. -/
def tally (stored : Multiset Text) (q : Text) : Counters where
  wordCount := stored.count q
  prefixCount := if q = [] then 0 else stored.countP (q <+: ·)

/-- The counters of all nodes are right; a missing node counts nothing. -/
def Counts (trie : Trie Counters) (stored : Multiset Text) : Prop :=
  ∀ q, (trie.valAt q).getD {} = tally stored q

variable {trie : Trie Counters} {stored : Multiset Text}

/-- What a walk that adds `n` to the counters does to those at a prefix of its word. -/
theorem touched_eq (n : ℤ) (word q : Text) (c : Counters) :
    touched (addPrefix n) (addWord n) word q c =
      { wordCount := c.wordCount + if q = word then n else 0
        prefixCount := c.prefixCount + if q = [] then 0 else n } := by
  rw [touched]
  by_cases hnil : q = []
  · rw [if_pos hnil, if_pos hnil, add_zero]
    split_ifs
    · rfl
    · rw [add_zero]
  · rw [if_neg hnil, if_neg hnil]
    split_ifs
    · rfl
    · rw [add_zero]
      rfl

theorem tally_cons (word : Text) (stored : Multiset Text) (q : Text) :
    tally (word ::ₘ stored) q =
      if q <+: word then touched (addPrefix 1) (addWord 1) word q (tally stored q)
      else tally stored q := by
  by_cases hpre : q <+: word
  · rw [if_pos hpre, touched_eq, tally, tally, Multiset.count_cons,
      Multiset.countP_cons_of_pos _ hpre]
    refine Counters.ext ?_ ?_
    · dsimp only
      push_cast
      rfl
    · dsimp only
      by_cases hnil : q = []
      · rw [if_pos hnil, if_pos hnil, if_pos hnil, add_zero]
      · rw [if_neg hnil, if_neg hnil, if_neg hnil]
        push_cast
        rfl
  · have hword : q ≠ word := by
      rintro rfl
      exact hpre List.prefix_rfl
    rw [if_neg hpre, tally, tally, Multiset.count_cons_of_ne hword,
      Multiset.countP_cons_of_neg _ hpre]

theorem touched_touched (word q : Text) (c : Counters) :
    touched (addPrefix (-1)) (addWord (-1)) word q (touched (addPrefix 1) (addWord 1) word q c)
      = c := by
  rw [touched_eq, touched_eq]
  refine Counters.ext ?_ ?_
  · dsimp only
    split_ifs <;> omega
  · dsimp only
    split_ifs <;> omega

/-! ## The calls -/

theorem counts_create : Counts (create {}) 0 := by
  intro q
  rw [valAt_create, tally, Multiset.count_zero, Multiset.countP_zero]
  by_cases hnil : q = []
  · rw [if_pos hnil, if_pos hnil]
    rfl
  · rw [if_neg hnil, if_neg hnil]
    rfl

/-- **Insertion.** -/
theorem Counts.insert (h : Counts trie stored) {word : Text} (hword : Lowercase word) :
    ∃ trie', insert trie word = some trie' ∧ Counts trie' (word ::ₘ stored) := by
  refine ⟨trie.walk {} (addPrefix 1) (addWord 1) word, if_pos hword, fun q => ?_⟩
  rw [valAt_walk, tally_cons, ← h q]
  split_ifs
  · rfl
  · rfl

/-- **Erasure of a stored word.** -/
theorem Counts.erase (h : Counts trie stored) {word : Text} (hword : Lowercase word)
    (hmem : word ∈ stored) :
    ∃ trie', erase trie word = some trie' ∧ Counts trie' (stored.erase word) := by
  -- the node of a stored word is there, since it counts the word
  have hsome : (trie.valAt word).isSome := by
    by_contra hnone
    rw [Option.not_isSome_iff_eq_none] at hnone
    have hcount := congrArg Counters.wordCount (h word)
    rw [hnone] at hcount
    have hpos := Multiset.count_pos.mpr hmem
    have hzero : (0 : ℤ) = stored.count word := hcount
    omega
  refine ⟨trie.walk {} (addPrefix (-1)) (addWord (-1)) word, ?_, fun q => ?_⟩
  · rw [CountingTrie.erase, if_pos hword, walkExisting_of_isSome {} _ _ hsome]
  · obtain ⟨rest, rfl⟩ := Multiset.exists_cons_of_mem hmem
    have hq := h q
    rw [tally_cons] at hq
    rw [Multiset.erase_cons_head, valAt_walk]
    split_ifs at hq ⊢
    · rw [Option.getD_some, hq, touched_touched]
    · exact hq

/-- **One call** keeps the counters right. -/
theorem Counts.step (h : Counts trie stored) {op : Op} (hop : Allowed stored op) :
    ∃ trie', step trie op = some trie' ∧ Counts trie' (apply stored op) := by
  cases op with
  | insert word => exact h.insert hop
  | erase word => exact h.erase hop.1 hop.2

/-- In lowercase words, `findNode` is the search in the tree. -/
theorem findNode_eq {word : Text} (hword : Lowercase word) (trie : Trie Counters) :
    findNode trie word = some (trie.find word) := by
  induction word generalizing trie with
  | nil => rfl
  | cons ch word ih =>
    obtain ⟨hch, hword⟩ := lowercase_cons.mp hword
    rw [findNode, if_pos hch, find]
    cases trie.child ch with
    | none => rfl
    | some c => exact ih hword c

theorem count_eq (h : Counts trie stored) {word : Text} (hword : Lowercase word) :
    countWordsEqualTo trie word = some (tally stored word).wordCount ∧
      countWordsStartingWith trie word = some (tally stored word).prefixCount := by
  rw [countWordsEqualTo, countWordsStartingWith, findNode_eq hword, ← h word, valAt]
  cases trie.find word with
  | none => exact ⟨rfl, rfl⟩
  | some p => exact ⟨rfl, rfl⟩

/-- **The trie is the multiset of its words.**  After every sequence of calls with lowercase words
that erases only words that are there, the counts are those of the multiset. -/
theorem countingTrie_refines {ops : List Op} (h : Throughout apply Allowed 0 ops) :
    ∃ trie, run step (create {}) ops = some trie ∧
      (∀ word, Lowercase word →
        countWordsEqualTo trie word = some ((ops.foldl apply 0).count word : ℤ)) ∧
      ∀ initial, Lowercase initial → initial ≠ [] →
        countWordsStartingWith trie initial
          = some (((ops.foldl apply 0).filter (initial <+: ·)).card : ℤ) := by
  obtain ⟨trie, hrun, hcounts⟩ := @run_refines_along _ _ _ step apply Counts Allowed
    (fun _ _ _ hcounts hop => hcounts.step hop) _ _ counts_create _ h
  refine ⟨trie, hrun, fun word hword => (count_eq hcounts hword).1, fun initial hlower hne => ?_⟩
  rw [(count_eq hcounts hlower).2, tally, if_neg hne, Multiset.countP_eq_card_filter]

/-- Two words with a common prefix, one of them twice, and an erasure. -/
theorem countingTrie_refines_apple :
    let ops := [Op.insert "apple".toList, .insert "app".toList, .insert "apple".toList,
      .erase "apple".toList]
    Throughout apply Allowed 0 ops ∧
      ∃ trie, run step (create {}) ops = some trie ∧
        countWordsEqualTo trie "apple".toList = some 1 ∧
        countWordsStartingWith trie "app".toList = some 2 := by
  have hops : Throughout apply Allowed 0 [Op.insert "apple".toList, .insert "app".toList,
      .insert "apple".toList, .erase "apple".toList] := by
    simp only [throughout_cons, throughout_nil]
    decide
  obtain ⟨trie, hrun, hequal, hstarting⟩ := countingTrie_refines hops
  refine ⟨hops, trie, hrun, (hequal _ (by decide)).trans ?_,
    (hstarting _ (by decide) (by decide)).trans ?_⟩
  · decide
  · decide

end CountingTrie
