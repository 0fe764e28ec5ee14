/-
# Autocomplete

Model of `Trie/search_AutoComplete.cpp`.  The sentences are stored once; every node of the trie
keeps the numbers of at most three of the sentences that go through it.  They are inserted one by
one: a sentence is added at each node of its path, the list there is sorted, and if it has become
too long its last entry is dropped for good.

What a node keeps leads all the sentences that have gone through it (`Ranked`), and so what is
offered for a prefix are the first three of all matching sentences in order (`input_correct`).
-/
import SystemsDesign.ComparatorAlgorithms
import SystemsDesign.TopSelection
import SystemsDesign.TrieWalks
import SystemsDesign.WhitespaceTokens

namespace AutocompleteSystem

open ComparatorAlgorithms PathTree NamedTree TopSelection WhitespaceTokens

/-! ## The system -/

/-- A sentence and how often it was used. -/
structure Sentence where
  text : Text
  frequency : ℤ
  deriving DecidableEq, Repr

/-- The number of sentences a node keeps. -/
def K : ℕ := 3

/-- `better(a, b)`, for the numbers of two sentences. -/
def better (sentences : List Sentence) (a b : Fin sentences.length) : Prop :=
  if (sentences.get a).frequency ≠ (sentences.get b).frequency
  then (sentences.get a).frequency > (sentences.get b).frequency
  else (sentences.get a).text < (sentences.get b).text

/-- A trie whose nodes have their lists `topK`. -/
abbrev Trie (sentences : List Sentence) := NamedTree Char (List (Fin sentences.length))

variable {sentences : List Sentence}

/-- `update(node, id)`, for the list of the node. -/
def update (S : Sorter (better sentences)) (id : Fin sentences.length)
    (topK : List (Fin sentences.length)) : List (Fin sentences.length) :=
  let sorted := S.sort (topK ++ [id])
  if sorted.length > K then sorted.dropLast else sorted

/-- `insert(id)`. -/
def insert (S : Sorter (better sentences)) (root : Trie sentences) (id : Fin sentences.length) :
    Trie sentences :=
  root.walk [] (update S id) (fun topK => topK) (sentences.get id).text

/-- The first loop of the constructor: the sentences with their frequencies, of which there have to
be enough. -/
def store (s : List Text) (f : List ℤ) (h : s.length ≤ f.length) : List Sentence :=
  List.ofFn fun i : Fin s.length => ⟨s.get i, f.get (i.castLE h)⟩

/-- The second loop of the constructor: the sentences are inserted one by one. -/
def build (S : Sorter (better sentences)) : Trie sentences :=
  (List.finRange sentences.length).foldl (insert S) (node [] [])

/-- `input(prefix)`. -/
def input (root : Trie sentences) (initial : Text) : List Text :=
  match root.find initial with
  | none => []
  | some p => p.val.map fun id => (sentences.get id).text

/-! ## The order -/

/-- The place of a sentence in the order: higher frequencies first, then smaller texts. -/
def rank (a : Sentence) : ℤᵒᵈ ×ₗ Text := toLex (OrderDual.toDual a.frequency, a.text)

theorem rank_le_iff {a b : Sentence} :
    rank a ≤ rank b ↔ a.frequency > b.frequency ∨ a.frequency = b.frequency ∧ a.text ≤ b.text := by
  rw [rank, rank, Prod.Lex.toLex_le_toLex]
  exact Iff.rfl

theorem better_iff {a b : Fin sentences.length} :
    better sentences a b ↔ rank (sentences.get a) < rank (sentences.get b) := by
  rw [better, ← not_le (a := rank (sentences.get b)), rank_le_iff]
  split_ifs with h
  · constructor
    · rintro hlt (hgt | ⟨heq, -⟩)
      · exact hgt.not_gt hlt
      · exact h heq.symm
    · intro hnot
      exact lt_of_le_of_ne (not_lt.mp fun hgt => hnot (Or.inl hgt)) (Ne.symm h)
  · rw [not_not] at h
    rw [h]
    simp

theorem pairwise_sort (S : Sorter (better sentences)) (ids : List (Fin sentences.length)) :
    (S.sort ids).Pairwise fun a b => rank (sentences.get a) ≤ rank (sentences.get b) :=
  (S.sorted ids).imp fun h => not_lt.mp (mt better_iff.mpr h)

/-- An implementation of the sort, with which the system can be run. -/
def sorter (sentences : List Sentence) : Sorter (better sentences) where
  sort := (Sorter.byKey fun id => rank (sentences.get id)).sort
  perm := (Sorter.byKey fun id => rank (sentences.get id)).perm
  sorted ids := ((Sorter.byKey fun id => rank (sentences.get id)).sorted ids).imp
    fun h => mt better_iff.mp h

/-! ## The nodes -/

/-- The numbers `ids` are in order, and lead those that were `seen`. -/
def Leading (ids : List (Fin sentences.length)) (seen : Multiset (Fin sentences.length)) : Prop :=
  (ids.Pairwise fun a b => rank (sentences.get a) ≤ rank (sentences.get b)) ∧
    Leads (fun id => rank (sentences.get id)) K ids seen

/-- **A node is updated.** -/
theorem Leading.update (S : Sorter (better sentences)) {topK : List (Fin sentences.length)}
    {seen : Multiset (Fin sentences.length)} (h : Leading topK seen) (id : Fin sentences.length) :
    Leading (update S id topK) (id ::ₘ seen) := by
  obtain ⟨-, hleads⟩ := h
  have hsorted := pairwise_sort S (topK ++ [id])
  have hperm : (S.sort (topK ++ [id]) : Multiset (Fin sentences.length)) = id ::ₘ topK := by
    rw [Multiset.coe_eq_coe.mpr (S.perm _), ← Multiset.coe_add, add_comm]
    rfl
  have hlength : (S.sort (topK ++ [id])).length = topK.length + 1 := by
    rw [(S.perm _).length_eq, List.length_append, List.length_singleton]
  have hcard : topK.length ≤ K := hleads.1.le.trans (min_le_left _ _)
  rw [AutocompleteSystem.update]
  split_ifs with hlong
  · -- the last one is a worst one
    have hne : S.sort (topK ++ [id]) ≠ [] := List.ne_nil_of_length_pos (by omega)
    have hsplit := List.dropLast_append_getLast hne
    rw [← hsplit] at hsorted
    obtain ⟨hinit, -, hlast⟩ := List.pairwise_append.mp hsorted
    refine ⟨hinit, hleads.exchange (w := (S.sort (topK ++ [id])).getLast hne) ?_ ?_ ?_⟩
    · show topK.length = K
      omega
    · rw [← hperm]
      conv_lhs => rw [← hsplit]
      rw [← Multiset.coe_add, add_comm]
      rfl
    · intro b hb
      rw [← hperm, Multiset.mem_coe, ← hsplit] at hb
      rcases List.mem_append.mp hb with hb | hb
      · exact hlast b hb _ (List.mem_singleton_self _)
      · rw [List.mem_singleton.mp hb]
  · refine ⟨hsorted, ?_⟩
    rw [hperm]
    exact hleads.add (show topK.length < K by omega) id

/-- What every node but the root keeps leads the sentences that have gone through it; a missing node
keeps nothing. -/
def Ranked (root : Trie sentences) (seen : Multiset (Fin sentences.length)) : Prop :=
  ∀ q, q ≠ [] →
    Leading ((root.valAt q).getD []) (seen.filter fun id => q <+: (sentences.get id).text)

/-- **A sentence is inserted.** -/
theorem Ranked.insert (S : Sorter (better sentences)) {root : Trie sentences}
    {seen : Multiset (Fin sentences.length)} (h : Ranked root seen) (id : Fin sentences.length) :
    Ranked (insert S root id) (id ::ₘ seen) := by
  intro q hq
  rw [AutocompleteSystem.insert, valAt_walk]
  by_cases hpre : q <+: (sentences.get id).text
  · have htouched : ∀ topK, touched (AutocompleteSystem.update S id) (fun topK => topK)
        (sentences.get id).text q topK = AutocompleteSystem.update S id topK := by
      intro topK
      rw [touched, if_neg hq, ite_self]
    rw [if_pos hpre, Option.getD_some, htouched,
      Multiset.filter_cons_of_pos (p := fun id => q <+: (sentences.get id).text) _ hpre]
    exact (h q hq).update S id
  · rw [if_neg hpre,
      Multiset.filter_cons_of_neg (p := fun id => q <+: (sentences.get id).text) _ hpre]
    exact h q hq

theorem Ranked.insertAll (S : Sorter (better sentences)) {root : Trie sentences}
    {seen : Multiset (Fin sentences.length)} (h : Ranked root seen)
    (ids : List (Fin sentences.length)) :
    Ranked (ids.foldl (AutocompleteSystem.insert S) root) (ids + seen) := by
  induction ids generalizing root seen with
  | nil => rwa [Multiset.coe_nil, zero_add]
  | cons id ids ih =>
    have hrest := ih (h.insert S id)
    rwa [Multiset.add_cons, ← Multiset.cons_add, Multiset.cons_coe] at hrest

theorem ranked_build (S : Sorter (better sentences)) :
    Ranked (build S) (List.finRange sentences.length) := by
  have hempty : Ranked (node [] [] : Trie sentences) 0 := by
    intro q hq
    rw [valAt_leaf, if_neg hq]
    exact ⟨List.Pairwise.nil, leads_zero _ _⟩
  have hall := hempty.insertAll S (List.finRange sentences.length)
  rwa [add_zero] at hall

/-! ## The answers -/

theorem input_eq (root : Trie sentences) (initial : Text) :
    input root initial = ((root.valAt initial).getD []).map fun id => (sentences.get id).text := by
  rw [input, valAt]
  cases root.find initial with
  | none => rfl
  | some p => rfl

/-- The sentences with the numbers that match are those that match. -/
theorem map_filter_finRange (initial : Text) :
    ((List.finRange sentences.length : Multiset (Fin sentences.length)).filter
      fun id => initial <+: (sentences.get id).text).map sentences.get
      = sentences.filter fun a => initial <+: a.text := by
  rw [Multiset.filter_coe, Multiset.map_coe]
  conv_rhs => rw [← List.map_get_finRange sentences, List.filter_map]
  rfl

/-- **The top three.**  Whichever way equivalent sentences are sorted, what is offered for a
non-empty prefix are the texts of the first three of the sentences that begin with it, ordered by
higher frequency and then by smaller text. -/
theorem input_correct {s : List Text} {f : List ℤ} (h : s.length ≤ f.length)
    (S : Sorter (better (store s f h))) {initial : Text} (hinitial : initial ≠ [])
    {ordered : List Sentence}
    (hperm : ordered.Perm ((store s f h).filter fun a => initial <+: a.text))
    (hordered : ordered.Pairwise fun a b =>
      a.frequency > b.frequency ∨ a.frequency = b.frequency ∧ a.text ≤ b.text) :
    input (build S) initial = (ordered.take (min 3 ordered.length)).map (·.text) := by
  obtain ⟨hsorted, hleads⟩ := ranked_build S initial hinitial
  have hmatching := hleads.map (f := (store s f h).get)
  rw [map_filter_finRange, ← Multiset.coe_eq_coe.mpr hperm, Multiset.map_coe] at hmatching
  -- the places of the sentences kept are the first places; equal places have equal texts
  have hranks := hmatching.ranks_eq_take (List.pairwise_map.mpr hsorted)
    (hordered.imp fun h => rank_le_iff.mpr h)
  have htexts := congrArg (List.map fun r => (ofLex r).2) hranks
  rw [List.map_map, List.map_map, ← List.map_take, List.map_map] at htexts
  rw [input_eq, ← List.take_eq_take_min]
  exact htexts

/-- Four sentences that begin with the same letter, two of them used equally often. -/
theorem input_correct_four :
    input (build (sorter (store ["ab".toList, "ac".toList, "ad".toList, "aa".toList, "b".toList]
        [2, 3, 5, 2, 9] (by decide)))) "a".toList
      = ["ad".toList, "ac".toList, "aa".toList] :=
  @input_correct _ _ (by decide) _ "a".toList (by decide)
    [⟨"ad".toList, 5⟩, ⟨"ac".toList, 3⟩, ⟨"aa".toList, 2⟩, ⟨"ab".toList, 2⟩] (by decide) (by decide)

end AutocompleteSystem
