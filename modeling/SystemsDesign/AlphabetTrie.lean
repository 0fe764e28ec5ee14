/-
# Tries over the lowercase letters

What `Trie/prefix_tree_with_frequency.cpp` and `Trie/replace_with_shortest_dictionary_prefix.cpp`
have in common: a node has an array of 26 children, and the letter `ch` has the index `ch - 'a'`.
The children are modelled under their letters; any other character is an index outside of the array,
which has no defined behaviour and is `none` here.
-/
import SystemsDesign.TrieWalks
import SystemsDesign.WhitespaceTokens

namespace AlphabetTrie

open PathTree NamedTree WhitespaceTokens

variable {α : Type*}

/-- The index `ch - 'a'` is within the array. -/
def inAlphabet (ch : Char) : Bool := 'a' ≤ ch ∧ ch ≤ 'z'

/-- A word of lowercase letters. -/
def Lowercase (word : Text) : Prop := ∀ ch ∈ word, inAlphabet ch = true

instance (word : Text) : Decidable (Lowercase word) :=
  decidable_of_iff (word.all inAlphabet = true) List.all_eq_true

/-- A trie; the nodes have values of type `α` besides their children. -/
abbrev Trie (α : Type*) := NamedTree Char α

/-- A new trie has only its root. -/
def create (fresh : α) : Trie α := node fresh []

/-- The loop of the insertions: walk along the word, create the nodes that are missing, change those
on the way and the last. -/
def insertWord (fresh : α) (visit last : α → α) (trie : Trie α) (word : Text) : Option (Trie α) :=
  if Lowercase word then some (trie.walk fresh visit last word) else none

theorem lowercase_cons {ch : Char} {word : Text} :
    Lowercase (ch :: word) ↔ inAlphabet ch = true ∧ Lowercase word := List.forall_mem_cons

theorem valAt_create (fresh : α) (q : Text) :
    (create fresh).valAt q = if q = [] then some fresh else none := valAt_leaf fresh q

end AlphabetTrie
