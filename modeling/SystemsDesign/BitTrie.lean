/-
# Tries of binary numbers

A number is stored in a trie along its lowest bits, from the highest one down.  Walking down such a
trie is choosing, bit by bit, among the stored numbers that agree with the choices made so far.

* `Holds n t S` says that `t` stores the lowest `n` bits of the numbers in `S`; `Holds.walk` stores
  one more, and `Holds.child` goes down one bit;
* `isGreatest_xor_of_differs` and `isGreatest_xor_of_agrees` are the two cases of the exchange
  argument for the largest `x ^^^ y`, `y` given: numbers that differ from `y` in the highest bit
  beat all others.
-/
import SystemsDesign.TrieWalks

namespace BitTrie

open PathTree NamedTree

/-! ## Bits -/

/-- The lowest `n` bits of a number, from the highest one down. -/
def bits : ℕ → ℕ → List Bool
  | 0, _ => []
  | n + 1, x => x.testBit n :: bits n x

theorem xor_mod_succ (x y n : ℕ) :
    (x ^^^ y) % 2 ^ (n + 1)
      = (if x.testBit n = y.testBit n then 0 else 2 ^ n) + (x ^^^ y) % 2 ^ n := by
  rw [Nat.mod_pow_succ, ← Nat.toNat_testBit, Nat.testBit_xor]
  by_cases h : x.testBit n = y.testBit n
  · simp [h]
  · have hxor : (x.testBit n ^^ y.testBit n) = true := bne_iff_ne.mpr h
    rw [hxor, if_neg h, Bool.toNat_true, mul_one, add_comm]

/-- What can be reached by `x ^^^ y` in the lowest `n` bits. -/
def xors (n y : ℕ) (S : Set ℕ) : Set ℕ := {v | ∃ x ∈ S, v = (x ^^^ y) % 2 ^ n}

/-- The numbers that agree with `b` in bit `n`. -/
def withBit (n : ℕ) (b : Bool) (S : Set ℕ) : Set ℕ := {x ∈ S | x.testBit n = b}

section Greatest

variable {n y m : ℕ} {S : Set ℕ}

/-- **Where some number differs in the highest bit**, the best of those is the best. -/
theorem isGreatest_xor_of_differs (h : IsGreatest (xors n y (withBit n (!y.testBit n) S)) m) :
    IsGreatest (xors (n + 1) y S) (2 ^ n + m) := by
  obtain ⟨⟨x, ⟨hx, hbit⟩, hm⟩, hbest⟩ := h
  constructor
  · refine ⟨x, hx, ?_⟩
    have hne : x.testBit n ≠ y.testBit n := by
      rw [hbit]
      exact Bool.not_ne_self _
    rw [xor_mod_succ, if_neg hne, hm]
  · rintro v ⟨z, hz, rfl⟩
    rw [xor_mod_succ]
    by_cases hz' : z.testBit n = y.testBit n
    · -- a number that agrees in the highest bit stays below
      have hlt : (z ^^^ y) % 2 ^ n < 2 ^ n := Nat.mod_lt _ (by positivity)
      rw [if_pos hz']
      omega
    · have hle : (z ^^^ y) % 2 ^ n ≤ m := hbest ⟨z, ⟨hz, Bool.eq_not.mpr hz'⟩, rfl⟩
      rw [if_neg hz']
      omega

/-- **Where all numbers agree in the highest bit**, it decides nothing. -/
theorem isGreatest_xor_of_agrees (hS : ∀ x ∈ S, x.testBit n = y.testBit n)
    (h : IsGreatest (xors n y (withBit n (y.testBit n) S)) m) :
    IsGreatest (xors (n + 1) y S) m := by
  obtain ⟨⟨x, ⟨hx, hbit⟩, hm⟩, hbest⟩ := h
  constructor
  · refine ⟨x, hx, ?_⟩
    rw [xor_mod_succ, if_pos hbit, zero_add, hm]
  · rintro v ⟨z, hz, rfl⟩
    rw [xor_mod_succ, if_pos (hS z hz), zero_add]
    exact hbest ⟨z, ⟨hz, hS z hz⟩, rfl⟩

end Greatest

/-! ## The stored numbers -/

/-- The trie stores the lowest `n` bits of the numbers in `S`. -/
def Holds (n : ℕ) (t : NamedTree Bool Unit) (S : Set ℕ) : Prop :=
  ∀ q, (t.valAt q).isSome ↔ q = [] ∨ ∃ x ∈ S, q <+: bits n x

variable {n x : ℕ} {t c : NamedTree Bool Unit} {S : Set ℕ} {b : Bool}

theorem holds_leaf (n : ℕ) : Holds n (node () []) ∅ := by
  intro q
  rw [valAt_leaf]
  by_cases hq : q = []
  · simp [hq]
  · simp [hq]

/-- **A walk along the bits of a number** stores it. -/
theorem Holds.walk (h : Holds n t S) (x : ℕ) :
    Holds n (t.walk () id id (bits n x)) (insert x S) := by
  intro q
  rw [valAt_walk]
  by_cases hq : q <+: bits n x
  · rw [if_pos hq]
    exact iff_of_true rfl (.inr ⟨x, Set.mem_insert x S, hq⟩)
  · rw [if_neg hq, h q]
    simp only [Set.mem_insert_iff, exists_eq_or_imp, hq, false_or]

theorem Holds.isSome_child (h : Holds (n + 1) t S) (b : Bool) :
    (t.child b).isSome ↔ (withBit n b S).Nonempty := by
  have hone : (t.valAt [b]).isSome ↔ (t.child b).isSome := by
    rw [valAt_cons]
    cases t.child b with
    | none => exact Iff.rfl
    | some c => exact Iff.rfl
  rw [← hone, h [b]]
  simp only [reduceCtorEq, false_or, bits, List.cons_prefix_cons, List.nil_prefix, and_true]
  constructor
  · rintro ⟨x, hx, hb⟩
    exact ⟨x, hx, hb.symm⟩
  · rintro ⟨x, hx, hb⟩
    exact ⟨x, hx, hb.symm⟩

/-- **One bit down** are the numbers with that bit. -/
theorem Holds.child (h : Holds (n + 1) t S) (hc : t.child b = some c) :
    Holds n c (withBit n b S) := by
  intro q
  have hq := h (b :: q)
  rw [valAt_cons, hc, Option.bind_some] at hq
  rw [hq]
  simp only [reduceCtorEq, false_or, bits, List.cons_prefix_cons]
  constructor
  · rintro ⟨x, hx, hb, hpre⟩
    exact .inr ⟨x, ⟨hx, hb.symm⟩, hpre⟩
  · rintro (rfl | ⟨x, ⟨hx, hb⟩, hpre⟩)
    · obtain ⟨x, hx, hb⟩ := (h.isSome_child b).mp (by rw [hc]; rfl)
      exact ⟨x, hx, hb.symm, List.nil_prefix⟩
    · exact ⟨x, hx, hb.symm, hpre⟩

end BitTrie
