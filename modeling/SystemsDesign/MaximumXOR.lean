/-
# The largest XOR of two numbers

Model of `Trie/maximum_XOR_of_2_numbers.cpp`.  Every number is stored in a binary trie along its
bits 31 to 0; for each number the trie is walked down once more, to the opposite bit wherever there
is one.  An `int` that is not negative is a natural number below `2 ^ 31`; following a null pointer
is `none`.

Result: the walk never follows a missing child, and the largest of its answers is the largest XOR
of two numbers at different positions.
-/
import SystemsDesign.BitTrie

namespace MaximumXORs

open BitTrie PathTree NamedTree

/-! ## The trie -/

/-- The data member of `maximumXOR`; a `TrieNode` has nothing but children. -/
structure MaximumXOR where
  root : NamedTree Bool Unit

namespace MaximumXOR

/-- The constructor. -/
def new : MaximumXOR where
  root := .node () []

/-- `insert(num)`. -/
def insert (self : MaximumXOR) (num : ℕ) : MaximumXOR where
  root := self.root.walk () id id (bits 32 num)

/-- The loop of `getMaxXOR` over the bits below `bit`; `p` may be the null pointer. -/
def descend (num : ℕ) : (bit : ℕ) → (p : Option (NamedTree Bool Unit)) → (ans : ℕ) → Option ℕ
  | 0, _, ans => some ans
  | _ + 1, none, _ => none
  | bit + 1, some p, ans =>
    let b := num.testBit bit
    let opposite := !b
    if (p.child opposite).isSome then descend num bit (p.child opposite) (ans ||| 1 <<< bit)
    else descend num bit (p.child b) ans

/-- `getMaxXOR(num)`. -/
def getMaxXOR (self : MaximumXOR) (num : ℕ) : Option ℕ := descend num 32 (some self.root) 0

/-- The second loop of `findMaximumXOR`. -/
def maxOver (self : MaximumXOR) : List ℕ → (ans : ℕ) → Option ℕ
  | [], ans => some ans
  | num :: nums, ans => do maxOver self nums (max ans (← self.getMaxXOR num))

/-- `findMaximumXOR(nums)`, and the object afterwards. -/
def findMaximumXOR (self : MaximumXOR) (nums : List ℕ) : Option (ℕ × MaximumXOR) := do
  let self := nums.foldl insert self
  return (← self.maxOver nums 0, self)

end MaximumXOR

open MaximumXOR

/-! ## One walk -/

variable {self : MaximumXOR} {S : Set ℕ} {num n : ℕ}

theorem or_one_shiftLeft (high bit : ℕ) :
    high <<< (bit + 1) ||| 1 <<< bit = (2 * high + 1) <<< bit := by
  have hlt : 2 ^ bit < 2 ^ (bit + 1) := Nat.pow_lt_pow_right (by decide) (Nat.lt_succ_self bit)
  rw [Nat.one_shiftLeft, ← Nat.shiftLeft_add_eq_or_of_lt hlt, Nat.shiftLeft_eq, Nat.shiftLeft_eq,
    pow_succ]
  ring

/-- **The walk finds the largest XOR** in the bits that are left, and adds it to what it has. -/
theorem descend_spec {t : NamedTree Bool Unit} (h : Holds n t S) (hS : S.Nonempty) (high : ℕ) :
    ∃ m, descend num n (some t) (high <<< n) = some (high <<< n + m) ∧
      IsGreatest (xors n num S) m := by
  -- down the bits; `S` are the numbers that agree with the way taken so far
  induction n generalizing t S high with
  | zero =>
    obtain ⟨x, hx⟩ := hS
    refine ⟨0, rfl, ⟨x, hx, ?_⟩, ?_⟩
    · rw [pow_zero, Nat.mod_one]
    · rintro v ⟨z, -, rfl⟩
      rw [pow_zero, Nat.mod_one]
  | succ n ih =>
    rw [descend]
    by_cases hopposite : (t.child (!num.testBit n)).isSome = true
    · -- some number has the opposite bit
      obtain ⟨c, hc⟩ := Option.isSome_iff_exists.mp hopposite
      obtain ⟨m, hm, hbest⟩ := ih (h.child hc) ((h.isSome_child _).mp hopposite) (2 * high + 1)
      refine ⟨2 ^ n + m, ?_, isGreatest_xor_of_differs hbest⟩
      rw [if_pos hopposite, hc, or_one_shiftLeft, hm]
      congr 1
      rw [Nat.shiftLeft_eq, Nat.shiftLeft_eq, pow_succ]
      ring
    · -- all of them have the bit itself, so that this child is there
      have hsame : ∀ x ∈ S, x.testBit n = num.testBit n := by
        intro x hx
        by_contra hne
        exact hopposite ((h.isSome_child _).mpr ⟨x, hx, Bool.eq_not.mpr hne⟩)
      have hnonempty : (withBit n (num.testBit n) S).Nonempty := by
        obtain ⟨x, hx⟩ := hS
        exact ⟨x, hx, hsame x hx⟩
      obtain ⟨c, hc⟩ := Option.isSome_iff_exists.mp ((h.isSome_child _).mpr hnonempty)
      obtain ⟨m, hm, hbest⟩ := ih (h.child hc) hnonempty (2 * high)
      refine ⟨m, ?_, isGreatest_xor_of_agrees hsame hbest⟩
      have hhigh : (2 * high) <<< n = high <<< (n + 1) := by
        rw [Nat.shiftLeft_eq, Nat.shiftLeft_eq, pow_succ]
        ring
      rw [if_neg hopposite, hc, ← hhigh, hm]

/-- `getMaxXOR` finds the largest XOR with a stored number. -/
theorem getMaxXOR_spec (h : Holds 32 self.root S) (hS : S.Nonempty) (hlt : ∀ x ∈ S, x < 2 ^ 31)
    (hnum : num < 2 ^ 31) :
    ∃ m, self.getMaxXOR num = some m ∧ IsGreatest {v | ∃ x ∈ S, v = x ^^^ num} m := by
  obtain ⟨m, hm, hbest⟩ := descend_spec h hS 0
  refine ⟨m, ?_, ?_⟩
  · rw [Nat.zero_shiftLeft, zero_add] at hm
    exact hm
  · -- nothing lies above the bits that are looked at
    have hxors : xors 32 num S = {v | ∃ x ∈ S, v = x ^^^ num} := by
      ext v
      refine exists_congr fun x => and_congr_right fun hx => ?_
      have hsmall : x ^^^ num < 2 ^ 31 := Nat.xor_lt_two_pow (hlt x hx) hnum
      rw [Nat.mod_eq_of_lt (hsmall.trans (by decide))]
    rwa [hxors] at hbest

/-! ## All numbers -/

theorem holds_foldl_insert (nums : List ℕ) (h : Holds 32 self.root S) :
    Holds 32 (nums.foldl insert self).root (S ∪ {x | x ∈ nums}) := by
  induction nums generalizing self S with
  | nil => simpa using h
  | cons num nums ih =>
    have hunion : S ∪ {x | x ∈ num :: nums} = Insert.insert num S ∪ {x | x ∈ nums} := by
      ext x
      simp only [Set.mem_union, Set.mem_ofPred_eq, List.mem_cons, Set.mem_insert_iff]
      tauto
    rw [List.foldl_cons, hunion]
    exact ih (h.walk num)

/-- The loop over the numbers finds the largest XOR of one of them with a stored number. -/
theorem maxOver_spec {nums : List ℕ} (h : Holds 32 self.root S) (hS : S.Nonempty)
    (hlt : ∀ x ∈ S, x < 2 ^ 31) (hnums : ∀ num ∈ nums, num < 2 ^ 31) (ans : ℕ) :
    ∃ best, self.maxOver nums ans = some best ∧
      IsGreatest {v | v = ans ∨ ∃ num ∈ nums, ∃ x ∈ S, v = x ^^^ num} best := by
  induction nums generalizing ans with
  | nil =>
    refine ⟨ans, rfl, .inl rfl, ?_⟩
    rintro v (rfl | ⟨num, hnum, -⟩)
    · exact le_rfl
    · cases hnum
  | cons num nums ih =>
    obtain ⟨m, hm, ⟨x, hx, hmx⟩, hbest⟩ := getMaxXOR_spec h hS hlt (hnums num List.mem_cons_self)
    obtain ⟨best, hmax, hmem, hle⟩ :=
      ih (fun num' hnum' => hnums num' (List.mem_cons_of_mem num hnum')) (max ans m)
    have hans : max ans m ≤ best := hle (.inl rfl)
    refine ⟨best, ?_, ?_, ?_⟩
    · rw [maxOver, hm]
      exact hmax
    · rcases hmem with hmem | ⟨num', hnum', hmem⟩
      · rcases max_choice ans m with hchoice | hchoice
        · exact .inl (hmem.trans hchoice)
        · exact .inr ⟨num, List.mem_cons_self, x, hx, (hmem.trans hchoice).trans hmx⟩
      · exact .inr ⟨num', List.mem_cons_of_mem num hnum', hmem⟩
    · rintro v (rfl | ⟨num', hnum', y, hy, rfl⟩)
      · exact (le_max_left v m).trans hans
      · rcases List.mem_cons.mp hnum' with rfl | hnum'
        · exact (hbest ⟨y, hy, rfl⟩).trans ((le_max_right ans m).trans hans)
        · exact hle (.inr ⟨num', hnum', y, hy, rfl⟩)

/-- **A call on an object with stored numbers** finds the largest XOR of a number of the call with
one that was stored before or is stored by the call, and all of them are stored afterwards. -/
theorem findMaximumXOR_spec {nums : List ℕ} (h : Holds 32 self.root S) (hlt : ∀ x ∈ S, x < 2 ^ 31)
    (hnums : ∀ num ∈ nums, num < 2 ^ 31) (hne : nums ≠ []) :
    ∃ best self', self.findMaximumXOR nums = some (best, self') ∧
      Holds 32 self'.root (S ∪ {x | x ∈ nums}) ∧
      IsGreatest {v | ∃ num ∈ nums, ∃ x ∈ S ∪ {x | x ∈ nums}, v = x ^^^ num} best := by
  have hholds := holds_foldl_insert nums h
  obtain ⟨num, hnum⟩ := List.exists_mem_of_ne_nil nums hne
  obtain ⟨best, hbest, hmem, hle⟩ := maxOver_spec hholds ⟨num, .inr hnum⟩
    (fun x hx => hx.elim (hlt x) (hnums x)) hnums 0
  refine ⟨best, nums.foldl insert self, ?_, hholds, ?_, fun v hv => hle (.inr hv)⟩
  · rw [findMaximumXOR, hbest]
    rfl
  · rcases hmem with hzero | hmem
    · -- zero is the XOR of a number with itself
      exact ⟨num, hnum, num, .inr hnum, by rw [hzero, Nat.xor_self]⟩
    · exact hmem

/-- The XORs of two numbers at different positions. -/
def pairXORs (nums : List ℕ) : Set ℕ :=
  {v | ∃ i j : Fin nums.length, i ≠ j ∧ v = nums[i] ^^^ nums[j]}

/-- Zero is an XOR of two positions if it is the only XOR of two numbers. -/
theorem zero_mem_pairXORs {nums : List ℕ} (hlen : 2 ≤ nums.length)
    (h : ∀ x ∈ nums, ∀ y ∈ nums, x ^^^ y = 0) : 0 ∈ pairXORs nums := by
  refine ⟨⟨0, by omega⟩, ⟨1, by omega⟩, by simp, ?_⟩
  exact (h _ (List.getElem_mem _) _ (List.getElem_mem _)).symm

/-- An XOR that is not zero comes from different positions. -/
theorem mem_pairXORs {nums : List ℕ} {x y : ℕ} (hx : x ∈ nums) (hy : y ∈ nums)
    (hne : x ^^^ y ≠ 0) : x ^^^ y ∈ pairXORs nums := by
  obtain ⟨i, hi, rfl⟩ := List.mem_iff_getElem.mp hx
  obtain ⟨j, hj, rfl⟩ := List.mem_iff_getElem.mp hy
  refine ⟨⟨i, hi⟩, ⟨j, hj⟩, ?_, rfl⟩
  intro hij
  obtain rfl : i = j := Fin.mk.inj_iff.mp hij
  exact hne (Nat.xor_self _)

/-- **The greedy search finds the largest XOR.**  For at least two numbers, the answer of a fresh
object is the largest XOR of the numbers at two different positions. -/
theorem findMaximumXOR_isGreatest (nums : List ℕ) (hlen : 2 ≤ nums.length)
    (hnums : ∀ num ∈ nums, num < 2 ^ 31) :
    ∃ ans self, findMaximumXOR .new nums = some (ans, self) ∧ IsGreatest (pairXORs nums) ans := by
  have hne : nums ≠ [] := List.ne_nil_of_length_pos (by omega)
  obtain ⟨best, self, hbest, -, ⟨y, hy, x, hx, hxy⟩, hle⟩ :=
    @findMaximumXOR_spec .new ∅ nums (holds_leaf 32) (by simp) hnums hne
  rw [Set.empty_union] at hx hle
  refine ⟨best, self, hbest, ?_, ?_⟩
  · -- the best answer is reached at different positions unless it is zero
    by_cases hzero : x ^^^ y = 0
    · rw [hxy, hzero]
      refine zero_mem_pairXORs hlen fun x' hx' y' hy' => Nat.le_zero.mp ?_
      rw [← hzero, ← hxy]
      exact hle ⟨y', hy', x', hx', rfl⟩
    · rw [hxy]
      exact mem_pairXORs hx hy hzero
  · rintro v ⟨i, j, -, rfl⟩
    exact hle ⟨nums[j], List.getElem_mem _, nums[i], List.getElem_mem _, rfl⟩

theorem findMaximumXOR_isGreatest_driver :
    ∃ ans self, findMaximumXOR .new [3, 10, 5, 25, 2, 8] = some (ans, self) ∧
      IsGreatest (pairXORs [3, 10, 5, 25, 2, 8]) ans :=
  findMaximumXOR_isGreatest [3, 10, 5, 25, 2, 8] (by decide) (by decide)

end MaximumXORs
