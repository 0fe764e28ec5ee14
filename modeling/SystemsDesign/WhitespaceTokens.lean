/-
# Reading whitespace-separated words from a stream

`std::istream >> std::string` as a function on the characters that are left: skip
whitespace, take characters up to the next whitespace, fail at the end of the stream.
A text is a list of characters; `isSpace` is the classic locale's `isspace`.

`std::istream >> int` skips whitespace, takes an optional sign and the digits after it, and
fails when there are none (`readInt`); the range of `int` is not modelled.  Loops that read
records until the stream fails are `readWhile`, and `readChain` where the reader is also
handed something of the record before.
-/
import Mathlib

namespace WhitespaceTokens

/-- A `std::string`, as the sequence of its characters. -/
abbrev Text := List Char

/-- `std::isspace` in the classic locale. -/
def isSpace (c : Char) : Bool :=
  c = ' ' || c = '\t' || c = '\n' || c = '\x0b' || c = '\x0c' || c = '\r'

theorem isSpace_blank : isSpace ' ' = true := by decide

theorem isSpace_newline : isSpace '\n' = true := by decide

/-- A word: not empty and free of whitespace. -/
def IsWord (w : Text) : Prop := w ≠ [] ∧ ∀ c ∈ w, isSpace c = false

instance (w : Text) : Decidable (IsWord w) :=
  decidable_of_iff (w ≠ [] ∧ w.all (fun c => !isSpace c) = true) (by simp [IsWord])

/-- `stream >> word`: the word and the rest of the stream, or `none` when the stream fails. -/
def readWord (s : Text) : Option (Text × Text) :=
  match s.dropWhile isSpace with
  | [] => none
  | c :: cs => some ((c :: cs).span (fun d => !isSpace d))

theorem readWord_cons_space {c : Char} (hc : isSpace c = true) (s : Text) :
    readWord (c :: s) = readWord s := by
  unfold readWord
  rw [List.dropWhile_cons_of_pos hc]

/-- A word is read back from the head of a stream that goes on with whitespace or ends. -/
theorem readWord_append_stop {w : Text} (hw : IsWord w) {s : Text}
    (hs : ∀ c ∈ s.head?, isSpace c = true) : readWord (w ++ s) = some (w, s) := by
  obtain ⟨hne, hns⟩ := hw
  obtain ⟨a, w', rfl⟩ := List.exists_cons_of_ne_nil hne
  have ha : isSpace a = false := hns a List.mem_cons_self
  have hall : ∀ d ∈ a :: w', (!isSpace d) = true := by
    intro d hd
    rw [hns d hd]; rfl
  have hstop : s.takeWhile (fun d => !isSpace d) = [] ∧ s.dropWhile (fun d => !isSpace d) = s := by
    cases s with
    | nil => exact ⟨rfl, rfl⟩
    | cons c s =>
      have hc : isSpace c = true := hs c rfl
      exact ⟨List.takeWhile_cons_of_neg (by simp [hc]), List.dropWhile_cons_of_neg (by simp [hc])⟩
  unfold readWord
  rw [List.cons_append, List.dropWhile_cons_of_neg (by simp [ha])]
  simp only [List.span_eq_takeWhile_dropWhile]
  rw [← List.cons_append, List.takeWhile_append_of_pos hall, List.dropWhile_append_of_pos hall,
    hstop.1, hstop.2, List.append_nil]

theorem readWord_append {w : Text} (hw : IsWord w) {c : Char} (hc : isSpace c = true)
    (s : Text) : readWord (w ++ c :: s) = some (w, c :: s) :=
  readWord_append_stop hw (by simpa using hc)

theorem readWord_of_isWord {w : Text} (hw : IsWord w) : readWord w = some (w, []) := by
  have hread := @readWord_append_stop w hw [] (by simp)
  rwa [List.append_nil] at hread

theorem IsWord.initial {w t : Text} (hw : IsWord w) (ht : t <+: w) (hne : t ≠ []) : IsWord t :=
  ⟨hne, fun c hc => hw.2 c (ht.subset hc)⟩

/-- A stream that was cut ends inside its first part or goes on after it. -/
theorem prefix_append_cons {t w s : Text} {c : Char} (h : t <+: w ++ c :: s) :
    t <+: w ∨ ∃ t', t = w ++ c :: t' ∧ t' <+: s := by
  obtain ⟨r, hr⟩ := h
  rcases List.append_eq_append_iff.mp hr with ⟨mid, hw, -⟩ | ⟨mid, ht, hmid⟩
  · exact Or.inl ⟨mid, hw.symm⟩
  · cases mid with
    | nil =>
      rw [List.append_nil] at ht
      exact Or.inl (ht ▸ List.prefix_rfl)
    | cons d mid =>
      obtain ⟨rfl, hs⟩ := List.cons.inj hmid
      exact Or.inr ⟨mid, ht, ⟨r, hs.symm⟩⟩

theorem length_lt_of_readWord {s w r : Text} (h : readWord s = some (w, r)) :
    r.length < s.length := by
  unfold readWord at h
  have hle : (s.dropWhile isSpace).length ≤ s.length :=
    (List.dropWhile_suffix isSpace).length_le
  cases hd : s.dropWhile isSpace with
  | nil => rw [hd] at h; simp at h
  | cons c cs =>
    rw [hd] at h hle
    have hc : isSpace c = false := by
      have hhead := List.head_dropWhile_not isSpace (l := s) (by rw [hd]; simp)
      simpa [hd] using hhead
    simp only [List.span_eq_takeWhile_dropWhile, Option.some.injEq, Prod.mk.injEq] at h
    rw [List.dropWhile_cons_of_pos (by simp [hc])] at h
    have hr : r.length ≤ cs.length := by
      rw [← h.2]
      exact (List.dropWhile_suffix _).length_le
    simp only [List.length_cons] at hle
    omega

/-! ## Reading integers -/

/-- The number at the head of the stream, if there is a digit. -/
def readDigits (s : Text) : Option (ℕ × Text) :=
  if s.takeWhile Char.isDigit = [] then none
  else some (Nat.ofDigitChars 10 (s.takeWhile Char.isDigit) 0, s.dropWhile Char.isDigit)

/-- `stream >> number`: the number and the rest of the stream, or `none` when the stream
fails. -/
def readInt (s : Text) : Option (ℤ × Text) :=
  match s.dropWhile isSpace with
  | [] => none
  | c :: cs =>
    if c = '-' then (readDigits cs).map fun p => (-(p.1 : ℤ), p.2)
    else if c = '+' then (readDigits cs).map fun p => ((p.1 : ℤ), p.2)
    else (readDigits (c :: cs)).map fun p => ((p.1 : ℤ), p.2)

/-- `stream << number` in decimal. -/
def decimal : ℤ → Text
  | .ofNat n => Nat.toDigits 10 n
  | .negSucc n => '-' :: Nat.toDigits 10 (n + 1)

/-- A natural number is printed without a sign. -/
theorem decimal_natCast (n : ℕ) : decimal n = Nat.toDigits 10 n := rfl

theorem readInt_cons_space {c : Char} (hc : isSpace c = true) (s : Text) :
    readInt (c :: s) = readInt s := by
  unfold readInt
  rw [List.dropWhile_cons_of_pos hc]

theorem ne_sign_of_isDigit {c : Char} (hc : c.isDigit = true) :
    isSpace c = false ∧ c ≠ '-' ∧ c ≠ '+' := by
  refine ⟨?_, ?_, ?_⟩
  · by_contra hs
    simp only [Bool.not_eq_false, isSpace, Bool.or_eq_true, decide_eq_true_eq] at hs
    rcases hs with ((((rfl | rfl) | rfl) | rfl) | rfl) | rfl <;> revert hc <;> decide
  · rintro rfl
    revert hc
    decide
  · rintro rfl
    revert hc
    decide

/-- Where the stream starts with a digit, the number is what the digits say. -/
theorem readInt_of_isDigit {d : Char} (hd : d.isDigit = true) (s : Text) :
    readInt (d :: s)
      = some (((Nat.ofDigitChars 10 ((d :: s).takeWhile Char.isDigit) 0 : ℕ) : ℤ),
          (d :: s).dropWhile Char.isDigit) := by
  obtain ⟨hspace, hminus, hplus⟩ := ne_sign_of_isDigit hd
  have hne : (d :: s).takeWhile Char.isDigit ≠ [] := by
    rw [List.takeWhile_cons_of_pos hd]
    simp
  unfold readInt
  rw [List.dropWhile_cons_of_neg (by simp [hspace])]
  dsimp only
  rw [if_neg hminus, if_neg hplus, readDigits, if_neg hne]
  rfl

/-- A number followed by something that is not a digit is read back. -/
theorem readInt_decimal_append (n : ℕ) {c : Char} (hc : c.isDigit = false) (s : Text) :
    readInt (decimal n ++ c :: s) = some ((n : ℤ), c :: s) := by
  have hall : ∀ d ∈ Nat.toDigits 10 n, d.isDigit = true :=
    fun d hd => Nat.isDigit_of_mem_toDigits (by decide) (by decide) hd
  rw [decimal_natCast]
  obtain ⟨d, ds, hds⟩ := List.exists_cons_of_ne_nil (@Nat.toDigits_ne_nil n 10)
  have hread := readInt_of_isDigit (hall d (by rw [hds]; exact List.mem_cons_self))
    (ds ++ c :: s)
  rw [← List.cons_append, ← hds, List.takeWhile_append_of_pos hall,
    List.dropWhile_append_of_pos hall, List.takeWhile_cons_of_neg (by simp [hc]),
    List.dropWhile_cons_of_neg (by simp [hc]), List.append_nil] at hread
  rw [hread, Nat.ofDigitChars_ten_toDigits]

/-- A number that is cut leaves nothing behind it. -/
theorem readInt_of_prefix {n : ℕ} {t : Text} (ht : t <+: decimal n) :
    readInt t = none ∨ ∃ z, readInt t = some (z, []) := by
  have hall : ∀ d ∈ t, d.isDigit = true :=
    fun d hd => Nat.isDigit_of_mem_toDigits (by decide) (by decide) (ht.subset hd)
  cases t with
  | nil => exact Or.inl rfl
  | cons d ds =>
    have hread := readInt_of_isDigit (hall d List.mem_cons_self) ds
    rw [List.dropWhile_eq_nil_iff.mpr hall] at hread
    exact Or.inr ⟨_, hread⟩

/-- Reading a number consumes at least one character. -/
theorem length_lt_of_readInt {s r : Text} {z : ℤ} (h : readInt s = some (z, r)) :
    r.length < s.length := by
  have hdigits : ∀ {t r : Text} {n : ℕ}, readDigits t = some (n, r) → r.length < t.length := by
    intro t r n ht
    unfold readDigits at ht
    split_ifs at ht with hne
    obtain ⟨-, rfl⟩ := Prod.mk.inj (Option.some.inj ht)
    have hlen := congrArg List.length (List.takeWhile_append_dropWhile (p := Char.isDigit) (l := t))
    rw [List.length_append] at hlen
    have hpos := List.length_pos_of_ne_nil hne
    omega
  have hle : (s.dropWhile isSpace).length ≤ s.length :=
    (List.dropWhile_suffix isSpace).length_le
  unfold readInt at h
  cases hd : s.dropWhile isSpace with
  | nil => rw [hd] at h; simp at h
  | cons c cs =>
    rw [hd] at h hle
    have hcons : (c :: cs).length = cs.length + 1 := rfl
    dsimp only at h
    split_ifs at h <;>
    · obtain ⟨p, hp, heq⟩ := Option.map_eq_some_iff.mp h
      obtain ⟨-, rfl⟩ := Prod.mk.inj heq
      have hlt := hdigits hp
      omega

/-! ## Reading records until the stream fails -/

/-- `stream >> first >> second`. -/
def readPair (s : Text) : Option ((Text × Text) × Text) :=
  (readWord s).bind fun (first, s) => (readWord s).map fun (second, s) => ((first, second), s)

theorem readPair_append {v w : Text} (hv : IsWord v) (hw : IsWord w) {c d : Char}
    (hc : isSpace c = true) (hd : isSpace d = true) (s : Text) :
    readPair (v ++ c :: (w ++ d :: s)) = some ((v, w), d :: s) := by
  simp [readPair, readWord_append hv hc, readWord_cons_space hc, readWord_append hw hd]

theorem length_lt_of_readPair {s r : Text} {p : Text × Text} (h : readPair s = some (p, r)) :
    r.length < s.length := by
  simp only [readPair, Option.bind_eq_some_iff, Option.map_eq_some_iff, Prod.mk.injEq,
    Prod.exists] at h
  obtain ⟨first, s', h1, second, s'', h2, -, rfl⟩ := h
  have := length_lt_of_readWord h1
  have := length_lt_of_readWord h2
  omega

/-- The loop `while (stream >> record)` for a reader that consumes characters. -/
def readWhile {α : Type*} (read : Text → Option (α × Text))
    (hread : ∀ s a r, read s = some (a, r) → r.length < s.length) (s : Text) : List α :=
  match h : read s with
  | none => []
  | some (a, r) =>
    have : r.length < s.length := hread s a r h
    a :: readWhile read hread r
termination_by s.length

theorem readWhile_of_some {α : Type*} {read : Text → Option (α × Text)}
    {hread : ∀ s a r, read s = some (a, r) → r.length < s.length} {s r : Text} {a : α}
    (h : read s = some (a, r)) : readWhile read hread s = a :: readWhile read hread r := by
  rw [readWhile]
  split
  · rename_i hnone; rw [h] at hnone; cases hnone
  · rename_i a' r' hsome
    rw [h] at hsome
    cases hsome
    rfl

/-- The loop ends when the stream fails. -/
theorem readWhile_of_none {α : Type*} {read : Text → Option (α × Text)}
    {hread : ∀ s a r, read s = some (a, r) → r.length < s.length} {s : Text}
    (h : read s = none) : readWhile read hread s = [] := by
  rw [readWhile]
  split
  · rfl
  · rename_i a' r' hsome; rw [h] at hsome; cases hsome

/-- The loop sees the stream through its reader only. -/
theorem readWhile_congr {α : Type*} {read : Text → Option (α × Text)}
    {hread : ∀ s a r, read s = some (a, r) → r.length < s.length} {s t : Text}
    (h : read s = read t) : readWhile read hread s = readWhile read hread t := by
  cases ht : read t with
  | none => rw [readWhile_of_none ht, readWhile_of_none (h.trans ht)]
  | some p => rw [readWhile_of_some ht, readWhile_of_some (h.trans ht)]

/-- The loop `while (stream >> record)` for a reader that is handed `next` of the record read
before, and `v` in the first round. -/
def readChain {α σ : Type*} (read : σ → Text → Option (α × Text)) (next : α → σ)
    (hread : ∀ v s a r, read v s = some (a, r) → r.length < s.length) (v : σ) (s : Text) :
    List α :=
  match h : read v s with
  | none => []
  | some (a, r) =>
    have : r.length < s.length := hread v s a r h
    a :: readChain read next hread (next a) r
termination_by s.length

section ReadChain

variable {α σ : Type*} {read : σ → Text → Option (α × Text)} {next : α → σ}
  {hread : ∀ v s a r, read v s = some (a, r) → r.length < s.length} {v : σ} {s r t : Text} {a : α}

theorem readChain_of_some (h : read v s = some (a, r)) :
    readChain read next hread v s = a :: readChain read next hread (next a) r := by
  rw [readChain]
  split
  · rename_i hnone; rw [h] at hnone; cases hnone
  · rename_i a' r' hsome
    rw [h] at hsome
    cases hsome
    rfl

theorem readChain_of_none (h : read v s = none) : readChain read next hread v s = [] := by
  rw [readChain]
  split
  · rfl
  · rename_i a' r' hsome; rw [h] at hsome; cases hsome

theorem readChain_congr (h : read v s = read v t) :
    readChain read next hread v s = readChain read next hread v t := by
  cases ht : read v t with
  | none => rw [readChain_of_none ht, readChain_of_none (h.trans ht)]
  | some p => rw [readChain_of_some ht, readChain_of_some (h.trans ht)]

end ReadChain

end WhitespaceTokens
