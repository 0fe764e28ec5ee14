/-
# Files of records

A stream is read record by record, by lines (`getline`) or by words (`>>`), and a file is written
with one record a line.  A list of records that has been written is read back as it was, provided
that the records are such as the reader delivers: lines without line ends, or words.
-/
import SystemsDesign.DelimitedTokens

namespace RecordStreams

open DelimitedTokens WhitespaceTokens

/-- How a record is read from a stream; every record takes at least one character. -/
structure Reader where
  read : Text → Option (Text × Text)
  shorter : ∀ s value rest, read s = some (value, rest) → rest.length < s.length

/-- `getline(stream, line)`. -/
def lineReader : Reader := ⟨getline '\n', fun _ _ _ => length_lt_of_getline⟩

/-- `stream >> word`. -/
def wordReader : Reader := ⟨readWord, fun _ _ _ => length_lt_of_readWord⟩

/-- All records of a stream: what a loop on the stream reads until it fails. -/
def Reader.all (R : Reader) (s : Text) : List Text := readWhile R.read R.shorter s

/-- What `output << value << '\n'` writes for a list of records. -/
def unlines (values : List Text) : Text := values.flatMap (· ++ ['\n'])

/-- The contents of the files, by name; a file that does not exist is read like an empty one. -/
abbrev Files := Text → Text

theorem unlines_cons (value : Text) (values : List Text) :
    unlines (value :: values) = value ++ '\n' :: unlines values := by
  rw [unlines, List.flatMap_cons, List.append_assoc]
  rfl

section Reader

variable {R : Reader} {s value rest : Text}

theorem Reader.all_of_some (h : R.read s = some (value, rest)) :
    R.all s = value :: R.all rest := readWhile_of_some h

theorem Reader.all_of_none (h : R.read s = none) : R.all s = [] := readWhile_of_none h

/-- What holds for every record that can be read holds for the records of a stream. -/
theorem Reader.forall_mem_all {P : Text → Prop}
    (h : ∀ s value rest, R.read s = some (value, rest) → P value) (s : Text) :
    ∀ value ∈ R.all s, P value := by
  induction hn : s.length using Nat.strong_induction_on generalizing s with
  | _ n ih =>
    cases hread : R.read s with
    | none =>
      rw [Reader.all_of_none hread]
      exact fun _ hmem => absurd hmem List.not_mem_nil
    | some p =>
      obtain ⟨value, rest⟩ := p
      rw [Reader.all_of_some hread]
      refine List.forall_mem_cons.mpr ⟨h s value rest hread, ?_⟩
      exact ih _ (hn ▸ R.shorter s value rest hread) rest rfl

end Reader

theorem numbered_injective (first : Text) {c : Char} (hc : c.isDigit = false) (last : Text) :
    Function.Injective fun i : ℕ => first ++ (decimal i ++ c :: last) := by
  intro i j h
  have hrest : decimal i ++ c :: last = decimal j ++ c :: last := List.append_cancel_left h
  have hi := readInt_decimal_append i hc last
  rw [hrest, readInt_decimal_append j hc last] at hi
  exact Int.ofNat.inj (Prod.mk.inj (Option.some.inj hi)).1.symm

/-! ## Lines -/

theorem getline_append {w : Text} {delim : Char} (hw : delim ∉ w) (s : Text) :
    getline delim (w ++ delim :: s) = some (w, s) := by
  have hpos : ∀ c ∈ w, decide (c ≠ delim) = true := by
    intro c hc
    exact decide_eq_true fun heq => hw (heq ▸ hc)
  have hne : w ++ delim :: s ≠ [] := by simp
  obtain ⟨c, t, ht⟩ := List.exists_cons_of_ne_nil hne
  rw [ht, getline, ← ht, List.takeWhile_append_of_pos hpos, List.dropWhile_append_of_pos hpos]
  simp

theorem notMem_of_getline {s value rest : Text} {delim : Char}
    (h : getline delim s = some (value, rest)) : delim ∉ value := by
  cases s with
  | nil => cases h
  | cons c s =>
    obtain ⟨rfl, -⟩ := Prod.mk.inj (Option.some.inj h)
    intro hmem
    simpa using List.mem_takeWhile_imp (p := fun c => decide (c ≠ delim)) hmem

theorem newline_notMem_of_mem_all {s value : Text} (h : value ∈ lineReader.all s) :
    '\n' ∉ value :=
  Reader.forall_mem_all (R := lineReader) (fun _ _ _ hread => notMem_of_getline hread) s value h

/-- **Lines that are written are read back.** -/
theorem lineReader_all_unlines {values : List Text} (h : ∀ value ∈ values, '\n' ∉ value) :
    lineReader.all (unlines values) = values := by
  induction values with
  | nil => exact Reader.all_of_none rfl
  | cons value values ih =>
    obtain ⟨hvalue, hvalues⟩ := List.forall_mem_cons.mp h
    have hread : lineReader.read (unlines (value :: values)) = some (value, unlines values) := by
      rw [unlines_cons]
      exact getline_append hvalue _
    rw [Reader.all_of_some hread, ih hvalues]

/-! ## Words -/

theorem isWord_of_readWord {s w r : Text} (h : readWord s = some (w, r)) : IsWord w := by
  unfold readWord at h
  cases hd : s.dropWhile isSpace with
  | nil =>
    rw [hd] at h
    cases h
  | cons c cs =>
    rw [hd] at h
    dsimp only at h
    rw [List.span_eq_takeWhile_dropWhile] at h
    obtain ⟨rfl, -⟩ := Prod.mk.inj (Option.some.inj h)
    have hc : isSpace c = false := by
      have hhead := List.head_dropWhile_not isSpace (l := s) (by rw [hd]; simp)
      simpa [hd] using hhead
    constructor
    · rw [List.takeWhile_cons_of_pos (by simp [hc])]
      exact List.cons_ne_nil _ _
    · intro d hd'
      simpa using List.mem_takeWhile_imp (p := fun d => !isSpace d) hd'

theorem isWord_of_mem_all {s value : Text} (h : value ∈ wordReader.all s) : IsWord value :=
  Reader.forall_mem_all (R := wordReader) (fun _ _ _ hread => isWord_of_readWord hread) s value h

/-- Whitespace in front makes no difference to the words of a stream. -/
theorem wordReader_all_cons_space {c : Char} (hc : isSpace c = true) (s : Text) :
    wordReader.all (c :: s) = wordReader.all s :=
  readWhile_congr (readWord_cons_space hc s)

/-- **Words that are written are read back.** -/
theorem wordReader_all_unlines {values : List Text} (h : ∀ value ∈ values, IsWord value) :
    wordReader.all (unlines values) = values := by
  induction values with
  | nil => exact Reader.all_of_none rfl
  | cons value values ih =>
    obtain ⟨hvalue, hvalues⟩ := List.forall_mem_cons.mp h
    have hread : wordReader.read (unlines (value :: values))
        = some (value, '\n' :: unlines values) := by
      rw [unlines_cons]
      exact readWord_append hvalue isSpace_newline _
    rw [Reader.all_of_some hread, wordReader_all_cons_space isSpace_newline, ih hvalues]

/-- The words of a text: what stands between white space, without the empty pieces. -/
def wordsOf (s : Text) : List Text := (s.splitOnP isSpace).filter (· ≠ [])

theorem wordsOf_append_space {c : Char} (hc : isSpace c = true) (s r : Text) :
    wordsOf (s ++ c :: r) = wordsOf s ++ wordsOf r := by
  rw [wordsOf, List.splitOnP_append_cons s r hc, List.filter_append, wordsOf, wordsOf]

theorem wordsOf_of_isWord {w : Text} (hw : IsWord w) : wordsOf w = [w] := by
  rw [wordsOf, List.splitOnP_eq_singleton hw.2, List.filter_cons_of_pos (by simpa using hw.1),
    List.filter_nil]

/-- Words and white space are read up to the end of the first word. -/
theorem exists_word_of_not_space {c : Char} (hc : isSpace c = false) (s : Text) :
    ∃ w r, c :: s = w ++ r ∧ IsWord w ∧ ∀ d ∈ r.head?, isSpace d = true := by
  refine ⟨(c :: s).takeWhile (fun d => !isSpace d), (c :: s).dropWhile (fun d => !isSpace d),
    List.takeWhile_append_dropWhile.symm, ⟨?_, fun d hd => ?_⟩, fun d hd => ?_⟩
  · rw [List.takeWhile_cons_of_pos (by simp [hc])]
    exact List.cons_ne_nil _ _
  · simpa using List.mem_takeWhile_imp (p := fun d => !isSpace d) hd
  · have hstop := List.head?_dropWhile_not (fun d => !isSpace d) (c :: s)
    rw [Option.mem_def.mp hd] at hstop
    simpa using hstop

/-- **The word reader reads the words.** -/
theorem wordReader_all_eq (s : Text) : wordReader.all s = wordsOf s := by
  induction hn : s.length using Nat.strong_induction_on generalizing s with
  | _ n ih =>
    subst hn
    cases s with
    | nil => exact Reader.all_of_none rfl
    | cons c s =>
      cases hc : isSpace c with
      | true =>
        rw [wordReader_all_cons_space hc, ih s.length (Nat.lt_succ_self _) s rfl]
        exact (wordsOf_append_space hc [] s).symm
      | false =>
        obtain ⟨w, r, heq, hw, hr⟩ := exists_word_of_not_space hc s
        have hpos := List.length_pos_of_ne_nil hw.1
        have hlen := congrArg List.length heq
        rw [List.length_append] at hlen
        rw [heq]
        cases r with
        | nil =>
          rw [List.append_nil, wordsOf_of_isWord hw,
            Reader.all_of_some (readWord_of_isWord hw : wordReader.read w = _)]
          exact congrArg _ (Reader.all_of_none rfl)
        | cons d r =>
          have hd : isSpace d = true := hr d rfl
          rw [Reader.all_of_some (readWord_append hw hd r : wordReader.read _ = _),
            wordReader_all_cons_space hd, wordsOf_append_space hd, wordsOf_of_isWord hw,
            ih r.length (by rw [hlen, List.length_cons]; omega) r rfl]
          rfl

/-- The characters of a piece of a text are characters of the text. -/
theorem mem_of_mem_splitOnP {p : Char → Bool} {s w : Text} (hw : w ∈ s.splitOnP p) {c : Char}
    (hc : c ∈ w) : c ∈ s := by
  induction s generalizing w with
  | nil =>
    rw [List.splitOnP_nil, List.mem_singleton] at hw
    rwa [hw] at hc
  | cons d s ih =>
    rw [List.splitOnP_cons_eq_if_modifyHead] at hw
    split_ifs at hw
    · rcases List.mem_cons.mp hw with rfl | hw
      · cases hc
      · exact List.mem_cons_of_mem _ (ih hw hc)
    · obtain ⟨first, rest, hsplit⟩ := List.exists_cons_of_ne_nil (List.splitOnP_ne_nil p s)
      rw [hsplit] at ih
      rw [hsplit, List.modifyHead_cons] at hw
      rcases List.mem_cons.mp hw with rfl | hw
      · rcases List.mem_cons.mp hc with rfl | hc
        · exact List.mem_cons_self
        · exact List.mem_cons_of_mem _ (ih List.mem_cons_self hc)
      · exact List.mem_cons_of_mem _ (ih (List.mem_cons_of_mem _ hw) hc)

theorem isWord_of_mem_wordsOf {s w : Text} (h : w ∈ wordsOf s) : IsWord w ∧ ∀ c ∈ w, c ∈ s := by
  refine ⟨?_, fun c hc => mem_of_mem_splitOnP (List.mem_of_mem_filter h) hc⟩
  rw [← wordReader_all_eq] at h
  exact isWord_of_mem_all h

end RecordStreams
