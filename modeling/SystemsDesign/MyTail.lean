/-
# The last lines of a file

Model of `unix-tools/my_tail.cpp`.  The file is read backwards in blocks, and the newlines are
counted until there are more of them than lines asked for; the file is printed from behind the last
newline counted, or from its start if there are not enough.

Two results.  The search over the blocks finds what it looks for, for every block size: the text
behind the newline that has `N` newlines behind it (`myTail_suffix`).  That text is the last `N`
lines if the file ends with a newline; otherwise it is one line too many, unless the file has no
more than `N` lines at all (`myTail_lastLines_iff`).
-/
import SystemsDesign.WhitespaceTokens

namespace MyTail

open WhitespaceTokens

/-! ## The command -/

/-- What the loop over a buffer ends with. -/
inductive Scan where
  /-- `goto done`, at this index. -/
  | found (i : ℕ)
  /-- The buffer is used up; the new `line_count`. -/
  | counted (lineCount : ℕ)
  deriving DecidableEq, Repr

/-- The loop over the buffer, from behind; `i + 1` characters are left. -/
def scanBuffer (lineNumber : ℕ) (buffer : Text) : ℕ → ℕ → Scan
  | 0, lineCount => .counted lineCount
  | i + 1, lineCount =>
    if buffer[i]? = some '\n' then
      if lineCount + 1 > lineNumber then .found i
      else scanBuffer lineNumber buffer i (lineCount + 1)
    else scanBuffer lineNumber buffer i lineCount

/-- `lseek(fd, pos, SEEK_SET)` and `read(fd, buffer, bytes)`. -/
def readAt (content : Text) (pos bytes : ℕ) : Text := (content.drop pos).take bytes

theorem length_readAt (content : Text) (pos bytes : ℕ) :
    (readAt content pos bytes).length = min bytes (content.length - pos) := by
  rw [readAt, List.length_take, List.length_drop]

/-- The loop over the blocks, from behind: the position from which the file is printed. -/
def findStart {blockSize : ℕ} (hb : 0 < blockSize) (content : Text) (lineNumber pos lineCount : ℕ) :
    ℕ :=
  if h : lineCount ≤ lineNumber ∧ pos > 0 then
    let bytesToRead := min blockSize pos
    let start := pos - bytesToRead
    have : start < pos := Nat.sub_lt h.2 (lt_min hb h.2)
    match scanBuffer lineNumber (readAt content start bytesToRead) bytesToRead lineCount with
    | .found i => start + (i + 1)
    | .counted lineCount => findStart hb content lineNumber start lineCount
  -- not enough lines
  else 0
termination_by pos

/-- The loop that prints the file from a position, block by block. -/
def printFrom {blockSize : ℕ} (hb : 0 < blockSize) (content : Text) (pos : ℕ) : Text :=
  let buffer := readAt content pos blockSize
  if h : buffer.length > 0 then
    have : content.length - (pos + buffer.length) < content.length - pos := by
      have hlen : buffer.length = min blockSize (content.length - pos) := length_readAt _ _ _
      omega
    buffer ++ printFrom hb content (pos + buffer.length)
  else []
termination_by content.length - pos

/-- `my_tail_command(filename, line_number)`: what is printed.  A file that cannot be opened is
reported on the error output. -/
def myTailCommand {blockSize : ℕ} (hb : 0 < blockSize) (file : Option Text) (lineNumber : ℕ) :
    Text :=
  match file with
  | none => []
  | some content =>
    printFrom hb content (findStart hb content lineNumber content.length 0)

/-! ## The search -/

variable {blockSize : ℕ} {content : Text}

/-- **The loop over a buffer.**  With `lineCount` newlines behind it, it stops at the newline that
has `lineNumber` of them behind it, or counts those that are there. -/
theorem scanBuffer_spec {lineNumber : ℕ} {buffer : Text} {i lineCount : ℕ}
    (hi : i ≤ buffer.length) (hle : lineCount ≤ lineNumber) :
    (∃ a b, buffer.take i = a ++ '\n' :: b ∧ lineCount + b.count '\n' = lineNumber ∧
      scanBuffer lineNumber buffer i lineCount = .found a.length) ∨
    (lineCount + (buffer.take i).count '\n' ≤ lineNumber ∧
      scanBuffer lineNumber buffer i lineCount
        = .counted (lineCount + (buffer.take i).count '\n')) := by
  induction i generalizing lineCount with
  | zero => exact Or.inr ⟨by simpa using hle, by simp [scanBuffer]⟩
  | succ i ih =>
    have hlt : i < buffer.length := hi
    have htake : buffer.take (i + 1) = buffer.take i ++ [buffer[i]] :=
      List.take_succ_eq_append_getElem hlt
    rw [htake, scanBuffer, List.getElem?_eq_getElem hlt]
    by_cases hc : buffer[i] = '\n'
    · rw [hc, if_pos rfl]
      by_cases hfull : lineCount + 1 > lineNumber
      · -- this is the newline to stop at
        rw [if_pos hfull]
        refine Or.inl ⟨buffer.take i, [], rfl, ?_, ?_⟩
        · rw [List.count_nil]
          omega
        · rw [List.length_take_of_le hlt.le]
      · rw [if_neg hfull, List.count_append, List.count_singleton_self]
        rcases ih hlt.le (not_lt.mp hfull) with ⟨a, b, hsplit, hcount, hscan⟩ | ⟨hcount, hscan⟩
        · refine Or.inl ⟨a, b ++ ['\n'], ?_, ?_, hscan⟩
          · rw [hsplit, List.append_assoc, List.cons_append]
          · rw [List.count_append, List.count_singleton_self]
            omega
        · refine Or.inr ⟨by omega, ?_⟩
          rw [hscan, add_right_comm, add_assoc]
    · have hne : some buffer[i] ≠ some '\n' := fun heq => hc (Option.some.inj heq)
      have hzero : [buffer[i]].count '\n' = 0 := List.count_eq_zero.mpr (by simpa using Ne.symm hc)
      rw [if_neg hne, List.count_append, hzero, add_zero]
      rcases ih hlt.le hle with ⟨a, b, hsplit, hcount, hscan⟩ | hcounted
      · refine Or.inl ⟨a, b ++ [buffer[i]], ?_, ?_, hscan⟩
        · rw [hsplit, List.append_assoc, List.cons_append]
        · rw [List.count_append, hzero, add_zero]
          exact hcount
      · exact Or.inr hcounted

theorem drop_eq_readAt_append (content : Text) (pos bytes : ℕ) :
    content.drop pos = readAt content pos bytes ++ content.drop (pos + bytes) := by
  rw [readAt, ← List.drop_drop, List.take_append_drop]

/-- **The loop over the blocks.**  With `lineCount` newlines behind `pos`, it finds the place behind
the newline that has `lineNumber` newlines behind it, or the start of the file. -/
theorem findStart_spec (hb : 0 < blockSize) {lineNumber pos lineCount : ℕ}
    (hpos : pos ≤ content.length)
    (hcount : (content.drop pos).count '\n' = lineCount) (hle : lineCount ≤ lineNumber) :
    (∃ a b, content = a ++ '\n' :: b ∧ b.count '\n' = lineNumber ∧
      findStart hb content lineNumber pos lineCount = a.length + 1) ∨
    (content.count '\n' ≤ lineNumber ∧ findStart hb content lineNumber pos lineCount = 0) := by
  induction hn : pos using Nat.strong_induction_on generalizing pos lineCount with
  | _ n ih =>
    subst hn
    rw [findStart]
    by_cases hmore : pos > 0
    · rw [dif_pos ⟨hle, hmore⟩]
      dsimp only
      set bytes := min blockSize pos
      have hbytes : 0 < bytes := lt_min hb hmore
      have hbytes' : bytes ≤ pos := min_le_right _ _
      set buffer := readAt content (pos - bytes) bytes
      -- the file: what is in front of the buffer, the buffer, what has been searched
      have hrest : content.drop (pos - bytes) = buffer ++ content.drop pos := by
        have hdrop := drop_eq_readAt_append content (pos - bytes) bytes
        rwa [Nat.sub_add_cancel hbytes'] at hdrop
      have hlength : buffer.length = bytes := by
        rw [length_readAt]
        omega
      have htake : buffer.take bytes = buffer := by
        rw [← hlength, List.take_length]
      have hspec := scanBuffer_spec (i := bytes) hlength.ge hle
      rw [htake] at hspec
      rcases hspec with ⟨a, b, hsplit, hb', hscan⟩ | ⟨hsum, hscan⟩
      · refine Or.inl ⟨content.take (pos - bytes) ++ a, b ++ content.drop pos, ?_, ?_, ?_⟩
        · rw [List.append_assoc, ← List.cons_append, ← List.append_assoc a, ← hsplit, ← hrest,
            List.take_append_drop]
        · rw [List.count_append, hcount]
          omega
        · rw [hscan, List.length_append, List.length_take_of_le (by omega)]
          rfl
      · rw [hscan]
        refine ih (pos - bytes) (by omega) (by omega) ?_ hsum rfl
        rw [hrest, List.count_append, hcount, add_comm]
    · rw [dif_neg fun h => hmore h.2]
      have hzero : pos = 0 := Nat.eq_zero_of_not_pos hmore
      rw [hzero, List.drop_zero] at hcount
      exact Or.inr ⟨hcount.trans_le hle, rfl⟩

theorem printFrom_eq (hb : 0 < blockSize) (content : Text) (pos : ℕ) :
    printFrom hb content pos = content.drop pos := by
  induction hn : content.length - pos using Nat.strong_induction_on generalizing pos with
  | _ n ih =>
    rw [printFrom]
    dsimp only
    have hlen := length_readAt content pos blockSize
    split_ifs with hmore
    · rw [ih _ (by omega) _ rfl, hlen, drop_eq_readAt_append content pos blockSize]
      rcases le_total blockSize (content.length - pos) with hle | hle
      · rw [min_eq_left hle]
      · -- the last block
        rw [min_eq_right hle, List.drop_eq_nil_of_le (by omega : content.length ≤ pos + blockSize),
          List.drop_eq_nil_of_le (by omega)]
    · exact (List.drop_eq_nil_of_le (by omega)).symm

/-- What is printed: the whole file, or what comes behind the newline that was looked for. -/
theorem myTailCommand_spec (hb : 0 < blockSize) (content : Text) (lineNumber : ℕ) :
    (content.count '\n' ≤ lineNumber ∧ myTailCommand hb (some content) lineNumber = content) ∨
      ∃ a b, content = a ++ '\n' :: b ∧ b.count '\n' = lineNumber ∧
        myTailCommand hb (some content) lineNumber = b := by
  have hnone : (content.drop content.length).count '\n' = 0 := by simp
  rcases findStart_spec hb le_rfl hnone (Nat.zero_le lineNumber) with
    ⟨a, b, hsplit, hcount, hstart⟩ | ⟨hcount, hstart⟩
  · refine Or.inr ⟨a, b, hsplit, hcount, ?_⟩
    rw [myTailCommand, printFrom_eq, hstart, hsplit, List.append_cons]
    exact List.drop_left' (by simp)
  · exact Or.inl ⟨hcount, by rw [myTailCommand, printFrom_eq, hstart, List.drop_zero]⟩

theorem count_lt_of_append_eq {x b b' : Text} (hne : x ≠ [])
    (h : '\n' :: b = x ++ '\n' :: b') : b'.count '\n' < b.count '\n' := by
  obtain ⟨c, y, rfl⟩ := List.exists_cons_of_ne_nil hne
  have hb : b = y ++ '\n' :: b' := (List.cons.inj h).2
  rw [hb, List.count_append, List.count_cons_self]
  omega

theorem eq_of_count_eq {a b a' b' : Text} (h : a ++ '\n' :: b = a' ++ '\n' :: b')
    (hcount : b.count '\n' = b'.count '\n') : b = b' := by
  rcases List.append_eq_append_iff.mp h with ⟨x, -, hx⟩ | ⟨x, -, hx⟩
  · by_cases hne : x = []
    · rw [hne] at hx
      exact (List.cons.inj hx).2
    · exact absurd hcount (count_lt_of_append_eq hne hx).ne'
  · by_cases hne : x = []
    · rw [hne] at hx
      exact (List.cons.inj hx).2.symm
    · exact absurd hcount (count_lt_of_append_eq hne hx).ne

/-- **The backward scan.**  For every block size, a file with at most `lineNumber` newlines is
printed as a whole; a file with more of them has one with `lineNumber` newlines behind it, and what
comes behind that one is printed. -/
theorem myTail_suffix (hb : 0 < blockSize) (content : Text) (lineNumber : ℕ) :
    (content.count '\n' ≤ lineNumber → myTailCommand hb (some content) lineNumber = content) ∧
      (content.count '\n' > lineNumber →
        ∃ a b, content = a ++ '\n' :: b ∧ b.count '\n' = lineNumber) ∧
      ∀ a b, content = a ++ '\n' :: b → b.count '\n' = lineNumber →
        myTailCommand hb (some content) lineNumber = b := by
  rcases myTailCommand_spec hb content lineNumber with
    ⟨hcount, hout⟩ | ⟨a, b, hsplit, hcount, hout⟩
  · refine ⟨fun _ => hout, fun hgt => absurd hcount hgt.not_ge, ?_⟩
    intro a b hsplit hb'
    rw [hsplit, List.count_append, List.count_cons_self] at hcount
    omega
  · refine ⟨fun hle => ?_, fun _ => ⟨a, b, hsplit, hcount⟩, ?_⟩
    · rw [hsplit, List.count_append, List.count_cons_self] at hle
      omega
    · intro a' b' hsplit' hcount'
      rw [hout]
      exact eq_of_count_eq (hsplit.symm.trans hsplit') (hcount.trans hcount'.symm)

theorem myTail_suffix_blocks :
    myTailCommand (show 0 < 2 by decide) (some "ab\ncd\nef\n".toList) 1 = "ef\n".toList :=
  (myTail_suffix (by decide) "ab\ncd\nef\n".toList 1).2.2 "ab\ncd".toList "ef\n".toList
    (by decide) (by decide)

/-! ## Lines -/

/-- The lines of a text, each with the newline that ends it; the last one may have none. -/
def lines : Text → List Text
  | [] => []
  | c :: s =>
    if c = '\n' then [c] :: lines s
    else match lines s with
      | [] => [[c]]
      | line :: rest => (c :: line) :: rest

/-- The last `n` lines of a text, or all of them. -/
def lastLines (n : ℕ) (s : Text) : Text :=
  ((lines s).drop ((lines s).length - min n (lines s).length)).flatten

/-- The last line of the text, if there is one, ends with a newline. -/
def Terminated (s : Text) : Prop := s = [] ∨ s.getLast? = some '\n'

instance (s : Text) : Decidable (Terminated s) := inferInstanceAs (Decidable (_ ∨ _))

theorem flatten_lines (s : Text) : (lines s).flatten = s := by
  induction s with
  | nil => rfl
  | cons c s ih =>
    rw [lines]
    split_ifs
    · rw [List.flatten_cons, ih, List.singleton_append]
    · cases hl : lines s with
      | nil => simpa [hl] using ih
      | cons line rest => simpa [hl] using ih

theorem ne_nil_of_mem_lines {s line : Text} (h : line ∈ lines s) : line ≠ [] := by
  induction s generalizing line with
  | nil => simp [lines] at h
  | cons c s ih =>
    rw [lines] at h
    split_ifs at h
    · rcases List.mem_cons.mp h with rfl | h
      · exact List.cons_ne_nil _ _
      · exact ih h
    · cases hl : lines s with
      | nil => simp_all
      | cons first rest =>
        rw [hl] at h ih
        rcases List.mem_cons.mp h with rfl | h
        · exact List.cons_ne_nil _ _
        · exact ih (List.mem_cons_of_mem _ h)

theorem lines_append (a b : Text) :
    lines (a ++ '\n' :: b) = lines (a ++ ['\n']) ++ lines b := by
  induction a with
  | nil => simp [lines]
  | cons c a ih =>
    rw [List.cons_append, List.cons_append, lines, lines, ih]
    split_ifs
    · rfl
    · cases hl : lines (a ++ ['\n']) with
      | nil =>
        have hflat := flatten_lines (a ++ ['\n'])
        rw [hl] at hflat
        simp at hflat
      | cons line rest => rfl

theorem lines_eq_nil_iff {s : Text} : lines s = [] ↔ s = [] := by
  constructor
  · intro h
    rw [← flatten_lines s, h, List.flatten_nil]
  · rintro rfl
    rfl

theorem terminated_append_iff {a b : Text} (h : b ≠ []) : Terminated (a ++ b) ↔ Terminated b := by
  rw [Terminated, Terminated, List.getLast?_append_of_ne_nil _ h]
  simp [h]

/-- **Lines and newlines.**  There are as many lines as newlines, and one more if the last line is
not terminated. -/
theorem length_lines (s : Text) :
    (lines s).length = s.count '\n' + if Terminated s then 0 else 1 := by
  induction s with
  | nil => rfl
  | cons c s ih =>
    by_cases hs : s = []
    · subst hs
      by_cases hc : c = '\n' <;> simp [lines, Terminated, hc]
    · have hterm : Terminated (c :: s) ↔ Terminated s := terminated_append_iff (a := [c]) hs
      rw [lines, if_congr hterm rfl rfl, List.count_cons]
      by_cases hc : c = '\n'
      · rw [if_pos hc, List.length_cons, ih, hc]
        simp only [beq_self_eq_true, if_true]
        omega
      · obtain ⟨line, rest, hl⟩ := List.exists_cons_of_ne_nil (mt lines_eq_nil_iff.mp hs)
        rw [hl, List.length_cons] at ih
        rw [if_neg hc, hl, List.length_cons, ih]
        simp [hc]

/-! ## What is printed, in lines -/

/-- The last `n` lines are the whole text exactly if there are no more than that. -/
theorem lastLines_eq_self_iff {n : ℕ} {s : Text} : lastLines n s = s ↔ (lines s).length ≤ n := by
  constructor
  · intro h
    by_contra hlt
    have hpos : 0 < (lines s).length - min n (lines s).length := by omega
    -- the lines left out have characters
    have hsplit := congrArg List.flatten
      (List.take_append_drop ((lines s).length - min n (lines s).length) (lines s))
    rw [List.flatten_append, flatten_lines] at hsplit
    rw [lastLines] at h
    rw [h] at hsplit
    have hnil := List.append_left_eq_self.mp hsplit
    obtain ⟨line, rest, hl⟩ := List.exists_cons_of_length_pos (show 0 < (lines s).length by omega)
    obtain ⟨k, hk⟩ := Nat.exists_eq_succ_of_ne_zero hpos.ne'
    rw [hk, hl, List.take_succ_cons, List.flatten_cons] at hnil
    have hmem : line ∈ lines s := hl ▸ List.mem_cons_self
    exact ne_nil_of_mem_lines hmem (List.append_eq_nil_iff.mp hnil).1
  · intro h
    rw [lastLines, min_eq_right h, Nat.sub_self, List.drop_zero, flatten_lines]

theorem lastLines_append {n : ℕ} {a b : Text} (h : n ≤ (lines b).length) :
    lastLines n (a ++ '\n' :: b) = lastLines n b := by
  rw [lastLines, lines_append, List.length_append, min_eq_left (h.trans (Nat.le_add_left _ _)),
    Nat.add_sub_assoc h, ← List.drop_drop, List.drop_left, lastLines, min_eq_left h]

/-- **What is printed are the last lines exactly if the file ends with a newline, or is empty, or
has no more lines than asked for.** -/
theorem myTail_lastLines_iff (hb : 0 < blockSize) (content : Text) (lineNumber : ℕ) :
    myTailCommand hb (some content) lineNumber = lastLines lineNumber content ↔
      Terminated content ∨ (lines content).length ≤ lineNumber := by
  have hlen := length_lines content
  rcases myTailCommand_spec hb content lineNumber with ⟨hcount, hout⟩ | ⟨a, b, hsplit, hcount, hout⟩
  · rw [hout, eq_comm, lastLines_eq_self_iff]
    refine ⟨Or.inr, ?_⟩
    rintro (hterm | hle)
    · rw [if_pos hterm] at hlen
      omega
    · exact hle
  · have hlenb := length_lines b
    have hle : lineNumber ≤ (lines b).length := by omega
    -- there is a line in front of those printed
    have hmore : ¬ (lines content).length ≤ lineNumber := by
      have hne : lines (a ++ ['\n']) ≠ [] := mt lines_eq_nil_iff.mp (by simp)
      have hpos := List.length_pos_of_ne_nil hne
      rw [hsplit, lines_append, List.length_append]
      omega
    have hterm : Terminated content ↔ Terminated b := by
      rw [hsplit, List.append_cons]
      by_cases hnil : b = []
      · simp [hnil, Terminated]
      · exact terminated_append_iff hnil
    rw [hout, eq_comm, hsplit, lastLines_append hle, lastLines_eq_self_iff, ← hsplit,
      or_iff_left hmore, hterm, hlenb, hcount]
    by_cases hb' : Terminated b <;> simp [hb']

theorem myTail_lastLines_terminated :
    Terminated "a\nb\n".toList ∧
      myTailCommand (show 0 < 4096 by decide) (some "a\nb\n".toList) 1
        = lastLines 1 "a\nb\n".toList :=
  ⟨by decide, (myTail_lastLines_iff (by decide) "a\nb\n".toList 1).mpr (Or.inl (by decide))⟩

/-- A file whose last line is not terminated: of its two lines one was asked for. -/
theorem myTail_unterminated :
    myTailCommand (show 0 < 4096 by decide) (some "a\nb".toList) 1 = "a\nb".toList ∧
      lastLines 1 "a\nb".toList = "b".toList := by
  refine ⟨?_, by decide⟩
  simp [myTailCommand, printFrom_eq, findStart, scanBuffer, readAt]

end MyTail
