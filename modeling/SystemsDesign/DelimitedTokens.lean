/-
# Splitting a text at a delimiter

`getline(stream, token, delim)` as a function on the characters that are left: take characters up
to the next delimiter, drop the delimiter, and fail if the stream is at its end.  `tokens` is the
loop that reads until the stream fails and keeps what is not empty.

Result: the tokens are the maximal runs of characters other than the delimiter
(`tokens_eq_runs`), so that delimiters in front, at the end or in a row make no difference.
-/
import SystemsDesign.MaximalRuns
import SystemsDesign.WhitespaceTokens

namespace DelimitedTokens

open MaximalRuns WhitespaceTokens

variable {delim : Char}

/-- `getline(stream, token, delim)`: the token and the rest of the stream, or `none` when the
stream fails. -/
def getline (delim : Char) : Text → Option (Text × Text)
  | [] => none
  | c :: s =>
    some ((c :: s).takeWhile (· ≠ delim), ((c :: s).dropWhile (· ≠ delim)).tail)

/-- Reading a token consumes at least one character. -/
theorem length_lt_of_getline {s token r : Text} (h : getline delim s = some (token, r)) :
    r.length < s.length := by
  cases s with
  | nil => cases h
  | cons c s =>
    have hr : ((c :: s).dropWhile (· ≠ delim)).tail = r := congrArg Prod.snd (Option.some.inj h)
    have hle := (List.dropWhile_suffix (l := c :: s) (· ≠ delim)).length_le
    rw [← hr, List.length_tail]
    rw [List.length_cons] at hle ⊢
    omega

/-- The loop that collects the tokens that are not empty. -/
def tokens (delim : Char) (s : Text) : List Text :=
  (readWhile (getline delim) (fun _ _ _ => length_lt_of_getline) s).filter (· ≠ [])

theorem runs_append {α : Type*} {P : α → Bool} {word w text : List α}
    (hw : ∀ c ∈ w, P c = true) : runs P word (w ++ text) = runs P (word ++ w) text := by
  induction w generalizing word with
  | nil => rw [List.nil_append, List.append_nil]
  | cons c w ih =>
    rw [List.cons_append, runs, if_pos (hw c List.mem_cons_self),
      ih fun d hd => hw d (List.mem_cons_of_mem c hd), List.append_assoc, List.singleton_append]

theorem filter_cons_eq (w : Text) (ws : List Text) :
    (w :: ws).filter (· ≠ []) = closed w ++ ws.filter (· ≠ []) := by
  unfold closed
  split_ifs with h
  · simp [h]
  · simp [h]

/-- **The tokens are the maximal runs of characters other than the delimiter.** -/
theorem tokens_eq_runs (delim : Char) (s : Text) :
    tokens delim s = runs (fun c => decide (c ≠ delim)) [] s := by
  -- by induction on the length: one `getline` leaves a shorter stream
  induction hn : s.length using Nat.strong_induction_on generalizing s with
  | _ n ih =>
    cases s with
    | nil => exact congrArg _ (readWhile_of_none rfl)
    | cons c s =>
      have hline : getline delim (c :: s)
          = some ((c :: s).takeWhile (· ≠ delim), ((c :: s).dropWhile (· ≠ delim)).tail) := rfl
      have hread : tokens delim (c :: s) = closed ((c :: s).takeWhile (· ≠ delim))
          ++ tokens delim ((c :: s).dropWhile (· ≠ delim)).tail := by
        unfold tokens
        rw [readWhile_of_some hline, filter_cons_eq]
      have hword : ∀ d ∈ (c :: s).takeWhile (· ≠ delim), decide (d ≠ delim) = true :=
        fun d hd => List.mem_takeWhile_imp (p := fun c => decide (c ≠ delim)) hd
      have hsplit := List.takeWhile_append_dropWhile (p := (· ≠ delim)) (l := c :: s)
      rw [hread, ih _ (hn ▸ length_lt_of_getline hline) _ rfl]
      nth_rewrite 3 [← hsplit]
      rw [runs_append hword, List.nil_append]
      cases hrest : (c :: s).dropWhile (· ≠ delim) with
      | nil => exact List.append_nil _
      | cons d rest =>
        have hd : decide (d ≠ delim) = false := by
          have hne : (c :: s).dropWhile (· ≠ delim) ≠ [] := by rw [hrest]; simp
          have hhead := List.head_dropWhile_not (· ≠ delim) hne
          rwa [List.head_eq_iff_head?_eq_some hne |>.mpr (by rw [hrest]; rfl)] at hhead
        rw [runs, hd, List.tail_cons]
        rfl

end DelimitedTokens
