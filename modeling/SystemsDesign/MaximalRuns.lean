/-
# Maximal runs

For a class `P` of letters, a run of a text is a non-empty block of letters of the class that
cannot be extended to either side (`IsRun`).  `runs P word text` collects them from left to right,
where `word` is the run that is open at the front of the text.

Result: exactly the runs are collected (`mem_runs`).
-/
import Mathlib

namespace MaximalRuns

variable {α : Type*} (P : α → Bool)

/-- `w` is a maximal run of letters of the class `P` in the text. -/
def IsRun (text w : List α) : Prop :=
  ∃ before after, text = before ++ w ++ after ∧ w ≠ [] ∧ (∀ c ∈ w, P c = true) ∧
    (∀ c ∈ before.getLast?, P c = false) ∧ ∀ c ∈ after.head?, P c = false

/-- The open run `word`, if it is one. -/
def closed (word : List α) : List (List α) := if word = [] then [] else [word]

/-- The runs of `word ++ text`, where `word` is open. -/
def runs : List α → List α → List (List α)
  | word, [] => closed word
  | word, c :: text => if P c then runs (word ++ [c]) text else closed word ++ runs [] text

variable {P} {word text w : List α} {c : α}

theorem mem_closed : w ∈ closed word ↔ w = word ∧ word ≠ [] := by
  unfold closed
  split_ifs with h
  · simp [h]
  · simp [h]

theorem takeWhile_append_stop (hword : ∀ c ∈ word, P c = true)
    (htext : ∀ c ∈ text.head?, P c = false) : (word ++ text).takeWhile P = word := by
  rw [List.takeWhile_append_of_pos hword]
  cases text with
  | nil => simp
  | cons c text => simp [htext c rfl]

/-- **A letter outside the class separates the runs.** -/
theorem isRun_append_cons (hword : ∀ c ∈ word, P c = true) (hc : P c = false) :
    IsRun P (word ++ c :: text) w ↔ w = word ∧ word ≠ [] ∨ IsRun P text w := by
  constructor
  · rintro ⟨before, after, heq, hne, hw, hbefore, hafter⟩
    rcases List.eq_nil_or_concat before with rfl | ⟨init, d, rfl⟩
    · -- a run at the front ends at `c`
      have hsame : w = word := by
        rw [List.nil_append] at heq
        rw [← takeWhile_append_stop hw hafter, ← heq]
        exact takeWhile_append_stop hword (by simpa using hc)
      exact .inl ⟨hsame, hsame ▸ hne⟩
    · -- any other run starts behind a letter outside the class, so behind `word`
      right
      have hd : P d = false := hbefore d (by simp)
      rw [List.concat_eq_append, List.append_assoc, List.append_assoc, List.append_eq_append_iff]
        at heq
      rcases heq with ⟨mid, hinit, hrest⟩ | ⟨mid, hwordeq, hrest⟩
      · cases mid with
        | nil =>
          obtain ⟨rfl, hrest⟩ := List.cons.inj hrest
          exact ⟨[], after, by simpa using hrest, hne, hw, by simp, hafter⟩
        | cons e mid =>
          obtain ⟨rfl, hrest⟩ := List.cons.inj hrest
          exact ⟨mid ++ [d], after, by simpa using hrest, hne, hw, by simpa using hd, hafter⟩
      · cases mid with
        | nil =>
          obtain ⟨rfl, hrest⟩ := List.cons.inj hrest
          exact ⟨[], after, by simpa using hrest.symm, hne, hw, by simp, hafter⟩
        | cons e mid =>
          obtain ⟨rfl, -⟩ := List.cons.inj hrest
          have := hword d (by simp [hwordeq])
          exact absurd (hd.symm.trans this) Bool.noConfusion
  · rintro (⟨rfl, hne⟩ | ⟨before, after, rfl, hne, hw, hbefore, hafter⟩)
    · exact ⟨[], c :: text, rfl, hne, hword, by simp, by simpa using hc⟩
    · refine ⟨word ++ c :: before, after, by simp, hne, hw, fun d hd => ?_, hafter⟩
      cases before with
      | nil =>
        obtain rfl : c = d := by simpa using hd
        exact hc
      | cons e before => exact hbefore d (by simpa using hd)

/-- In a text of letters of the class the only run is the text. -/
theorem isRun_of_forall (hword : ∀ c ∈ word, P c = true) :
    IsRun P word w ↔ w = word ∧ word ≠ [] := by
  constructor
  · rintro ⟨before, after, heq, hne, hw, hbefore, hafter⟩
    have hnil : before = [] := by
      rcases List.eq_nil_or_concat before with rfl | ⟨init, d, rfl⟩
      · rfl
      · have := hword d (by simp [heq])
        exact absurd ((hbefore d (by simp)).symm.trans this) Bool.noConfusion
    have hnil' : after = [] := by
      cases after with
      | nil => rfl
      | cons d after =>
        have := hword d (by simp [heq])
        exact absurd ((hafter d rfl).symm.trans this) Bool.noConfusion
    obtain rfl : word = w := by simpa [hnil, hnil'] using heq
    exact ⟨rfl, hne⟩
  · rintro ⟨rfl, hne⟩
    exact ⟨[], [], by simp, hne, hword, by simp, by simp⟩

/-- **Exactly the maximal runs are collected.** -/
theorem mem_runs (hword : ∀ c ∈ word, P c = true) :
    w ∈ runs P word text ↔ IsRun P (word ++ text) w := by
  induction text generalizing word with
  | nil => rw [runs, mem_closed, List.append_nil, isRun_of_forall hword]
  | cons c text ih =>
    rw [runs]
    split_ifs with hc
    · have hword' : ∀ d ∈ word ++ [c], P d = true := by
        intro d hd
        rcases List.mem_append.mp hd with hd | hd
        · exact hword d hd
        · rw [List.mem_singleton.mp hd]
          exact hc
      rw [ih hword', List.append_assoc, List.singleton_append]
    · rw [List.mem_append, mem_closed, ih (by simp), List.nil_append,
        isRun_append_cons hword (Bool.eq_false_of_not_eq_true hc)]

end MaximalRuns
