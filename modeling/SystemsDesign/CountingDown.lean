/-
# Counters that come down to zero

Each element of a type has a counter.  The elements of a list are counted off one after the
other, each at its own counter, and whoever comes down to zero is released.  As long as no
counter is overdrawn, the released elements are those that the list has exactly as often as
their counters say, each of them once.
-/
import Mathlib

namespace CountingDown

variable {α : Type*} [DecidableEq α]

/-- The counters, with that of `c` one lower. -/
def lower (d : α → ℤ) (c : α) : α → ℤ := Function.update d c (d c - 1)

/-- The elements whose counters come down to zero, in the order in which they do. -/
def released : (α → ℤ) → List α → List α
  | _, [] => []
  | d, c :: cs =>
    if d c = 1 then c :: released (lower d c) cs else released (lower d c) cs

variable {d : α → ℤ}

theorem lower_apply (d : α → ℤ) (c t : α) : lower d c t = d t - if c = t then 1 else 0 := by
  unfold lower
  by_cases hc : c = t
  · rw [hc, Function.update_self, if_pos rfl]
  · rw [Function.update_of_ne (Ne.symm hc), if_neg hc, sub_zero]

theorem count_cons_cast (c : α) (cs : List α) (t : α) :
    (((c :: cs).count t : ℕ) : ℤ) = cs.count t + if c = t then 1 else 0 := by
  rw [List.count_cons]
  push_cast
  simp

theorem foldl_lower (d : α → ℤ) (cs : List α) (t : α) :
    cs.foldl lower d t = d t - cs.count t := by
  induction cs generalizing d with
  | nil => simp
  | cons c cs ih =>
    rw [List.foldl_cons, ih, lower_apply, count_cons_cast]
    omega

/-- What is left of the list does not overdraw what is left of the counters. -/
theorem count_le_lower {c : α} {cs : List α} (h : ∀ t, ((c :: cs).count t : ℤ) ≤ d t) (t : α) :
    (cs.count t : ℤ) ≤ lower d c t := by
  have ht := h t
  rw [count_cons_cast] at ht
  rw [lower_apply]
  omega

/-- **Who is released**: the elements that the list has as often as their counters say. -/
theorem mem_released {cs : List α} (h : ∀ t, (cs.count t : ℤ) ≤ d t) (t : α) :
    t ∈ released d cs ↔ t ∈ cs ∧ d t = cs.count t := by
  induction cs generalizing d with
  | nil => simp [released]
  | cons c cs ih =>
    have hrest := ih (count_le_lower h)
    rw [lower_apply] at hrest
    rw [count_cons_cast, released]
    by_cases hct : c = t
    · subst hct
      have hc := h c
      rw [count_cons_cast, if_pos rfl] at hc
      rw [if_pos rfl] at hrest ⊢
      by_cases hone : d c = 1
      · rw [if_pos hone]
        refine iff_of_true List.mem_cons_self ⟨List.mem_cons_self, ?_⟩
        omega
      · -- `c` is not through yet, so it comes again
        rw [if_neg hone, hrest]
        have hagain : d c = cs.count c + 1 → c ∈ cs := by
          intro hd
          apply List.count_pos_iff.mp
          omega
        exact ⟨fun hd => ⟨List.mem_cons_self, by omega⟩, fun hd => ⟨hagain hd.2, by omega⟩⟩
    · rw [if_neg hct, sub_zero] at hrest
      rw [if_neg hct, add_zero, List.mem_cons, or_iff_right (Ne.symm hct), ← hrest]
      split_ifs
      · rw [List.mem_cons, or_iff_right (Ne.symm hct)]
      · rfl

theorem nodup_released {cs : List α} (h : ∀ t, (cs.count t : ℤ) ≤ d t) :
    (released d cs).Nodup := by
  induction cs generalizing d with
  | nil => exact List.nodup_nil
  | cons c cs ih =>
    have hle := count_le_lower h
    rw [released]
    split_ifs with hone
    · refine List.nodup_cons.mpr ⟨fun hc => ?_, ih hle⟩
      -- once at zero, `c` cannot be counted off again
      obtain ⟨hmem, hcount⟩ := (mem_released hle c).mp hc
      have hpos := List.count_pos_iff.mpr hmem
      rw [lower_apply, if_pos rfl] at hcount
      omega
    · exact ih hle

end CountingDown
