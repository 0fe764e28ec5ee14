/-
# Windows of a sequence in a ring of slots

A ring of `n` slots holds part of a sequence: the value at position `k` stands in slot `k % n`.
Positions are not bounded, and at most `n` of them are in the ring at a time, so that no two share a
slot.  `Window slots vs lo` says that the ring holds the values of `vs` from position `lo` on.  The
rules say how a value is written after the last one, read at the first position and given up.
-/
import Mathlib

namespace RingWindow

variable {T : Type*}

theorem eq_of_mod_eq (lo : ℕ) {n i j : ℕ} (hi : lo ≤ i) (hi' : i < lo + n) (hj : lo ≤ j)
    (hj' : j < lo + n) (h : i % n = j % n) : i = j := by
  apply Nat.ModEq.eq_of_abs_lt h
  rw [abs_lt]
  omega

/-- The ring holds the values of `vs` from position `lo` on. -/
structure Window (slots vs : List T) (lo : ℕ) : Prop where
  room : vs.length ≤ lo + slots.length
  slot : ∀ k, lo ≤ k → k < vs.length → slots[k % slots.length]? = vs[k]?

variable {slots vs : List T} {lo : ℕ}

theorem window_nil (slots : List T) : Window slots [] 0 :=
  ⟨Nat.zero_le _, fun k _ hk => absurd hk (Nat.not_lt_zero k)⟩

/-- A value is written after the last one, in a slot that the window does not use. -/
theorem Window.write (h : Window slots vs lo) (hlo : lo ≤ vs.length)
    (hroom : vs.length < lo + slots.length) (v : T) :
    Window (slots.set (vs.length % slots.length) v) (vs ++ [v]) lo := by
  refine ⟨by rw [List.length_append, List.length_set]; exact hroom, fun k hk hlt => ?_⟩
  rw [List.length_append, List.length_singleton] at hlt
  rw [List.length_set]
  rcases Nat.lt_succ_iff_lt_or_eq.mp hlt with hold | rfl
  · have hne : vs.length % slots.length ≠ k % slots.length := by
      intro heq
      have := eq_of_mod_eq lo hlo hroom hk (hold.trans hroom) heq
      omega
    rw [List.getElem?_set_ne hne, h.slot k hk hold, List.getElem?_append_left hold]
  · rw [List.getElem?_set_self (Nat.mod_lt _ (by omega)), List.getElem?_concat_length]

theorem Window.release (h : Window slots vs lo) : Window slots vs (lo + 1) :=
  ⟨h.room.trans (by omega), fun k hk hlt => h.slot k (Nat.le_of_succ_le hk) hlt⟩

theorem Window.read (h : Window slots vs lo) (hlo : lo < vs.length) :
    slots[lo % slots.length]? = vs[lo]? := h.slot lo le_rfl hlo

end RingWindow
