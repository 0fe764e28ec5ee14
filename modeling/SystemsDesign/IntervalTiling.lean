/-
# Tilings of an interval by blocks

A set of blocks is a partial function from start addresses to sizes.  `Tiling B T` says that the
blocks lie in `[0, T)` one after the other, without gaps: there is a block at `0`, a block ends
where the next one starts, and no block starts inside another.  Every address below `T` is then in
exactly one block.

Splitting a block and joining two neighbours change the function at two addresses.
-/
import Mathlib

/-- The blocks `B` tile the interval `[0, T)`. -/
structure Tiling (B : ℤ → Option ℤ) (T : ℤ) : Prop where
  zero : ∃ s, B 0 = some s
  bounds : ∀ {x s}, B x = some s → 0 ≤ x ∧ 0 < s ∧ x + s ≤ T
  next : ∀ {x s}, B x = some s → x + s = T ∨ ∃ s', B (x + s) = some s'
  inside : ∀ {x s y}, B x = some s → x < y → y < x + s → B y = none

namespace Tiling

variable {B : ℤ → Option ℤ} {T : ℤ}

theorem single (hT : 0 < T) (h0 : B 0 = some T) (hother : ∀ y, y ≠ 0 → B y = none) :
    Tiling B T := by
  have hblock : ∀ {x s}, B x = some s → x = 0 ∧ s = T := by
    intro x s hx
    by_cases hne : x = 0
    · subst hne
      exact ⟨rfl, Option.some.inj (hx.symm.trans h0)⟩
    · rw [hother x hne] at hx
      cases hx
  refine ⟨⟨T, h0⟩, fun hx => ?_, fun hx => ?_, fun hx hlt _ => ?_⟩
  · obtain ⟨rfl, rfl⟩ := hblock hx
    omega
  · obtain ⟨rfl, rfl⟩ := hblock hx
    exact Or.inl (zero_add _)
  · obtain ⟨rfl, rfl⟩ := hblock hx
    exact hother _ hlt.ne'

theorem disjoint (h : Tiling B T) {x x' s s' : ℤ} (hx : B x = some s) (hx' : B x' = some s')
    (hlt : x < x') : x + s ≤ x' := by
  by_contra hover
  rw [h.inside hx hlt (by omega)] at hx'
  cases hx'

/-- Every address below `T` is in a block. -/
theorem covered (h : Tiling B T) {y : ℤ} (h0 : 0 ≤ y) (hy : y < T) :
    ∃ x s, B x = some s ∧ x ≤ y ∧ y < x + s := by
  induction y, h0 using Int.leInduction with
  | base =>
    obtain ⟨s, hs⟩ := h.zero
    exact ⟨0, s, hs, le_rfl, by have := h.bounds hs; omega⟩
  | succ y h0 ih =>
    obtain ⟨x, s, hs, hle, hlt⟩ := ih (by omega)
    by_cases hend : y + 1 = x + s
    · -- The next block starts here.
      rcases h.next hs with hT | ⟨s', hs'⟩
      · omega
      · refine ⟨x + s, s', hs', hend.ge, ?_⟩
        have := h.bounds hs'
        omega
    · exact ⟨x, s, hs, by omega, by omega⟩

/-- Every address below `T` is in exactly one block. -/
theorem existsUnique (h : Tiling B T) {y : ℤ} (h0 : 0 ≤ y) (hy : y < T) :
    ∃! b : ℤ × ℤ, B b.1 = some b.2 ∧ b.1 ≤ y ∧ y < b.1 + b.2 := by
  obtain ⟨x, s, hs, hle, hlt⟩ := h.covered h0 hy
  refine ⟨(x, s), ⟨hs, hle, hlt⟩, ?_⟩
  rintro ⟨x', s'⟩ ⟨hs', hle', hlt'⟩
  dsimp only at hs' hle' hlt'
  rcases lt_trichotomy x x' with hxx | rfl | hxx
  · have := h.disjoint hs hs' hxx
    omega
  · rw [hs] at hs'
    rw [Option.some.inj hs']
  · have := h.disjoint hs' hs hxx
    omega

variable {B' : ℤ → Option ℤ} {x s : ℤ}

theorem apart (h : Tiling B T) {y t : ℤ} (hx : B x = some s) (hy : B y = some t) (hne : y ≠ x) :
    y + t ≤ x ∨ x + s ≤ y := by
  rcases lt_or_gt_of_ne hne with hlt | hgt
  · exact Or.inl (h.disjoint hy hx hlt)
  · exact Or.inr (h.disjoint hx hy hgt)

/-- A block is split in two. -/
theorem split (h : Tiling B T) {r : ℤ} (hx : B x = some s) (hr : 0 < r) (hrs : r < s)
    (h₁ : B' x = some r) (h₂ : B' (x + r) = some (s - r))
    (hother : ∀ y, y ≠ x → y ≠ x + r → B' y = B y) : Tiling B' T := by
  have hb := h.bounds hx
  have hmid : B (x + r) = none := h.inside hx (by omega) (by omega)
  -- The blocks afterwards.
  have hblock : ∀ {y t}, B' y = some t → y = x ∧ t = r ∨ y = x + r ∧ t = s - r ∨
      y ≠ x ∧ y ≠ x + r ∧ B y = some t := by
    intro y t hy
    by_cases hyx : y = x
    · subst hyx
      exact Or.inl ⟨rfl, Option.some.inj (hy.symm.trans h₁)⟩
    · by_cases hyr : y = x + r
      · subst hyr
        exact Or.inr (Or.inl ⟨rfl, Option.some.inj (hy.symm.trans h₂)⟩)
      · exact Or.inr (Or.inr ⟨hyx, hyr, (hother y hyx hyr).symm.trans hy⟩)
  refine ⟨?_, fun hy => ?_, fun {y t} hy => ?_, fun {y t z} hy hlt hlt' => ?_⟩
  · by_cases h0 : x = 0
    · exact ⟨r, h0 ▸ h₁⟩
    · rw [hother 0 (Ne.symm h0) (by omega)]
      exact h.zero
  · rcases hblock hy with ⟨rfl, rfl⟩ | ⟨rfl, rfl⟩ | ⟨-, -, hy⟩
    · omega
    · omega
    · exact h.bounds hy
  · rcases hblock hy with ⟨rfl, rfl⟩ | ⟨rfl, rfl⟩ | ⟨hyx, hyr, hy⟩
    · exact Or.inr ⟨_, h₂⟩
    · have hend : x + r + (s - r) = x + s := by ring
      rw [hend, hother _ (by omega) (by omega)]
      exact h.next hx
    · refine (h.next hy).imp id fun ⟨s', hs'⟩ => ?_
      by_cases hend : y + t = x
      · exact ⟨r, hend ▸ h₁⟩
      · refine ⟨s', (hother _ hend fun heq => ?_).trans hs'⟩
        rw [heq, hmid] at hs'
        cases hs'
  · rcases hblock hy with ⟨rfl, rfl⟩ | ⟨rfl, rfl⟩ | ⟨hyx, hyr, hy⟩
    · rw [hother z (by omega) (by omega)]
      exact h.inside hx hlt (by omega)
    · rw [hother z (by omega) (by omega)]
      exact h.inside hx (by omega) (by omega)
    · have hz := h.inside hy hlt hlt'
      rw [hother z (fun heq => ?_) (fun heq => ?_), hz]
      · rw [heq, hx] at hz
        cases hz
      · have := h.apart hx hy hyx
        omega

/-- Two neighbours are joined. -/
theorem join (h : Tiling B T) {s' : ℤ} (hx : B x = some s) (hx' : B (x + s) = some s')
    (h₁ : B' x = some (s + s')) (h₂ : B' (x + s) = none)
    (hother : ∀ y, y ≠ x → y ≠ x + s → B' y = B y) : Tiling B' T := by
  have hb := h.bounds hx
  have hb' := h.bounds hx'
  have hblock : ∀ {y t}, B' y = some t → y = x ∧ t = s + s' ∨
      y ≠ x ∧ y ≠ x + s ∧ B y = some t := by
    intro y t hy
    by_cases hyx : y = x
    · subst hyx
      exact Or.inl ⟨rfl, Option.some.inj (hy.symm.trans h₁)⟩
    · have hys : y ≠ x + s := by
        rintro rfl
        rw [h₂] at hy
        cases hy
      exact Or.inr ⟨hyx, hys, (hother y hyx hys).symm.trans hy⟩
  refine ⟨?_, fun hy => ?_, fun {y t} hy => ?_, fun {y t z} hy hlt hlt' => ?_⟩
  · by_cases h0 : x = 0
    · exact ⟨_, h0 ▸ h₁⟩
    · rw [hother 0 (Ne.symm h0) (by omega)]
      exact h.zero
  · rcases hblock hy with ⟨rfl, rfl⟩ | ⟨-, -, hy⟩
    · omega
    · exact h.bounds hy
  · rcases hblock hy with ⟨rfl, rfl⟩ | ⟨hyx, hys, hy⟩
    · have hend : y + (s + s') = y + s + s' := by ring
      rw [hend, hother _ (by omega) (by omega)]
      exact h.next hx'
    · have hbt := h.bounds hy
      refine (h.next hy).imp id fun ⟨u, hu⟩ => ?_
      by_cases hend : y + t = x
      · exact ⟨_, hend ▸ h₁⟩
      · refine ⟨u, (hother _ hend fun heq => ?_).trans hu⟩
        have := h.apart hx hy hyx
        omega
  · rcases hblock hy with ⟨rfl, rfl⟩ | ⟨hyx, hys, hy⟩
    · rcases lt_trichotomy z (y + s) with hz | rfl | hz
      · rw [hother z (by omega) (by omega)]
        exact h.inside hx hlt hz
      · exact h₂
      · rw [hother z (by omega) (by omega)]
        exact h.inside hx' hz (by omega)
    · have hz := h.inside hy hlt hlt'
      by_cases hzs : z = x + s
      · rw [hzs]
        exact h₂
      · rw [hother z (fun heq => ?_) hzs, hz]
        rw [heq, hx] at hz
        cases hz

end Tiling
