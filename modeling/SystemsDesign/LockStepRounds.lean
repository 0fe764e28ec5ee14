/-
# Rounds opened under one's own lock are won by one participant only

An abstract model of a contest for numbered rounds, over any type of participants
and any linear order of rounds.  A participant opens a round by locking itself and
moving to a round strictly above its own; while locked it visits the others one at
a time, each visit needs the visited participant unlocked and leaves it in a round
at least the visitor's; a participant that has visited everybody may record a win
of its round.  Rounds of unlocked participants may rise at any time.

No counting of votes enters: `Ledger.won_unique` says that two participants never
win the same round, because a full tour of visits and the locks order any two tours.
-/
import SystemsDesign.TransitionSystem

namespace LockStepRounds

open TransitionSystem

variable {ι τ : Type*} [DecidableEq ι] [LinearOrder τ]

/-! ## The ledger and its steps -/

/-- Every participant's round, what a locked participant has still to visit, and the
rounds won so far. -/
structure Ledger (ι τ : Type*) where
  /-- The current round of each participant. -/
  round : ι → τ
  /-- `some R` while the participant is locked and has still to visit `R`. -/
  pending : ι → Option (Set ι)
  /-- The wins recorded so far. -/
  won : Set (ι × τ)

namespace Ledger

/-- The moves of the contest. -/
inductive Step : Ledger ι τ → Ledger ι τ → Prop where
  /-- Nothing visible happens. -/
  | stutter (s : Ledger ι τ) : Step s s
  /-- The round of an unlocked participant rises. -/
  | raise (s : Ledger ι τ) (p : ι) (t : τ) :
      s.pending p = none → s.round p ≤ t →
      Step s { s with round := Function.update s.round p t }
  /-- A participant locks itself and opens a higher round. -/
  | opens (s : Ledger ι τ) (i : ι) (t : τ) :
      s.pending i = none → s.round i < t →
      Step s { s with
        round := Function.update s.round i t
        pending := Function.update s.pending i (some Set.univ) }
  /-- A locked participant passes itself over. -/
  | skip (s : Ledger ι τ) (i : ι) (R R' : Set ι) :
      s.pending i = some R → R ⊆ insert i R' →
      Step s { s with pending := Function.update s.pending i (some R') }
  /-- A locked participant visits an unlocked one. -/
  | visit (s : Ledger ι τ) (i p : ι) (R R' : Set ι) (t : τ) :
      i ≠ p → s.pending i = some R → R ⊆ insert p R' → s.pending p = none →
      s.round p ≤ t → s.round i ≤ t →
      Step s { s with
        round := Function.update s.round p t
        pending := Function.update s.pending i (some R') }
  /-- A locked participant with nobody left to visit wins its round and unlocks. -/
  | win (s : Ledger ι τ) (i : ι) :
      s.pending i = some ∅ →
      Step s { s with
        pending := Function.update s.pending i none
        won := insert (i, s.round i) s.won }
  /-- A locked participant unlocks without a win. -/
  | quit (s : Ledger ι τ) (i : ι) :
      Step s { s with pending := Function.update s.pending i none }

/-! ## The invariant -/

/-- What the locks and the tours of visits guarantee. -/
structure Inv (s : Ledger ι τ) : Prop where
  /-- No participant is below a round that was won. -/
  won_le : ∀ i t, (i, t) ∈ s.won → ∀ j, t ≤ s.round j
  /-- A locked participant is strictly above every round won by another one. -/
  won_lt : ∀ i t, (i, t) ∈ s.won → ∀ j, j ≠ i → s.pending j ≠ none → t < s.round j
  /-- A participant already visited has caught up with the visitor... -/
  visited_le : ∀ i R, s.pending i = some R → ∀ j, j ≠ i → j ∉ R → s.round i ≤ s.round j
  /-- ...and overtook it if it has locked itself since. -/
  visited_lt : ∀ i R, s.pending i = some R → ∀ j, j ≠ i → j ∉ R → s.pending j ≠ none →
    s.round i < s.round j
  /-- Every round is won by one participant only. -/
  unique : ∀ i j t, (i, t) ∈ s.won → (j, t) ∈ s.won → i = j

omit [DecidableEq ι] in
theorem Inv.initial {s : Ledger ι τ} (hlock : ∀ i, s.pending i = none) (hwon : s.won = ∅) :
    s.Inv where
  won_le := by simp [hwon]
  won_lt := by simp [hwon]
  visited_le := by simp [hlock]
  visited_lt := by simp [hlock]
  unique := by simp [hwon]

/-- Raising an unlocked participant's round keeps the invariant: locked participants
do not move, the others only rise. -/
theorem Inv.raise {s : Ledger ι τ} (h : s.Inv) {p : ι} {t : τ} (hp : s.pending p = none)
    (ht : s.round p ≤ t) : Inv { s with round := Function.update s.round p t } := by
  have hmono : ∀ j, s.round j ≤ Function.update s.round p t j := by
    intro j
    by_cases hj : j = p
    · rw [hj, Function.update_self]; exact ht
    · rw [Function.update_of_ne hj]
  have hfix : ∀ j, s.pending j ≠ none → Function.update s.round p t j = s.round j := by
    intro j hj
    refine Function.update_of_ne (fun hjp => hj ?_) _ _
    rw [hjp, hp]
  refine ⟨?_, ?_, ?_, ?_, h.unique⟩
  · intro i u hi j
    exact (h.won_le i u hi j).trans (hmono j)
  · intro i u hi j hj hlock
    exact (h.won_lt i u hi j hj hlock).trans_le (hmono j)
  · intro i R hi j hj hR
    show Function.update s.round p t i ≤ Function.update s.round p t j
    rw [hfix i (by rw [hi]; simp)]
    exact (h.visited_le i R hi j hj hR).trans (hmono j)
  · intro i R hi j hj hR hlock
    show Function.update s.round p t i < Function.update s.round p t j
    rw [hfix i (by rw [hi]; simp)]
    exact (h.visited_lt i R hi j hj hR hlock).trans_le (hmono j)

/-- A locked participant may tick off itself, or an unlocked participant that has
caught up with it. -/
theorem Inv.tick {s : Ledger ι τ} (h : s.Inv) {i p : ι} {R R' : Set ι}
    (hi : s.pending i = some R) (hR : R ⊆ insert p R')
    (hp : p = i ∨ s.pending p = none ∧ s.round i ≤ s.round p) :
    Inv { s with pending := Function.update s.pending i (some R') } := by
  have hlock : ∀ j, Function.update s.pending i (some R') j ≠ none → s.pending j ≠ none := by
    intro j hj
    by_cases hji : j = i
    · rw [hji, hi]; simp
    · rwa [Function.update_of_ne hji] at hj
  -- a participant missing from the new list was missing before, or is the one ticked off
  have hout : ∀ k Q, Function.update s.pending i (some R') k = some Q → ∀ j, j ∉ Q →
      (∃ Q', s.pending k = some Q' ∧ j ∉ Q') ∨ (k = i ∧ j = p) := by
    intro k Q hk j hj
    by_cases hki : k = i
    · rw [hki, Function.update_self] at hk
      obtain rfl : R' = Q := Option.some.inj hk
      by_cases hjp : j = p
      · exact Or.inr ⟨hki, hjp⟩
      · refine Or.inl ⟨R, hki ▸ hi, fun hjR => ?_⟩
        rcases hR hjR with hjp' | hjR'
        · exact hjp hjp'
        · exact hj hjR'
    · rw [Function.update_of_ne hki] at hk
      exact Or.inl ⟨Q, hk, hj⟩
  refine ⟨h.won_le, fun k t hk j hj hl => h.won_lt k t hk j hj (hlock j hl), ?_, ?_, h.unique⟩
  · intro k Q hk j hj hjQ
    rcases hout k Q hk j hjQ with ⟨Q', hk', hjQ'⟩ | ⟨rfl, rfl⟩
    · exact h.visited_le k Q' hk' j hj hjQ'
    · rcases hp with hp | ⟨-, hle⟩
      · exact absurd hp hj
      · exact hle
  · intro k Q hk j hj hjQ hl
    rcases hout k Q hk j hjQ with ⟨Q', hk', hjQ'⟩ | ⟨rfl, rfl⟩
    · exact h.visited_lt k Q' hk' j hj hjQ' (hlock j hl)
    · rcases hp with hp | ⟨hnone, -⟩
      · exact absurd hp hj
      · exact absurd hnone (hlock j hl)

/-- Locking oneself on a strictly higher round keeps the invariant: everybody's facts
about the participant were non-strict and become strict. -/
theorem Inv.opens {s : Ledger ι τ} (h : s.Inv) {i : ι} {t : τ} (hi : s.pending i = none)
    (ht : s.round i < t) :
    Inv { s with
      round := Function.update s.round i t
      pending := Function.update s.pending i (some Set.univ) } := by
  have hr := h.raise hi ht.le
  have hpend : ∀ k R, Function.update s.pending i (some Set.univ) k = some R → ∀ j, j ∉ R →
      k ≠ i ∧ s.pending k = some R := by
    intro k R hk j hj
    by_cases hki : k = i
    · rw [hki, Function.update_self] at hk
      exact absurd (Option.some.inj hk ▸ Set.mem_univ j) hj
    · exact ⟨hki, by rwa [Function.update_of_ne hki] at hk⟩
  have hlock : ∀ j, j ≠ i → Function.update s.pending i (some Set.univ) j ≠ none →
      s.pending j ≠ none := by
    intro j hji hl
    rwa [Function.update_of_ne hji] at hl
  refine ⟨hr.won_le, ?_, ?_, ?_, h.unique⟩
  · intro k u hk j hj hl
    by_cases hji : j = i
    · show u < Function.update s.round i t j
      rw [hji, Function.update_self]
      exact (h.won_le k u hk i).trans_lt ht
    · exact hr.won_lt k u hk j hj (hlock j hji hl)
  · intro k R hk j hj hjR
    exact hr.visited_le k R (hpend k R hk j hjR).2 j hj hjR
  · intro k R hk j hj hjR hl
    obtain ⟨hki, hk'⟩ := hpend k R hk j hjR
    by_cases hji : j = i
    · show Function.update s.round i t k < Function.update s.round i t j
      rw [hji, Function.update_self, Function.update_of_ne hki]
      exact (h.visited_le k R hk' i (hji ▸ hj) (hji ▸ hjR)).trans_lt ht
    · exact hr.visited_lt k R hk' j hj hjR (hlock j hji hl)

theorem Inv.unlock {s : Ledger ι τ} (h : s.Inv) (i : ι) :
    Inv { s with pending := Function.update s.pending i none } := by
  have hold : ∀ j, Function.update s.pending i none j ≠ none →
      Function.update s.pending i none j = s.pending j := by
    intro j hj
    refine Function.update_of_ne (fun hji => hj ?_) _ _
    rw [hji, Function.update_self]
  have hlock : ∀ j, Function.update s.pending i none j ≠ none → s.pending j ≠ none := by
    intro j hj
    rwa [hold j hj] at hj
  have hsome : ∀ k R, Function.update s.pending i none k = some R → s.pending k = some R := by
    intro k R hk
    rwa [hold k (by rw [hk]; simp)] at hk
  exact ⟨h.won_le, fun k t hk j hj hl => h.won_lt k t hk j hj (hlock j hl),
    fun k R hk => h.visited_le k R (hsome k R hk),
    fun k R hk j hj hjR hl => h.visited_lt k R (hsome k R hk) j hj hjR (hlock j hl), h.unique⟩

/-- Recording the win of a participant that has visited everybody keeps the invariant.
An earlier winner of the same round would have left this participant strictly above
it, since it is locked. -/
theorem Inv.win {s : Ledger ι τ} (h : s.Inv) {i : ι} (hi : s.pending i = some ∅) :
    Inv { s with won := insert (i, s.round i) s.won } := by
  have hlock : s.pending i ≠ none := by rw [hi]; simp
  have hfresh : ∀ k, (k, s.round i) ∈ s.won → i = k := by
    intro k hk
    by_contra hne
    exact lt_irrefl _ (h.won_lt k _ hk i hne hlock)
  refine ⟨?_, ?_, h.visited_le, h.visited_lt, ?_⟩
  · rintro k t (hk | hk) j
    · obtain ⟨rfl, rfl⟩ := Prod.mk.inj hk
      by_cases hj : j = k
      · rw [hj]
      · exact h.visited_le k ∅ hi j hj (Set.notMem_empty j)
    · exact h.won_le k t hk j
  · rintro k t (hk | hk) j hj hl
    · obtain ⟨rfl, rfl⟩ := Prod.mk.inj hk
      exact h.visited_lt k ∅ hi j hj (Set.notMem_empty j) hl
    · exact h.won_lt k t hk j hj hl
  · rintro k l t (hk | hk) (hl | hl)
    · rw [(Prod.mk.inj hk).1, (Prod.mk.inj hl).1]
    · obtain ⟨rfl, rfl⟩ := Prod.mk.inj hk
      exact hfresh l hl
    · obtain ⟨rfl, rfl⟩ := Prod.mk.inj hl
      exact (hfresh k hk).symm
    · exact h.unique k l t hk hl

theorem Inv.step {s s' : Ledger ι τ} (h : s.Inv) (hs : Step s s') : s'.Inv := by
  cases hs with
  | stutter => exact h
  | raise p t hp ht => exact h.raise hp ht
  | opens i t hi ht => exact h.opens hi ht
  | skip i R R' hi hR => exact h.tick hi hR (Or.inl rfl)
  | visit i p R R' t hne hi hR hp hpt hit =>
    -- first the visited participant catches up, then the visitor ticks it off
    refine (h.raise hp hpt).tick hi hR (Or.inr ⟨hp, ?_⟩)
    show Function.update s.round p t i ≤ Function.update s.round p t p
    rw [Function.update_of_ne hne, Function.update_self]
    exact hit
  | win i hi => exact (h.win hi).unlock i
  | quit i => exact h.unlock i

/-! ## Locked participants are ahead -/

/-- A locked participant is strictly above every round won so far, by whomever. -/
def Ahead (s : Ledger ι τ) : Prop :=
  ∀ i t, (i, t) ∈ s.won → ∀ j, s.pending j ≠ none → t < s.round j

omit [DecidableEq ι] in
theorem Ahead.initial {s : Ledger ι τ} (hwon : s.won = ∅) : s.Ahead := by
  simp [Ahead, hwon]

/-- Moving the round of an unlocked participant leaves the locked ones ahead. -/
theorem Ahead.raise {s : Ledger ι τ} (h : s.Ahead) {p : ι} (t : τ) (hp : s.pending p = none) :
    Ahead { s with round := Function.update s.round p t } := by
  intro i u hi j hj
  have hjp : j ≠ p := by
    rintro rfl
    exact hj hp
  show u < Function.update s.round p t j
  rw [Function.update_of_ne hjp]
  exact h i u hi j hj

/-- A participant that was locked already may change what it has still to visit. -/
theorem Ahead.tick {s : Ledger ι τ} (h : s.Ahead) {i : ι} {R : Set ι} (R' : Set ι)
    (hi : s.pending i = some R) :
    Ahead { s with pending := Function.update s.pending i (some R') } := by
  intro k u hk j hj
  apply h k u hk j
  by_cases hji : j = i
  · rw [hji, hi]
    simp
  · exact fun hnone => hj ((Function.update_of_ne hji _ _).trans hnone)

theorem Ahead.unlock {s : Ledger ι τ} (h : s.Ahead) (i : ι) :
    Ahead { s with pending := Function.update s.pending i none } := by
  intro k u hk j hj
  have hji : j ≠ i := by
    rintro rfl
    exact hj (Function.update_self ..)
  exact h k u hk j (fun hnone => hj ((Function.update_of_ne hji _ _).trans hnone))

/-- Every move keeps the locked participants ahead. -/
theorem Ahead.step {s s' : Ledger ι τ} (h : s.Ahead) (hinv : s.Inv) (hs : Step s s') :
    s'.Ahead := by
  cases hs with
  | stutter => exact h
  | raise p t hp ht => exact h.raise t hp
  | opens i t hi ht =>
    intro k u hk j hj
    show u < Function.update s.round i t j
    by_cases hji : j = i
    · rw [hji, Function.update_self]
      exact (hinv.won_le k u hk i).trans_lt ht
    · rw [Function.update_of_ne hji]
      exact h k u hk j (fun hnone => hj ((Function.update_of_ne hji _ _).trans hnone))
  | skip i R R' hi hR => exact h.tick R' hi
  | visit i p R R' t hne hi hR hp hpt hit => exact (h.raise t hp).tick R' hi
  | win i hi =>
    rintro k u (hk | hk) j hj
    · obtain ⟨rfl, rfl⟩ := Prod.mk.inj hk
      have hji : j ≠ k := by
        rintro rfl
        exact hj (Function.update_self ..)
      refine hinv.visited_lt k ∅ hi j hji (Set.notMem_empty j) fun hnone => hj ?_
      exact (Function.update_of_ne hji _ _).trans hnone
    · exact h.unlock i k u hk j hj
  | quit i => exact h.unlock i

/-- **No round is won twice.**  From a ledger without locks and wins, however the
moves are interleaved, two participants never win the same round. -/
theorem won_unique {s₀ s : Ledger ι τ} (hlock : ∀ i, s₀.pending i = none) (hwon : s₀.won = ∅)
    (hs : Reachable Step s₀ s) {i j : ι} {t : τ} (hi : (i, t) ∈ s.won) (hj : (j, t) ∈ s.won) :
    i = j :=
  (hs.invariant (fun _ _ h hst => h.step hst) (Inv.initial hlock hwon)).unique i j t hi hj

end Ledger

end LockStepRounds
