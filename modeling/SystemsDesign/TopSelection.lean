/-
# Keeping the best

A program that looks for the best `k` of many elements may see them one by one and keep only `k` of
them, dropping the worst when there is one too many.  `Leads` says that what is kept are `k` best
elements of what has been seen; it does not say which ones where several rank alike.  It holds at
the start and is kept up by adding an element while there is room (`Leads.add`) and by dropping a
worst element when there is none (`Leads.exchange`), so that what has been dropped is never missed.

Where the kept elements are listed in order, their ranks are the first ranks of everything seen in
order (`Leads.ranks_eq_take`).
-/
import Mathlib

namespace TopSelection

variable {α β : Type*} [LinearOrder β] {rank : α → β} {k : ℕ} {kept seen : Multiset α} {a w : α}

/-- The kept elements are `k` elements of least rank among those seen, or all of them if there are
fewer. -/
def Leads (rank : α → β) (k : ℕ) (kept seen : Multiset α) : Prop :=
  kept.card = min k seen.card ∧
    ∃ dropped, seen = kept + dropped ∧ ∀ a ∈ kept, ∀ b ∈ dropped, rank a ≤ rank b

theorem leads_zero (rank : α → β) (k : ℕ) : Leads rank k 0 0 :=
  ⟨by simp, 0, by simp, by simp⟩

theorem Leads.mem_seen (h : Leads rank k kept seen) (ha : a ∈ kept) : a ∈ seen := by
  obtain ⟨-, dropped, rfl, -⟩ := h
  exact Multiset.mem_add.mpr (Or.inl ha)

theorem Leads.rank_le (h : Leads rank k kept seen) (ha : a ∈ kept) {b : α} (hb : b ∈ seen)
    (hout : b ∉ kept) : rank a ≤ rank b := by
  obtain ⟨-, dropped, rfl, hbest⟩ := h
  exact hbest a ha b ((Multiset.mem_add.mp hb).resolve_left hout)

/-- While there is room nothing has been dropped, and another element is added. -/
theorem Leads.add (h : Leads rank k kept seen) (hroom : kept.card < k) (a : α) :
    Leads rank k (a ::ₘ kept) (a ::ₘ seen) := by
  obtain ⟨hcard, dropped, rfl, -⟩ := h
  have hnone : dropped = 0 := by
    rw [← Multiset.card_eq_zero]
    rw [Multiset.card_add] at hcard
    omega
  refine ⟨?_, 0, by rw [hnone]; simp, by simp⟩
  rw [hnone, add_zero, Multiset.card_cons]
  omega

theorem Leads.exchange (h : Leads rank k kept seen) (hfull : kept.card = k)
    {kept' : Multiset α} (hdrop : a ::ₘ kept = w ::ₘ kept')
    (hworst : ∀ b ∈ a ::ₘ kept, rank b ≤ rank w) : Leads rank k kept' (a ::ₘ seen) := by
  obtain ⟨hcard, dropped, rfl, hbest⟩ := h
  have hcard' := congrArg Multiset.card hdrop
  rw [Multiset.card_cons, Multiset.card_cons] at hcard'
  refine ⟨?_, w ::ₘ dropped, ?_, fun x hx y hy => ?_⟩
  · rw [Multiset.card_cons]
    omega
  · rw [← Multiset.cons_add, hdrop, Multiset.cons_add, Multiset.add_cons]
  · have hxw : rank x ≤ rank w := hworst x (hdrop ▸ Multiset.mem_cons_of_mem hx)
    rcases Multiset.mem_cons.mp hy with rfl | hy
    · exact hxw
    · by_cases hwa : w = a
      · -- the new element is the one that is dropped
        subst hwa
        rw [(Multiset.cons_inj_right w).mp hdrop] at hbest
        exact hbest x hx y hy
      · have hw : w ∈ a ::ₘ kept := hdrop ▸ Multiset.mem_cons_self w kept'
        exact hxw.trans (hbest w ((Multiset.mem_cons.mp hw).resolve_left hwa) y hy)

theorem Leads.map {γ : Type*} {f : γ → α} {kept seen : Multiset γ}
    (h : Leads (fun c => rank (f c)) k kept seen) : Leads rank k (kept.map f) (seen.map f) := by
  obtain ⟨hcard, dropped, rfl, hbest⟩ := h
  refine ⟨?_, dropped.map f, Multiset.map_add f _ _, fun a ha b hb => ?_⟩
  · rw [Multiset.card_map, Multiset.card_map, hcard]
  · obtain ⟨c, hc, rfl⟩ := Multiset.mem_map.mp ha
    obtain ⟨d, hd, rfl⟩ := Multiset.mem_map.mp hb
    exact hbest c hc d hd

/-- **The ranks of the kept elements in order** are the first `k` ranks of everything seen in
order. -/
theorem Leads.ranks_eq_take {kept seen : List α} (h : Leads rank k kept seen)
    (hkept : kept.Pairwise fun a b => rank a ≤ rank b)
    (hseen : seen.Pairwise fun a b => rank a ≤ rank b) :
    kept.map rank = (seen.map rank).take k := by
  obtain ⟨hcard, dropped, hsplit, hbest⟩ := h
  -- the kept ranks, followed by the dropped ones in order
  set rest := (dropped.map rank).sort (· ≤ ·)
  have hperm : (kept.map rank ++ rest).Perm (seen.map rank) := by
    rw [← Multiset.coe_eq_coe, ← Multiset.coe_add, Multiset.sort_eq, ← Multiset.map_coe,
      ← Multiset.map_coe, ← Multiset.map_add, ← hsplit]
  have hsorted : (kept.map rank ++ rest).Pairwise (· ≤ ·) := by
    refine List.pairwise_append.mpr ⟨List.pairwise_map.mpr hkept, ?_, ?_⟩
    · exact Multiset.pairwise_sort _ _
    · intro x hx y hy
      obtain ⟨a, ha, rfl⟩ := List.mem_map.mp hx
      obtain ⟨b, hb, rfl⟩ := Multiset.mem_map.mp ((Multiset.mem_sort _).mp hy)
      exact hbest a ha b hb
  have heq : kept.map rank ++ rest = seen.map rank :=
    List.Perm.eq_of_pairwise (fun _ _ _ _ => le_antisymm) hsorted (List.pairwise_map.mpr hseen)
      hperm
  rw [Multiset.coe_card, Multiset.coe_card] at hcard
  rw [← heq]
  rcases le_total k seen.length with hk | hk
  · have hlen : (kept.map rank).length = k := by
      rw [List.length_map, hcard, min_eq_left hk]
    rw [List.take_left' hlen]
  · have hall : (kept.map rank ++ rest).length ≤ k := by
      rw [heq, List.length_map]
      exact hk
    have hrest : rest = [] := by
      have hlen := congrArg List.length heq
      rw [List.length_append, List.length_map, List.length_map, hcard, min_eq_right hk] at hlen
      exact List.length_eq_zero_iff.mp (by omega)
    rw [List.take_of_length_le hall, hrest, List.append_nil]

end TopSelection
