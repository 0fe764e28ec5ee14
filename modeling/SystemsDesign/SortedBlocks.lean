/-
# A sorted list around one key

A list that is sorted by a key falls into three blocks around a key `t`: what is below
`t`, what has the key `t`, and what is above (`eq_blocks`).  `insertFront` puts an element
before the middle block, `removeOne` takes the first element out of it.  Both keep the list
sorted and have the expected effect on the multiset of keys.

Taking blocks is filtering, so everything is monotone in the sublist order: if `l` is a
sublist of `l'`, it stays one when an element is inserted into both, or into `l'` only, and
when both lose the first element of the middle block.
-/
import Mathlib

namespace SortedBlocks

variable {α γ β : Type*} [LinearOrder β] (key : α → β) (t : β)

/-! ## The blocks -/

/-- The elements below `t`. -/
def below (l : List α) : List α := l.filter fun a => key a < t

/-- The elements with the key `t`. -/
def equal (l : List α) : List α := l.filter fun a => key a = t

/-- The elements above `t`. -/
def above (l : List α) : List α := l.filter fun a => t < key a

/-- The list is sorted by the key. -/
def Sorted (l : List α) : Prop := l.Pairwise fun a b => key a ≤ key b

/-- Put `a` before the elements with the key `t`. -/
def insertFront (a : α) (l : List α) : List α :=
  below key t l ++ a :: (equal key t l ++ above key t l)

/-- Remove the first element with the key `t`. -/
def removeOne (l : List α) : List α :=
  below key t l ++ ((equal key t l).tail ++ above key t l)

variable {key t} {l l' : List α}

omit [LinearOrder β] in
/-- A list in which everything before a `p` is a `p` starts with its `p`s. -/
theorem filter_append_filter_not {p : α → Prop} [DecidablePred p]
    (h : l.Pairwise fun a b => p b → p a) :
    (l.filter fun a => p a) ++ (l.filter fun a => ¬ p a) = l := by
  induction l with
  | nil => rfl
  | cons a l ih =>
    obtain ⟨ha, hl⟩ := List.pairwise_cons.mp h
    by_cases hp : p a
    · rw [List.filter_cons_of_pos (by simpa using hp), List.filter_cons_of_neg (by simpa using hp),
        List.cons_append, ih hl]
    · have hnone : (l.filter fun b => p b) = [] :=
        List.filter_eq_nil_iff.mpr fun b hb => by simpa using fun hpb => hp (ha b hb hpb)
      have hall : (l.filter fun b => ¬ p b) = l :=
        List.filter_eq_self.mpr fun b hb => by simpa using fun hpb => hp (ha b hb hpb)
      rw [List.filter_cons_of_neg (by simpa using hp), List.filter_cons_of_pos (by simpa using hp),
        hnone, hall, List.nil_append]

/-- **A sorted list is its three blocks.** -/
theorem eq_blocks (h : Sorted key l) : l = below key t l ++ (equal key t l ++ above key t l) := by
  have hlow : below key t l ++ (l.filter fun a => ¬ key a < t) = l :=
    filter_append_filter_not (h.imp fun hab hb => hab.trans_lt hb)
  have hhigh : equal key t l ++ above key t l = l.filter fun a => ¬ key a < t := by
    have hsorted : (l.filter fun a => ¬ key a < t).Pairwise fun a b => key b = t → key a = t := by
      refine (List.Pairwise.filter _ h).imp_of_mem fun ha _ hab hb => ?_
      exact le_antisymm (hab.trans_eq hb) (by simpa using (List.mem_filter.mp ha).2)
    rw [← filter_append_filter_not hsorted, List.filter_filter, List.filter_filter]
    congr 1
    · apply List.filter_congr
      intro a _
      by_cases ha : key a = t
      · simp [ha]
      · simp [ha]
    · apply List.filter_congr
      intro a _
      rcases lt_trichotomy (key a) t with ha | ha | ha
      · simp [ha, ha.not_gt]
      · simp [ha]
      · simp [ha, ha.ne', ha.le]
  rw [hhigh, hlow]

theorem lt_of_mem_below {a : α} (ha : a ∈ below key t l) : a ∈ l ∧ key a < t := by
  simpa [below] using ha

theorem eq_of_mem_equal {a : α} (ha : a ∈ equal key t l) : a ∈ l ∧ key a = t := by
  simpa [equal] using ha

theorem lt_of_mem_above {a : α} (ha : a ∈ above key t l) : a ∈ l ∧ t < key a := by
  simpa [above] using ha

/-! ## Inserting and removing -/

theorem sorted_append_blocks {lo mid hi : List α} (hlo : Sorted key lo) (hhi : Sorted key hi)
    (hlt : ∀ a ∈ lo, key a < t) (heq : ∀ a ∈ mid, key a = t) (hgt : ∀ a ∈ hi, t < key a) :
    Sorted key (lo ++ (mid ++ hi)) := by
  have hmid : Sorted key mid :=
    List.pairwise_of_forall_mem_list fun a ha b hb => ((heq a ha).trans (heq b hb).symm).le
  refine List.pairwise_append.mpr ⟨hlo, List.pairwise_append.mpr ⟨hmid, hhi, ?_⟩, ?_⟩
  · intro a ha b hb
    exact (heq a ha).trans_le (hgt b hb).le
  · intro a ha b hb
    rcases List.mem_append.mp hb with hb | hb
    · exact (hlt a ha).le.trans_eq (heq b hb).symm
    · exact ((hlt a ha).trans (hgt b hb)).le

theorem sorted_insertFront (h : Sorted key l) {a : α} (ha : key a = t) :
    Sorted key (insertFront key t a l) := by
  unfold insertFront
  rw [← List.cons_append]
  refine sorted_append_blocks (List.Pairwise.filter _ h) (List.Pairwise.filter _ h)
    (fun b hb => (lt_of_mem_below hb).2) (fun b hb => ?_) (fun b hb => (lt_of_mem_above hb).2)
  rcases List.mem_cons.mp hb with rfl | hb
  · exact ha
  · exact (eq_of_mem_equal hb).2

theorem sorted_removeOne (h : Sorted key l) : Sorted key (removeOne key t l) :=
  sorted_append_blocks (List.Pairwise.filter _ h) (List.Pairwise.filter _ h)
    (fun _ hb => (lt_of_mem_below hb).2)
    (fun _ hb => (eq_of_mem_equal (List.mem_of_mem_tail hb)).2)
    (fun _ hb => (lt_of_mem_above hb).2)

theorem perm_insertFront (h : Sorted key l) (a : α) : (insertFront key t a l).Perm (a :: l) := by
  apply List.perm_middle.trans
  rw [← eq_blocks h]

/-- Where the middle block is empty, nothing is removed. -/
theorem removeOne_of_equal_nil (h : Sorted key l) (hnil : equal key t l = []) :
    removeOne key t l = l := by
  have hl : l = below key t l ++ (equal key t l ++ above key t l) := eq_blocks h
  rw [hnil] at hl
  unfold removeOne
  rw [hnil]
  exact hl.symm

/-- Where the middle block is not empty, its first element is removed. -/
theorem perm_removeOne (h : Sorted key l) {a : α} {mid : List α}
    (hcons : equal key t l = a :: mid) : l.Perm (a :: removeOne key t l) := by
  have hl : l = below key t l ++ (equal key t l ++ above key t l) := eq_blocks h
  unfold removeOne
  rw [hcons] at hl ⊢
  rw [List.cons_append] at hl
  exact (List.Perm.of_eq hl).trans List.perm_middle

/-- The middle block is empty exactly when the key does not occur. -/
theorem equal_eq_nil_iff : equal key t l = [] ↔ t ∉ l.map key := by
  simp [equal, List.filter_eq_nil_iff]

theorem keys_insertFront (h : Sorted key l) {a : α} (ha : key a = t) :
    ((insertFront key t a l).map key : Multiset β) = t ::ₘ (l.map key : Multiset β) := by
  have hperm := (perm_insertFront (t := t) h a).map key
  rw [List.map_cons, ha] at hperm
  exact Multiset.coe_eq_coe.mpr hperm

theorem keys_removeOne (h : Sorted key l) :
    ((removeOne key t l).map key : Multiset β) = (l.map key : Multiset β).erase t := by
  cases hcons : equal key t l with
  | nil =>
    rw [removeOne_of_equal_nil h hcons, Multiset.erase_of_notMem]
    simpa using equal_eq_nil_iff.mp hcons
  | cons a mid =>
    have ha : key a = t := (eq_of_mem_equal (hcons ▸ List.mem_cons_self : a ∈ equal key t l)).2
    have hperm := (perm_removeOne h hcons).map key
    rw [List.map_cons, ha] at hperm
    rw [Multiset.coe_eq_coe.mpr hperm, ← Multiset.cons_coe, Multiset.erase_cons_head]

/-! ## Sublists -/

/-- Inserting only makes the list longer. -/
theorem sublist_insertFront (h : Sorted key l) (a : α) : l.Sublist (insertFront key t a l) := by
  have hl : l = below key t l ++ (equal key t l ++ above key t l) := eq_blocks h
  unfold insertFront
  nth_rewrite 1 [hl]
  exact List.Sublist.append (List.Sublist.refl _) (List.sublist_cons_self _ _)

theorem removeOne_sublist_self (h : Sorted key l) : (removeOne key t l).Sublist l := by
  have hl : l = below key t l ++ (equal key t l ++ above key t l) := eq_blocks h
  unfold removeOne
  nth_rewrite 4 [hl]
  exact (List.Sublist.refl _).append ((List.tail_sublist _).append (List.Sublist.refl _))

theorem insertFront_sublist (h : l.Sublist l') (a : α) :
    (insertFront key t a l).Sublist (insertFront key t a l') :=
  (h.filter _).append (((h.filter _).append (h.filter _)).cons_cons a)

theorem removeOne_sublist (h : l.Sublist l') :
    (removeOne key t l).Sublist (removeOne key t l') :=
  (h.filter _).append ((h.filter _).tail.append (h.filter _))

/-! ## Renaming the elements -/

section Map

variable {f : α → γ} {κ : γ → β}

theorem map_insertFront (hκ : ∀ a, κ (f a) = key a) (a : α) (l : List α) :
    (insertFront key t a l).map f = insertFront κ t (f a) (l.map f) := by
  simp [insertFront, below, equal, above, List.filter_map, Function.comp_def, hκ]

theorem map_removeOne (hκ : ∀ a, κ (f a) = key a) (l : List α) :
    (removeOne key t l).map f = removeOne κ t (l.map f) := by
  simp [removeOne, below, equal, above, List.filter_map, Function.comp_def, hκ, List.map_tail]

end Map

end SortedBlocks
