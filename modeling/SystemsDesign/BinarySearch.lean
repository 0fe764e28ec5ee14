/-
# Binary search in a sorted table

The closed-interval binary search over a vector of key-value pairs: `left` and `right`
are `int` indices, `right` is one below `left` when the interval is empty.  The bounds
travel with the indices, so the model has no out-of-range access.

`search` looks for a key; `searchLast` looks for the last of the entries that meet a condition,
when those are the first ones of the table.
-/
import Mathlib

namespace BinarySearch

variable {κ ν : Type*} [LinearOrder κ]

/-- The loop `while (left <= right)` over the entries between `left` and `right`. -/
def search (entries : List (κ × ν)) (key : κ) (left right : ℤ) (hl : 0 ≤ left)
    (hr : right < entries.length) : Option ν :=
  if h : left ≤ right then
    let mid := left + (right - left) / 2
    have hmid : mid.toNat < entries.length := by omega
    if entries[mid.toNat].1 = key then some entries[mid.toNat].2
    else if entries[mid.toNat].1 < key then
      search entries key (mid + 1) right (by omega) hr
    else
      search entries key left (mid - 1) hl (by omega)
  else none
termination_by (right + 1 - left).toNat

theorem lt_of_index_lt {entries : List (κ × ν)} (hs : entries.Pairwise fun a b => a.1 < b.1)
    {i j : ℕ} (hi : i < entries.length) (hj : j < entries.length)
    (h : entries[i].1 < entries[j].1) : i < j := by
  by_contra hij
  rcases (not_lt.mp hij).eq_or_lt with rfl | hji
  · exact lt_irrefl _ h
  · exact lt_asymm h (List.pairwise_iff_getElem.mp hs j i hj hi hji)

theorem index_eq_of_key_eq {entries : List (κ × ν)}
    (hs : entries.Pairwise fun a b => a.1 < b.1) {i j : ℕ} (hi : i < entries.length)
    (hj : j < entries.length) (h : entries[i].1 = entries[j].1) : i = j := by
  rcases lt_trichotomy i j with hij | hij | hij
  · exact absurd h (List.pairwise_iff_getElem.mp hs i j hi hj hij).ne
  · exact hij
  · exact absurd h (List.pairwise_iff_getElem.mp hs j i hj hi hij).ne'

/-- **Correctness of the loop.**  The search returns a value exactly when the key stands
with it at some index between `left` and `right`. -/
theorem search_eq_some_iff {entries : List (κ × ν)}
    (hs : entries.Pairwise fun a b => a.1 < b.1) {key : κ} {v : ν} {left right : ℤ}
    {hl : 0 ≤ left} {hr : right < entries.length} :
    search entries key left right hl hr = some v ↔
      ∃ i : ℕ, left ≤ i ∧ i ≤ right ∧ entries[i]? = some (key, v) := by
  fun_induction search entries key left right hl hr with
  | case1 left right hl hr h mid hmid heq =>
    constructor
    · intro hv
      refine ⟨mid.toNat, by omega, by omega, ?_⟩
      rw [List.getElem?_eq_getElem hmid, ← heq, ← Option.some.inj hv]
    · rintro ⟨i, -, -, hi⟩
      obtain ⟨hlt, hie⟩ := List.getElem?_eq_some_iff.mp hi
      have himid : i = mid.toNat := index_eq_of_key_eq hs hlt hmid (by rw [hie, heq])
      subst himid
      rw [hie]
  | case2 left right hl hr h mid hmid hne hless ih =>
    rw [ih]
    constructor
    · rintro ⟨i, hli, hir, hi⟩
      exact ⟨i, by omega, hir, hi⟩
    · rintro ⟨i, hli, hir, hi⟩
      obtain ⟨hlt, hie⟩ := List.getElem?_eq_some_iff.mp hi
      have := lt_of_index_lt hs hmid hlt (by rw [hie]; exact hless)
      exact ⟨i, by omega, hir, hi⟩
  | case3 left right hl hr h mid hmid hne hless ih =>
    rw [ih]
    constructor
    · rintro ⟨i, hli, hir, hi⟩
      exact ⟨i, hli, by omega, hi⟩
    · rintro ⟨i, hli, hir, hi⟩
      obtain ⟨hlt, hie⟩ := List.getElem?_eq_some_iff.mp hi
      have hgreater : key < entries[mid.toNat].1 :=
        lt_of_le_of_ne (not_lt.mp hless) (Ne.symm hne)
      have := lt_of_index_lt hs hlt hmid (by rw [hie]; exact hgreater)
      exact ⟨i, hli, by omega, hi⟩
  | case4 left right hl hr h =>
    constructor
    · intro hv
      exact absurd hv (by simp)
    · rintro ⟨i, hli, hir, -⟩
      omega

/-- The search over the whole table, from `left = 0` and `right = size - 1`. -/
def find (entries : List (κ × ν)) (key : κ) : Option ν :=
  search entries key 0 (entries.length - 1) le_rfl (by omega)

/-- **Binary search finds what the table holds.** -/
theorem find_eq_some_iff {entries : List (κ × ν)}
    (hs : entries.Pairwise fun a b => a.1 < b.1) {key : κ} {v : ν} :
    find entries key = some v ↔ (key, v) ∈ entries := by
  unfold find
  rw [search_eq_some_iff hs, List.mem_iff_getElem?]
  constructor
  · rintro ⟨i, -, -, hi⟩
    exact ⟨i, hi⟩
  · rintro ⟨i, hi⟩
    obtain ⟨hlt, -⟩ := List.getElem?_eq_some_iff.mp hi
    exact ⟨i, by omega, by omega, hi⟩

/-! ## The last entry that meets a condition -/

section Last

variable {α : Type*}

/-- The loop that looks for the last entry that meets a condition, and remembers the last one it
has seen in `candidate`. -/
def searchLast (entries : List α) (p : α → Prop) [DecidablePred p] (lo hi candidate : ℤ)
    (hl : 0 ≤ lo) (hr : hi < entries.length) : ℤ :=
  if h : lo ≤ hi then
    let mid := lo + (hi - lo) / 2
    have hmid : mid.toNat < entries.length := by omega
    if p entries[mid.toNat] then searchLast entries p (mid + 1) hi mid (by omega) hr
    else searchLast entries p lo (mid - 1) candidate hl (by omega)
  else candidate
termination_by (hi + 1 - lo).toNat

/-- **Correctness of the loop.**  If the entries that meet the condition are the first `count` ones,
and `count` lies between the bounds, the loop ends at the last of them. -/
theorem searchLast_eq {entries : List α} {p : α → Prop} [DecidablePred p] {count : ℕ}
    (hp : ∀ i (hi : i < entries.length), p entries[i] ↔ i < count) {lo hi candidate : ℤ}
    {hl : 0 ≤ lo} {hr : hi < entries.length} (hcandidate : candidate = lo - 1) (hlo : lo ≤ count)
    (hhi : count ≤ hi + 1) :
    searchLast entries p lo hi candidate hl hr = count - 1 := by
  fun_induction searchLast entries p lo hi candidate hl hr with
  | case1 lo hi candidate hl hr h mid hmid hmeets ih =>
    have hlt := (hp mid.toNat hmid).mp hmeets
    exact ih (by omega) (by omega) hhi
  | case2 lo hi candidate hl hr h mid hmid hfails ih =>
    have hle := mt (hp mid.toNat hmid).mpr hfails
    exact ih hcandidate hlo (by omega)
  | case3 lo hi candidate hl hr h => omega

/-- The search over the whole table, from `lo = 0`, `hi = size - 1` and `candidate = -1`. -/
def findLast (entries : List α) (p : α → Prop) [DecidablePred p] : ℤ :=
  searchLast entries p 0 (entries.length - 1) (-1) le_rfl (by omega)

/-- If an entry that meets the condition is preceded by such entries only, they are the first
ones. -/
theorem meets_iff_lt_countP {entries : List α} {p : α → Prop} [DecidablePred p]
    (hs : entries.Pairwise fun a b => p b → p a) (i : ℕ) (hi : i < entries.length) :
    p entries[i] ↔ i < entries.countP fun a => p a := by
  induction entries generalizing i with
  | nil => exact absurd hi (Nat.not_lt_zero i)
  | cons a l ih =>
    obtain ⟨ha, hl⟩ := List.pairwise_cons.mp hs
    by_cases hpa : p a
    · rw [List.countP_cons_of_pos (by simpa using hpa)]
      cases i with
      | zero => exact iff_of_true hpa (Nat.succ_pos _)
      | succ i => exact (ih hl i (by simpa using hi)).trans Nat.succ_lt_succ_iff.symm
    · -- nothing meets the condition
      have hnone : ∀ b ∈ a :: l, ¬ p b := by
        intro b hb
        rcases List.mem_cons.mp hb with rfl | hb
        · exact hpa
        · exact fun hpb => hpa (ha b hb hpb)
      have hzero : (a :: l).countP (fun a => p a) = 0 := by
        rw [List.countP_eq_zero]
        simpa using hnone
      rw [hzero]
      exact iff_of_false (hnone _ (List.getElem_mem hi)) (Nat.not_lt_zero i)

/-- **Binary search finds the last entry that meets the condition.** -/
theorem findLast_eq {entries : List α} {p : α → Prop} [DecidablePred p]
    (hs : entries.Pairwise fun a b => p b → p a) :
    findLast entries p = (entries.countP fun a => p a : ℕ) - 1 := by
  have hle : entries.countP (fun a => p a) ≤ entries.length := List.countP_le_length
  exact searchLast_eq (meets_iff_lt_countP hs) (by omega) (by omega) (by omega)

end Last

end BinarySearch
