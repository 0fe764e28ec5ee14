/-
# Reference counting over finite maps

A store keeps, for each key, a record with a payload and the number of references to that key;
a record is created with one reference and dropped when its last reference is released.
Nothing here depends on what the keys, the payloads or the holders of the references are.

* `total f m` : the sum of `f` over the values of a finite map, for counting the references
  held by the values of some other map;
* `retain` / `release` : one reference more or less, failing when the key has no record;
* `Tracks` : the store holds exactly the keys with references, each with its count and payload;
* `Tracks.retainAll` / `Tracks.releaseAll` : a whole list of references at once.
-/
import Mathlib.Data.Finmap
import Mathlib.Algebra.BigOperators.Group.Finset.Basic
import Mathlib.Algebra.Order.BigOperators.Group.Finset

namespace RefCounting

variable {κ α π ν : Type*} [DecidableEq κ]

/-! ## Overwriting and dropping keys -/

theorem insert_of_lookup {m : Finmap fun _ : κ => ν} {k : κ} {v : ν} (h : m.lookup k = some v) :
    m.insert k v = m := by
  apply Finmap.ext_lookup
  intro j
  by_cases hj : j = k
  · subst hj
    rw [Finmap.lookup_insert, h]
  · rw [Finmap.lookup_insert_of_ne _ hj]

/-- An entry after a key was set is the new one or one of another key. -/
theorem lookup_of_insert {m : Finmap fun _ : κ => ν} {k j : κ} {v w : ν}
    (h : (m.insert k v).lookup j = some w) : j = k ∧ w = v ∨ j ≠ k ∧ m.lookup j = some w := by
  by_cases hj : j = k
  · subst hj
    rw [Finmap.lookup_insert] at h
    exact .inl ⟨rfl, (Option.some.inj h).symm⟩
  · rw [Finmap.lookup_insert_of_ne _ hj] at h
    exact .inr ⟨hj, h⟩

theorem lookup_of_erase {m : Finmap fun _ : κ => ν} {k j : κ} {w : ν}
    (h : (m.erase k).lookup j = some w) : j ≠ k ∧ m.lookup j = some w := by
  have hj : j ≠ k := by
    rintro rfl
    rw [Finmap.lookup_erase] at h
    cases h
  rw [Finmap.lookup_erase_ne hj] at h
  exact ⟨hj, h⟩

theorem erase_insert (m : Finmap fun _ : κ => ν) (k : κ) (v : ν) :
    (m.insert k v).erase k = m.erase k := by
  apply Finmap.ext_lookup
  intro j
  by_cases hj : j = k
  · subst hj
    rw [Finmap.lookup_erase, Finmap.lookup_erase]
  · rw [Finmap.lookup_erase_ne hj, Finmap.lookup_erase_ne hj, Finmap.lookup_insert_of_ne _ hj]

/-! ## Sums over the values of a finite map -/

/-- The sum of `f` over the values of `m`. -/
def total (f : ν → ℕ) (m : Finmap fun _ : κ => ν) : ℕ :=
  ∑ k ∈ m.keys, (m.lookup k).elim 0 f

@[simp]
theorem total_empty (f : ν → ℕ) : total f (∅ : Finmap fun _ : κ => ν) = 0 := by
  simp [total]

theorem total_insert_of_notMem (f : ν → ℕ) {m : Finmap fun _ : κ => ν} {k : κ} (v : ν)
    (h : k ∉ m) : total f (m.insert k v) = total f m + f v := by
  have hkeys : (m.insert k v).keys = Insert.insert k m.keys := by
    ext j
    rw [Finmap.mem_keys, Finmap.mem_insert, Finset.mem_insert, Finmap.mem_keys]
  have hrest : ∀ j ∈ m.keys, ((m.insert k v).lookup j).elim 0 f = (m.lookup j).elim 0 f := by
    intro j hj
    have hne : j ≠ k := by
      rintro rfl
      exact h (Finmap.mem_keys.mp hj)
    rw [Finmap.lookup_insert_of_ne _ hne]
  unfold total
  rw [hkeys, Finset.sum_insert (fun hk => h (Finmap.mem_keys.mp hk)), Finmap.lookup_insert,
    Finset.sum_congr rfl hrest]
  exact add_comm _ _

/-- Dropping a key takes its value out of the sum. -/
theorem total_erase_add (f : ν → ℕ) {m : Finmap fun _ : κ => ν} {k : κ} {v : ν}
    (h : m.lookup k = some v) : total f (m.erase k) + f v = total f m := by
  have hback : (m.erase k).insert k v = m := by
    apply Finmap.ext_lookup
    intro j
    by_cases hj : j = k
    · subst hj
      rw [Finmap.lookup_insert, h]
    · rw [Finmap.lookup_insert_of_ne _ hj, Finmap.lookup_erase_ne hj]
  rw [← total_insert_of_notMem f v Finmap.notMem_erase_self, hback]

theorem total_insert_add (f : ν → ℕ) (m : Finmap fun _ : κ => ν) (k : κ) (v : ν) :
    total f (m.insert k v) + (m.lookup k).elim 0 f = total f m + f v := by
  cases h : m.lookup k with
  | none => exact total_insert_of_notMem f v (Finmap.lookup_eq_none.mp h)
  | some w =>
    have hold := total_erase_add f h
    have hnew := total_erase_add (k := k) (v := v) f (Finmap.lookup_insert m)
    rw [erase_insert] at hnew
    show total f (m.insert k v) + f w = total f m + f v
    omega

theorem le_total (f : ν → ℕ) {m : Finmap fun _ : κ => ν} {k : κ} {v : ν}
    (h : m.lookup k = some v) : f v ≤ total f m := by
  have := total_erase_add f h
  omega

theorem exists_of_total_pos {f : ν → ℕ} {m : Finmap fun _ : κ => ν} (h : 0 < total f m) :
    ∃ k v, m.lookup k = some v ∧ 0 < f v := by
  obtain ⟨k, hk, hpos⟩ := Finset.exists_ne_zero_of_sum_ne_zero h.ne'
  obtain ⟨v, hv⟩ := Finmap.mem_iff.mp (Finmap.mem_keys.mp hk)
  rw [hv] at hpos
  exact ⟨k, v, hv, Nat.pos_of_ne_zero hpos⟩

/-! ## Counted records -/

/-- Occurrences in a list with one more element in front. -/
theorem count_cons_eq (k : κ) (ks : List κ) (j : κ) :
    (k :: ks).count j = ks.count j + if j = k then 1 else 0 := by
  rw [List.count_cons]
  simp only [beq_iff_eq, eq_comm (a := k)]

/-- How a record of type `α` keeps a reference count beside its payload. -/
structure Counted (α π : Type*) where
  count : α → ℤ
  setCount : α → ℤ → α
  payload : α → π
  count_setCount : ∀ a n, count (setCount a n) = n
  payload_setCount : ∀ a n, payload (setCount a n) = payload a

variable (C : Counted α π)

/-- One reference more to `k`; fails when `k` has no record. -/
def retain (m : Finmap fun _ : κ => α) (k : κ) : Option (Finmap fun _ : κ => α) :=
  (m.lookup k).map fun a => m.insert k (C.setCount a (C.count a + 1))

/-- One reference less to `k`, which goes when it was the last; fails when `k` has no record. -/
def release (m : Finmap fun _ : κ => α) (k : κ) : Option (Finmap fun _ : κ => α) :=
  (m.lookup k).map fun a =>
    if C.count a - 1 = 0 then m.erase k else m.insert k (C.setCount a (C.count a - 1))

/-- One reference more for each occurrence in a list. -/
def retainAll (m : Finmap fun _ : κ => α) (ks : List κ) : Option (Finmap fun _ : κ => α) :=
  ks.foldlM (retain C) m

/-- One reference less for each occurrence in a list. -/
def releaseAll (m : Finmap fun _ : κ => α) (ks : List κ) : Option (Finmap fun _ : κ => α) :=
  ks.foldlM (release C) m

/-- The records of `m` are those of the keys with references: `refs k` says how many there are
to `k`, and `content k` is the payload of `k` while there is one. -/
structure Tracks (m : Finmap fun _ : κ => α) (refs : κ → ℕ) (content : κ → π) : Prop where
  absent : ∀ k, refs k = 0 → m.lookup k = none
  present : ∀ k, 0 < refs k →
    ∃ a, m.lookup k = some a ∧ C.count a = refs k ∧ C.payload a = content k

namespace Tracks

variable {C} {m : Finmap fun _ : κ => α} {refs : κ → ℕ} {content : κ → π}

theorem empty (content : κ → π) : Tracks C (∅ : Finmap fun _ : κ => α) (fun _ => 0) content :=
  ⟨fun k _ => Finmap.lookup_empty k, fun _ hk => absurd hk (lt_irrefl 0)⟩

/-- Exactly the keys with references have a record. -/
theorem mem_iff (h : Tracks C m refs content) (k : κ) : k ∈ m ↔ 0 < refs k := by
  constructor
  · intro hk
    by_contra hzero
    exact Finmap.lookup_eq_none.mp (h.absent k (by omega)) hk
  · intro hpos
    obtain ⟨a, ha, -⟩ := h.present k hpos
    exact Finmap.mem_of_lookup_eq_some ha

theorem of_lookup (h : Tracks C m refs content) {k : κ} {a : α} (ha : m.lookup k = some a) :
    0 < refs k ∧ C.count a = refs k ∧ C.payload a = content k := by
  have hpos : 0 < refs k := (h.mem_iff k).mp (Finmap.mem_of_lookup_eq_some ha)
  obtain ⟨a', ha', hcount, hpay⟩ := h.present k hpos
  obtain rfl : a = a' := Option.some.inj (ha.symm.trans ha')
  exact ⟨hpos, hcount, hpay⟩

/-- A change at one key keeps the records of the others. -/
theorem of_ne {m' : Finmap fun _ : κ => α} {refs' : κ → ℕ} {content' : κ → π}
    (h : Tracks C m refs content) {k : κ}
    (hother : ∀ j, j ≠ k → m'.lookup j = m.lookup j ∧ refs' j = refs j ∧ content' j = content j)
    (habsent : refs' k = 0 → m'.lookup k = none)
    (hpresent : 0 < refs' k →
      ∃ a, m'.lookup k = some a ∧ C.count a = refs' k ∧ C.payload a = content' k) :
    Tracks C m' refs' content' := by
  constructor
  · intro j hj
    by_cases hjk : j = k
    · subst hjk
      exact habsent hj
    · obtain ⟨hl, hr, -⟩ := hother j hjk
      rw [hl]
      exact h.absent j (hr ▸ hj)
  · intro j hj
    by_cases hjk : j = k
    · subst hjk
      exact hpresent hj
    · obtain ⟨hl, hr, hc⟩ := hother j hjk
      rw [hl, hr, hc]
      exact h.present j (hr ▸ hj)

/-- A key without references may get a record with one. -/
theorem insert (h : Tracks C m refs content) {k : κ} {a : α} (hk : refs k = 0)
    (ha : C.count a = 1) :
    Tracks C (m.insert k a) (fun j => refs j + if j = k then 1 else 0)
      (Function.update content k (C.payload a)) := by
  refine h.of_ne (k := k) (fun j hj => ⟨Finmap.lookup_insert_of_ne _ hj, ?_, ?_⟩) ?_ ?_
  · simp [hj]
  · exact Function.update_of_ne hj _ _
  · intro hzero
    simp at hzero
  · intro _
    exact ⟨a, Finmap.lookup_insert _, by simp [hk, ha], by rw [Function.update_self]⟩

theorem retain (h : Tracks C m refs content) {k : κ} (hk : 0 < refs k) :
    ∃ m', RefCounting.retain C m k = some m' ∧
      Tracks C m' (fun j => refs j + if j = k then 1 else 0) content := by
  obtain ⟨a, ha, hcount, hpay⟩ := h.present k hk
  refine ⟨m.insert k (C.setCount a (C.count a + 1)), by rw [RefCounting.retain, ha]; rfl, ?_⟩
  refine h.of_ne (k := k) (fun j hj => ⟨Finmap.lookup_insert_of_ne _ hj, by simp [hj], rfl⟩) ?_ ?_
  · intro hzero
    simp at hzero
  · intro _
    refine ⟨_, Finmap.lookup_insert _, ?_, ?_⟩
    · rw [C.count_setCount, hcount]
      simp
    · rw [C.payload_setCount, hpay]

/-- A key with references may lose one, and its record when that was the last. -/
theorem release (h : Tracks C m refs content) {k : κ} (hk : 0 < refs k) :
    ∃ m', RefCounting.release C m k = some m' ∧
      Tracks C m' (fun j => refs j - if j = k then 1 else 0) content := by
  obtain ⟨a, ha, hcount, hpay⟩ := h.present k hk
  by_cases hlast : C.count a - 1 = 0
  · have hone : refs k = 1 := by omega
    refine ⟨m.erase k, by simp [RefCounting.release, ha, hlast], ?_⟩
    refine h.of_ne (k := k) (fun j hj => ⟨Finmap.lookup_erase_ne hj, by simp [hj], rfl⟩) ?_ ?_
    · intro _
      exact Finmap.lookup_erase k m
    · intro hpos
      simp [hone] at hpos
  · refine ⟨m.insert k (C.setCount a (C.count a - 1)), by simp [RefCounting.release, ha, hlast], ?_⟩
    refine h.of_ne (k := k)
      (fun j hj => ⟨Finmap.lookup_insert_of_ne _ hj, by simp [hj], rfl⟩) ?_ ?_
    · intro hzero
      simp only [if_true] at hzero
      omega
    · intro _
      refine ⟨_, Finmap.lookup_insert _, ?_, ?_⟩
      · rw [C.count_setCount, hcount]
        simp only [if_true]
        omega
      · rw [C.payload_setCount, hpay]

/-- **Retaining a list.**  Keys that all have references get one more for each occurrence. -/
theorem retainAll (h : Tracks C m refs content) (ks : List κ) (hks : ∀ k ∈ ks, 0 < refs k) :
    ∃ m', RefCounting.retainAll C m ks = some m' ∧
      Tracks C m' (fun j => refs j + ks.count j) content := by
  induction ks generalizing m refs with
  | nil => exact ⟨m, rfl, by simpa using h⟩
  | cons k ks ih =>
    obtain ⟨m₁, hm₁, h₁⟩ := h.retain (hks k (by simp))
    obtain ⟨m', hm', h'⟩ := ih h₁ (fun j hj => by
      have := hks j (by simp [hj])
      omega)
    refine ⟨m', ?_, ?_⟩
    · show ((RefCounting.retain C m k).bind fun m₁ => RefCounting.retainAll C m₁ ks) = some m'
      rw [hm₁]
      exact hm'
    · convert h' using 2 with j
      rw [count_cons_eq]
      omega

/-- **Releasing a list.**  Keys with at least as many references as they occur in the list lose
one for each occurrence. -/
theorem releaseAll (h : Tracks C m refs content) (ks : List κ)
    (hks : ∀ k ∈ ks, ks.count k ≤ refs k) :
    ∃ m', RefCounting.releaseAll C m ks = some m' ∧
      Tracks C m' (fun j => refs j - ks.count j) content := by
  induction ks generalizing m refs with
  | nil => exact ⟨m, rfl, by simpa using h⟩
  | cons k ks ih =>
    have hk := hks k (by simp)
    rw [List.count_cons_self] at hk
    obtain ⟨m₁, hm₁, h₁⟩ := h.release (k := k) (by omega)
    obtain ⟨m', hm', h'⟩ := ih h₁ (fun j hj => by
      have hj' := hks j (by simp [hj])
      rw [count_cons_eq] at hj'
      omega)
    refine ⟨m', ?_, ?_⟩
    · show ((RefCounting.release C m k).bind fun m₁ => RefCounting.releaseAll C m₁ ks) = some m'
      rw [hm₁]
      exact hm'
    · convert h' using 2 with j
      rw [count_cons_eq]
      omega

end Tracks

end RefCounting
