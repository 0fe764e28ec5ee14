/-
# Ordered maps

`std::map` is the balanced search tree of the standard library, compared by the linear
order of the keys.  Only what the proofs of this development use is restated here, in
terms of `<` and `=` instead of the comparator.
-/
import Mathlib

/-- `std::map<κ, ν>` with the default comparator. -/
abbrev OrderedMap (κ ν : Type*) [LinearOrder κ] := Std.TreeMap κ ν compare

namespace OrderedMap

variable {κ ν : Type*} [LinearOrder κ]

theorem toList_pairwise_lt (m : OrderedMap κ ν) :
    m.toList.Pairwise fun a b => a.1 < b.1 :=
  Std.TreeMap.ordered_keys_toList.imp fun h => compare_lt_iff_lt.mp h

theorem mem_toList_iff {m : OrderedMap κ ν} {k : κ} {v : ν} :
    (k, v) ∈ m.toList ↔ m[k]? = some v :=
  Std.TreeMap.mem_toList_iff_getElem?_eq_some

theorem getElem?_insert_eq_ite (m : OrderedMap κ ν) (k k' : κ) (v : ν) :
    (m.insert k v)[k']? = if k = k' then some v else m[k']? := by
  rw [Std.TreeMap.getElem?_insert]
  by_cases h : k = k'
  · rw [if_pos h, if_pos (compare_eq_iff_eq.mpr h)]
  · rw [if_neg h, if_neg (fun hc => h (compare_eq_iff_eq.mp hc))]

theorem getElem?_erase_eq_ite (m : OrderedMap κ ν) (k k' : κ) :
    (m.erase k)[k']? = if k = k' then none else m[k']? := by
  rw [Std.TreeMap.getElem?_erase]
  by_cases h : k = k'
  · rw [if_pos h, if_pos (compare_eq_iff_eq.mpr h)]
  · rw [if_neg h, if_neg (fun hc => h (compare_eq_iff_eq.mp hc))]

/-- The map as a partial function. -/
def lookup (m : OrderedMap κ ν) (k : κ) : Option ν := m[k]?

theorem lookup_insert (m : OrderedMap κ ν) (k : κ) (v : ν) :
    lookup (m.insert k v) = Function.update (lookup m) k (some v) := by
  funext k'
  rw [lookup, getElem?_insert_eq_ite, Function.update_apply]
  simp only [eq_comm, lookup]

theorem lookup_erase (m : OrderedMap κ ν) (k : κ) :
    lookup (m.erase k) = Function.update (lookup m) k none := by
  funext k'
  rw [lookup, getElem?_erase_eq_ite, Function.update_apply]
  simp only [eq_comm, lookup]

/-- A scan finds nothing when no entry meets the condition. -/
theorem find?_toList_eq_none {m : OrderedMap κ ν} {p : κ × ν → Bool} :
    m.toList.find? p = none ↔ ∀ k v, m[k]? = some v → ¬ p (k, v) := by
  rw [List.find?_eq_none]
  constructor
  · exact fun h k v hk => h (k, v) (mem_toList_iff.mpr hk)
  · exact fun h e he => h e.1 e.2 (mem_toList_iff.mp he)

/-- In a list in order, what a scan finds comes before everything else that meets the condition. -/
theorem eq_or_rel_of_find? {α : Type*} {r : α → α → Prop} {l : List α} {p : α → Bool} {a b : α}
    (hl : l.Pairwise r) (h : l.find? p = some a) (hb : b ∈ l) (hp : p b) : b = a ∨ r a b := by
  obtain ⟨-, as, bs, rfl, has⟩ := List.find?_eq_some_iff_append.mp h
  rw [List.pairwise_append, List.pairwise_cons] at hl
  rcases List.mem_append.mp hb with hb | hb
  · have hnot := has b hb
    simp [hp] at hnot
  · exact (List.mem_cons.mp hb).imp_right (hl.2.1.1 b)

theorem find?_toList_eq_some {m : OrderedMap κ ν} {p : κ × ν → Bool} {k : κ} {v : ν}
    (h : m.toList.find? p = some (k, v)) :
    m[k]? = some v ∧ p (k, v) ∧ ∀ k' v', m[k']? = some v' → p (k', v') → k ≤ k' := by
  refine ⟨mem_toList_iff.mp (List.mem_of_find?_eq_some h), List.find?_some h,
    fun k' v' hk' hp' => ?_⟩
  rcases eq_or_rel_of_find? m.toList_pairwise_lt h (mem_toList_iff.mpr hk') hp' with heq | hlt
  · rw [(Prod.mk.inj heq).1]
  · exact hlt.le

theorem head?_toList_eq_some {m : OrderedMap κ ν} {k : κ} {v : ν}
    (h : m.toList.head? = some (k, v)) :
    m[k]? = some v ∧ ∀ k' v', m[k']? = some v' → k ≤ k' := by
  have hsorted := m.toList_pairwise_lt
  refine ⟨mem_toList_iff.mp (List.mem_of_mem_head? h), fun k' v' hk' => ?_⟩
  have hmem := mem_toList_iff.mpr hk'
  obtain ⟨rest, heq⟩ := List.head?_eq_some_iff.mp h
  rw [heq] at hsorted hmem
  rcases List.mem_cons.mp hmem with hmem | hmem
  · rw [(Prod.mk.inj hmem).1]
  · exact ((List.pairwise_cons.mp hsorted).1 (k', v') hmem).le

/-- A scan from the end finds the entry with the greatest key that meets the condition. -/
theorem find?_reverse_toList_eq_some {m : OrderedMap κ ν} {p : κ × ν → Bool} {k : κ} {v : ν}
    (h : m.toList.reverse.find? p = some (k, v)) :
    m[k]? = some v ∧ p (k, v) ∧ ∀ k' v', m[k']? = some v' → p (k', v') → k' ≤ k := by
  have hsorted : m.toList.reverse.Pairwise fun a b => b.1 < a.1 :=
    List.pairwise_reverse.mpr m.toList_pairwise_lt
  refine ⟨mem_toList_iff.mp (List.mem_reverse.mp (List.mem_of_find?_eq_some h)),
    List.find?_some h, fun k' v' hk' hp' => ?_⟩
  have hmem := List.mem_reverse.mpr (mem_toList_iff.mpr hk')
  rcases eq_or_rel_of_find? hsorted h hmem hp' with heq | hlt
  · rw [(Prod.mk.inj heq).1]
  · exact hlt.le

end OrderedMap
