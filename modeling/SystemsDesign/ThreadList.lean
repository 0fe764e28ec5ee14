/-
# Threads as a list of phases

The threads of a component are a list: entry `i` says where thread `i` is in the program, with
its local variables.  A step of thread `i` sets that entry.

* `total f ts` adds up a quantity over the threads; `total_set` and `countP_set_add` say what one
  step does to it;
* `ofThread` is what one thread has written to a common log;
* `notifyOne` and `notifyAll` are the two notifications of a condition variable, for a phase type
  with sleeping phases.  A notification for one thread may wake any of the sleepers and is lost
  when there is none.
-/
import Mathlib

namespace ThreadList

variable {φ : Type*} {ts ts' : List φ} {i j : ℕ} {p q : φ}

/-! ## Quantities over all threads -/

/-- The sum of a quantity over the threads. -/
def total {M : Type*} [AddCommMonoid M] (f : φ → M) (ts : List φ) : M := (ts.map f).sum

section Total

variable {M : Type*} [AddCommMonoid M] (f : φ → M)

@[simp] theorem total_nil : total f [] = 0 := rfl

@[simp] theorem total_cons : total f (p :: ts) = f p + total f ts := by
  simp [total]

theorem total_set (h : ts[i]? = some p) (q : φ) :
    total f (ts.set i q) + f p = total f ts + f q := by
  -- along the list up to the thread that moves
  induction ts generalizing i with
  | nil => simp at h
  | cons r ts ih =>
    cases i with
    | zero =>
      obtain rfl : r = p := by simpa using h
      rw [List.set_cons_zero, total_cons, total_cons]
      abel
    | succ i =>
      have hrest := ih (i := i) (by simpa using h)
      rw [List.set_cons_succ, total_cons, total_cons, add_assoc, hrest, add_assoc]

theorem total_set_of_eq_add {M : Type*} [AddCancelCommMonoid M] {f : φ → M} {d : M}
    (h : ts[i]? = some p) (hd : f p = d + f q) : total f (ts.set i q) + d = total f ts := by
  have hset := total_set f h q
  rw [hd, ← add_assoc] at hset
  exact add_right_cancel hset

theorem total_le {M : Type*} [AddCommMonoid M] [PartialOrder M] [IsOrderedAddMonoid M]
    {f g : φ → M} (h : ∀ p, f p ≤ g p) (ts : List φ) : total f ts ≤ total g ts := by
  induction ts with
  | nil => exact le_rfl
  | cons r ts ih =>
    rw [total_cons, total_cons]
    exact add_le_add (h r) ih

theorem total_eq_zero (h : ∀ p ∈ ts, f p = 0) : total f ts = 0 := by
  induction ts with
  | nil => rfl
  | cons r ts ih =>
    rw [total_cons, h r List.mem_cons_self, zero_add]
    exact ih fun p hp => h p (List.mem_cons_of_mem r hp)

end Total

/-- A step of one thread changes the number of threads in a set of phases by that thread. -/
theorem countP_set_add (Q : φ → Bool) (h : ts[i]? = some p) (q : φ) :
    (ts.set i q).countP Q + (if Q p then 1 else 0) = ts.countP Q + if Q q then 1 else 0 := by
  have htotal : ∀ us : List φ, us.countP Q = total (fun r => if Q r then 1 else 0) us := by
    intro us
    induction us with
    | nil => rfl
    | cons r us ih => rw [List.countP_cons, total_cons, ih, Nat.add_comm]
  rw [htotal, htotal]
  exact total_set _ h q

/-- Taking one entry out of a list, whatever the order of the others. -/
theorem coe_eraseIdx_add (h : ts[i]? = some p) :
    ((ts.eraseIdx i : List φ) : Multiset φ) + {p} = ts := by
  obtain ⟨hlt, rfl⟩ := List.getElem?_eq_some_iff.mp h
  rw [← Multiset.coe_singleton, Multiset.coe_add, Multiset.coe_eq_coe]
  exact List.perm_append_comm.trans (List.getElem_cons_eraseIdx_perm hlt)

theorem mem_set_self (h : ts[i]? = some p) : q ∈ ts.set i q :=
  List.mem_set (List.getElem?_eq_some_iff.mp h).1 q

/-- What is in the list of phases after a step of a thread that was elsewhere was there before. -/
theorem mem_of_mem_set (hr : p ∈ ts.set i q) (hne : p ≠ q) : p ∈ ts :=
  (List.mem_or_eq_of_mem_set hr).resolve_right hne

/-- A phase other than the thread's own is still there after its step. -/
theorem mem_set_of_mem (h : ts[i]? = some p) {r : φ} (hr : r ∈ ts) (hne : r ≠ p) :
    r ∈ ts.set i q := by
  obtain ⟨j, hj⟩ := List.mem_iff_getElem?.mp hr
  have hij : i ≠ j := by
    rintro rfl
    exact hne (Option.some.inj (hj.symm.trans h))
  exact List.mem_of_getElem? ((List.getElem?_set_ne hij).trans hj)

theorem map_set_same {β : Type*} {f : φ → β} (h : ts[i]? = some p) (hq : f q = f p) :
    (ts.set i q).map f = ts.map f := by
  obtain ⟨hlt, rfl⟩ := List.getElem?_eq_some_iff.mp h
  rw [List.map_set, hq, ← List.getElem_map f (h := by simpa using hlt), List.set_getElem_self]

theorem forall_getElem?_set {Q Q' : ℕ → φ → Prop} (h : ∀ j r, ts[j]? = some r → Q j r)
    (hi : ts[i]? = some p) (hself : Q i p → Q' i q)
    (hother : ∀ j r, i ≠ j → Q j r → Q' j r) :
    ∀ j r, (ts.set i q)[j]? = some r → Q' j r := by
  intro j r hj
  by_cases hij : i = j
  · subst hij
    rw [List.getElem?_set_self (List.getElem?_eq_some_iff.mp hi).1] at hj
    obtain rfl := Option.some.inj hj
    exact hself (h i p hi)
  · rw [List.getElem?_set_ne hij] at hj
    exact hother j r hij (h j r hj)

/-! ## Logs of several threads -/

section Logs

variable {ε : Type*} {log : List (ℕ × ε)}

/-- What thread `i` has written to a log. -/
def ofThread (i : ℕ) (log : List (ℕ × ε)) : List ε := (log.filter fun e => e.1 = i).map Prod.snd

theorem ofThread_append_self (i : ℕ) (log : List (ℕ × ε)) (es : List ε) :
    ofThread i (log ++ es.map (Prod.mk i)) = ofThread i log ++ es := by
  simp [ofThread, List.filter_map, Function.comp_def]

theorem ofThread_append_ne (hne : j ≠ i) (log : List (ℕ × ε)) (es : List ε) :
    ofThread i (log ++ es.map (Prod.mk j)) = ofThread i log := by
  simp [ofThread, List.filter_map, Function.comp_def, hne]

theorem ofThread_eq_map (h : ∀ e ∈ log, e.1 = i) : ofThread i log = log.map Prod.snd := by
  rw [ofThread, List.filter_eq_self.mpr fun e he => decide_eq_true (h e he)]

end Logs

/-! ## Notifications -/

section Notify

variable (asleep : φ → Bool) (rouse : φ → φ)

/-- `cv.notify_all()`. -/
def notifyAll (ts : List φ) : List φ := ts.map fun p => if asleep p then rouse p else p

/-- `cv.notify_one()`, which wakes the sleeper `j`. -/
def notifyOne (ts : List φ) (j : ℕ) : Option (List φ) :=
  if ts.any asleep then
    match ts[j]? with
    | some p => if asleep p then some (ts.set j (rouse p)) else none
    | none => none
  else some ts

variable {asleep rouse}

/-- A notification for one thread wakes a sleeper, unless there is none. -/
theorem notifyOne_spec (h : notifyOne asleep rouse ts j = some ts') :
    (∀ p ∈ ts, asleep p = false) ∧ ts' = ts ∨
      ∃ p, ts[j]? = some p ∧ asleep p = true ∧ ts' = ts.set j (rouse p) := by
  unfold notifyOne at h
  split_ifs at h with hany
  · cases hj : ts[j]? with
    | none => simp [hj] at h
    | some p =>
      rw [hj] at h
      dsimp only at h
      split_ifs at h with hp
      exact .inr ⟨p, rfl, hp, (Option.some.inj h).symm⟩
  · refine .inl ⟨fun p hp => ?_, (Option.some.inj h).symm⟩
    by_contra hasleep
    exact hany (List.any_eq_true.mpr ⟨p, hp, Bool.eq_true_of_not_eq_false hasleep⟩)

theorem getElem?_notifyOne (hi : ts[i]? = some p) (hp : asleep p = false)
    (h : notifyOne asleep rouse ts j = some ts') : ts'[i]? = some p := by
  rcases notifyOne_spec h with ⟨-, rfl⟩ | ⟨q, hj, hq, rfl⟩
  · exact hi
  · have hne : j ≠ i := by
      rintro rfl
      obtain rfl : p = q := Option.some.inj (hi.symm.trans hj)
      exact absurd (hp.symm.trans hq) (by decide)
    exact (List.getElem?_set_ne hne).trans hi

/-- Waking one sleeper does not change how many threads are in a set of phases that waking does
not leave or enter. -/
theorem countP_notifyOne {Q : φ → Bool} (hQ : ∀ p, asleep p = true → Q (rouse p) = Q p)
    (h : notifyOne asleep rouse ts j = some ts') : ts'.countP Q = ts.countP Q := by
  rcases notifyOne_spec h with ⟨-, rfl⟩ | ⟨p, hj, hp, rfl⟩
  · rfl
  · have hset := countP_set_add Q hj (rouse p)
    rw [hQ p hp] at hset
    exact Nat.add_right_cancel hset

theorem countP_notifyAll {Q : φ → Bool} (hQ : ∀ p, asleep p = true → Q (rouse p) = Q p)
    (ts : List φ) : (notifyAll asleep rouse ts).countP Q = ts.countP Q := by
  unfold notifyAll
  rw [List.countP_map]
  apply List.countP_congr
  intro p _
  by_cases hp : asleep p = true
  · simp [hp, hQ p hp]
  · simp [hp]

/-- After a notification of all threads the others are where they were. -/
theorem mem_notifyAll : q ∈ notifyAll asleep rouse ts ↔
    (∃ p ∈ ts, asleep p = true ∧ rouse p = q) ∨ q ∈ ts ∧ asleep q = false := by
  unfold notifyAll
  rw [List.mem_map]
  constructor
  · rintro ⟨p, hp, rfl⟩
    by_cases hasleep : asleep p = true
    · exact .inl ⟨p, hp, hasleep, by rw [if_pos hasleep]⟩
    · rw [if_neg hasleep]
      exact .inr ⟨hp, Bool.eq_false_of_not_eq_true hasleep⟩
  · rintro (⟨p, hp, hasleep, rfl⟩ | ⟨hq, hasleep⟩)
    · exact ⟨p, hp, by rw [if_pos hasleep]⟩
    · exact ⟨q, hq, by rw [hasleep]; rfl⟩

end Notify

end ThreadList
