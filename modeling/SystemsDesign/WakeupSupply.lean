/-
# No lost wake-ups, by counting

Threads that wait for units of some stock sleep on a condition variable, and every unit that is
put into the stock is followed by one notification, later and outside of the critical section.
The rule that excludes a lost wake-up: as long as somebody sleeps, each unit in stock is accounted
for by a thread that has been notified and not yet resumed, or by a notification still to come.

* `Supplied` is the rule, for any phase type with a set of sleeping phases, of phases of notified
  threads, and of phases of threads that owe a notification;
* `Supplied.set` keeps it when one thread moves, and `Supplied.notifyOne` when a notification that
  was owed is sent; `Supplied.notifyOne_other` is for a notification of another condition variable.
-/
import SystemsDesign.ThreadList

namespace WakeupSupply

open ThreadList

variable {φ : Type*} {asleep called owing : φ → Bool} {stock stock' : ℕ} {ts ts' : List φ}
  {i j : ℕ} {p q : φ}

/-- While a thread sleeps, the stock is covered by the threads that have been called and the
notifications still owed. -/
def Supplied (asleep called owing : φ → Bool) (stock : ℕ) (ts : List φ) : Prop :=
  (∃ p ∈ ts, asleep p = true) → stock ≤ ts.countP called + ts.countP owing

/-- What a thread in a phase covers. -/
def share (called owing : φ → Bool) (p : φ) : ℕ :=
  (if called p then 1 else 0) + if owing p then 1 else 0

theorem cover_set (called owing : φ → Bool) (hi : ts[i]? = some p) (q : φ) :
    (ts.set i q).countP called + (ts.set i q).countP owing + share called owing p
      = ts.countP called + ts.countP owing + share called owing q := by
  have hcalled := countP_set_add called hi q
  have howing := countP_set_add owing hi q
  unfold share
  omega

theorem Supplied.of_eq_zero (h : stock = 0) : Supplied asleep called owing stock ts := by
  intro _
  omega

/-- One thread moves, and does not go to sleep on stock.  What the stock gains and what the thread
no longer covers is covered by its new phase. -/
theorem Supplied.set (h : Supplied asleep called owing stock ts) (hi : ts[i]? = some p)
    (hq : asleep q = false)
    (hstock : stock' + share called owing p ≤ stock + share called owing q) :
    Supplied asleep called owing stock' (ts.set i q) := by
  rintro ⟨r, hr, hasleep⟩
  have hne : r ≠ q := by
    rintro rfl
    exact absurd (hq.symm.trans hasleep) (by decide)
  have hcover := h ⟨r, mem_of_mem_set hr hne, hasleep⟩
  have hset := cover_set called owing hi q
  omega

/-- A notification that was owed has been sent: it has called a sleeper, or nobody sleeps. -/
theorem Supplied.notifyOne {rouse : φ → φ}
    (h : (∃ p ∈ ts, asleep p = true) → stock ≤ ts.countP called + ts.countP owing + 1)
    (hrouse : ∀ p, asleep p = true →
      share called owing (rouse p) = share called owing p + 1)
    (hn : notifyOne asleep rouse ts j = some ts') : Supplied asleep called owing stock ts' := by
  rcases notifyOne_spec hn with ⟨hnone, rfl⟩ | ⟨r, hj, hr, rfl⟩
  · rintro ⟨r, hr, hasleep⟩
    exact absurd ((hnone r hr).symm.trans hasleep) (by decide)
  · intro _
    have hcover := h ⟨r, List.mem_of_getElem? hj, hr⟩
    have hset := cover_set called owing hj (rouse r)
    have hshare := hrouse r hr
    omega

/-- A notification on another condition variable, whose sleepers neither sleep on this one nor
cover anything, before or after. -/
theorem Supplied.notifyOne_other {asleep' : φ → Bool} {rouse : φ → φ}
    (h : Supplied asleep called owing stock ts)
    (hrouse : ∀ p, asleep' p = true → asleep (rouse p) = false ∧
      share called owing (rouse p) = share called owing p)
    (hn : ThreadList.notifyOne asleep' rouse ts j = some ts') :
    Supplied asleep called owing stock ts' := by
  rcases notifyOne_spec hn with ⟨-, rfl⟩ | ⟨r, hj, hr, rfl⟩
  · exact h
  · obtain ⟨hawake, hshare⟩ := hrouse r hr
    apply h.set hj hawake
    omega

end WakeupSupply
