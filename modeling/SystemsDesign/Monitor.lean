/-
# Monitors: one mutex and waits on conditions

A monitor is a shared state, changed only in critical sections, together with the threads that
are blocked in `cv.wait(lock, condition)`.  A thread that calls `wait` goes on at once when its
condition holds and is blocked otherwise; a blocked thread may wake up at any time, notified or
not, looks at its condition again, and goes on or stays blocked.

Which condition a thread waits for, and what it does when it goes on, are parameters.  An
invariant of the shared state and the blocked threads has to be checked only where a thread
goes on (`await_invariant`, `wake_invariant`).
-/
import Mathlib.Data.Multiset.AddSub

/-- What blocked threads wait for and what they do next.  `κ` names a wait: the thread's place
in the program together with its local variables. -/
structure Monitor (σ κ : Type*) where
  ready : κ → σ → Bool
  proceed : κ → σ → σ

namespace Monitor

variable {σ κ : Type*}

/-- The shared state and the threads blocked on it. -/
structure State (σ κ : Type*) where
  shared : σ
  waiting : Multiset κ

/-- `cv.wait(lock, condition)` and the rest of the critical section. -/
def await (M : Monitor σ κ) (s : State σ κ) (k : κ) : State σ κ :=
  if M.ready k s.shared then { s with shared := M.proceed k s.shared }
  else { s with waiting := k ::ₘ s.waiting }

/-- A blocked thread wakes up and looks at its condition again. -/
def wake [DecidableEq κ] (M : Monitor σ κ) (s : State σ κ) (k : κ) : Option (State σ κ) :=
  if k ∈ s.waiting then
    if M.ready k s.shared then some ⟨M.proceed k s.shared, s.waiting.erase k⟩
    else some s
  else none

/-- A property is kept when a blocked thread goes on. -/
def Proceeds [DecidableEq κ] (M : Monitor σ κ) (P : State σ κ → Prop) : Prop :=
  ∀ s k, P s → k ∈ s.waiting → M.ready k s.shared = true →
    P ⟨M.proceed k s.shared, s.waiting.erase k⟩

/-- **Rule for waits.**  It suffices that the invariant holds with the thread counted as
blocked, and is kept when blocked threads go on. -/
theorem await_invariant [DecidableEq κ] {M : Monitor σ κ} {P : State σ κ → Prop}
    (hP : M.Proceeds P) {s : State σ κ} {k : κ} (h : P ⟨s.shared, k ::ₘ s.waiting⟩) :
    P (M.await s k) := by
  unfold await
  by_cases hready : M.ready k s.shared = true
  · rw [if_pos hready]
    have := hP _ k h (Multiset.mem_cons_self k _) hready
    rwa [Multiset.erase_cons_head] at this
  · rw [if_neg hready]
    exact h

/-- **Rule for wake-ups.**  Spurious ones change nothing. -/
theorem wake_invariant [DecidableEq κ] {M : Monitor σ κ} {P : State σ κ → Prop}
    (hP : M.Proceeds P) {s s' : State σ κ} {k : κ} (h : P s) (hw : M.wake s k = some s') :
    P s' := by
  unfold wake at hw
  split_ifs at hw with hk hready
  · obtain rfl := Option.some.inj hw
    exact hP s k h hk hready
  · obtain rfl := Option.some.inj hw
    exact h

theorem await_shared {M : Monitor σ κ} {Q : σ → Prop} (hQ : ∀ k c, Q c → Q (M.proceed k c))
    {s : State σ κ} {k : κ} (h : Q s.shared) : Q (M.await s k).shared := by
  unfold await
  split_ifs
  · exact hQ k s.shared h
  · exact h

theorem wake_shared [DecidableEq κ] {M : Monitor σ κ} {Q : σ → Prop}
    (hQ : ∀ k c, Q c → Q (M.proceed k c)) {s s' : State σ κ} {k : κ} (h : Q s.shared)
    (hw : M.wake s k = some s') : Q s'.shared :=
  wake_invariant (P := fun s => Q s.shared) (fun s k hs _ _ => hQ k s.shared hs) h hw

end Monitor
