/-
# Logs of events

A component that writes down what it does appends events to a log.  A property of the log that
says when an event may occur (`Justified`) looks only at what came before the event, so it is kept
when events are appended that are justified by the log so far.

The schedule of a transition system is a log as well, of the moves it has made; an invariant may
relate the state to it (`run_history`).
-/
import SystemsDesign.TransitionSystem

namespace EventLog

open TransitionSystem

variable {ε : Type*} {J : List ε → ε → Prop} {log : List ε}

/-- Every event of the log was justified by what came before it. -/
def Justified (J : List ε → ε → Prop) (log : List ε) : Prop :=
  ∀ before e after, log = before ++ e :: after → J before e

theorem justified_nil (J : List ε → ε → Prop) : Justified J [] := by
  intro before e after heq
  simp at heq

/-- **One more event** has to be justified by the log so far. -/
theorem justified_concat {e : ε} :
    Justified J (log ++ [e]) ↔ Justified J log ∧ J log e := by
  constructor
  · intro h
    refine ⟨fun before a after heq => ?_, h log e [] rfl⟩
    apply h before a (after ++ [e])
    rw [heq, List.append_assoc, List.cons_append]
  · rintro ⟨h, he⟩ before a after heq
    rcases List.eq_nil_or_concat after with rfl | ⟨after, b, rfl⟩
    · obtain ⟨rfl, heq⟩ := List.append_inj' heq rfl
      obtain rfl : e = a := by simpa using heq
      exact he
    · rw [List.concat_eq_append, ← List.cons_append, ← List.append_assoc] at heq
      obtain ⟨rfl, -⟩ := List.append_inj' heq rfl
      exact h before a after rfl

/-- **The invariant rule with history.**  What every enabled step that meets `P` preserves, as a
relation between the moves made so far and the state, relates every schedule whose steps all meet
`P` to the state where it ends. -/
theorem run_history {σ α : Type*} {step : σ → α → Option σ} {P : σ → α → Prop}
    {Inv : List α → σ → Prop}
    (hstep : ∀ done s a s', Inv done s → P s a → step s a = some s' → Inv (done ++ [a]) s')
    {s s' : σ} {as : List α} (h0 : Inv [] s) (hP : Along step P s as)
    (h : run step s as = some s') : Inv as s' := by
  suffices hfrom : ∀ done s, Inv done s → Along step P s as → run step s as = some s' →
      Inv (done ++ as) s' from hfrom [] s h0 hP h
  clear hP h
  induction as with
  | nil =>
    intro done s hs _ hrun
    obtain rfl := Option.some.inj hrun
    rwa [List.append_nil]
  | cons a as ih =>
    intro done s hs hP hrun
    rw [run_cons, Option.bind_eq_some_iff] at hrun
    obtain ⟨t, ht, hrun⟩ := hrun
    obtain ⟨hPa, hrest⟩ := along_cons.mp hP
    have := ih (done ++ [a]) t (hstep done s a t hs hPa ht) (hrest t ht) hrun
    rwa [List.append_assoc] at this

end EventLog
