/-
# Machines that answer their events

A component that is called and answers is a step function `step : σ → ε → ω × σ`: the event and the
state give the answer and the next state.  What can be seen of a run is its transcript, the events
with their answers.

* `potential_rule` bounds what the answers of a run cost together: by a quantity of the states that
  pays for them, and what the events add to it.
* `transcript_filter_of_view` is the unwinding rule for isolation: if the hidden events do not
  change the view of the state, and the view determines the answers to the others, then the others
  are answered as if the hidden ones had not happened.
* `granted` are the events answered with `true`.
-/
import SystemsDesign.TransitionSystem

namespace Transcripts

open TransitionSystem

variable {σ ε ω : Type*} {step : σ → ε → ω × σ}

/-! ## Transcripts -/

/-- The state after an event. -/
def next (step : σ → ε → ω × σ) (s : σ) (e : ε) : σ := (step s e).2

/-- The state after a run. -/
def final (step : σ → ε → ω × σ) (s : σ) (es : List ε) : σ := es.foldl (next step) s

/-- The events of a run with their answers. -/
def transcript (step : σ → ε → ω × σ) : σ → List ε → List (ε × ω)
  | _, [] => []
  | s, e :: es => (e, (step s e).1) :: transcript step (next step s e) es

@[simp] theorem final_nil (s : σ) : final step s [] = s := rfl

@[simp] theorem final_cons (s : σ) (e : ε) (es : List ε) :
    final step s (e :: es) = final step (next step s e) es := rfl

theorem final_append (s : σ) (es fs : List ε) :
    final step s (es ++ fs) = final step (final step s es) fs := List.foldl_append

@[simp] theorem transcript_nil (s : σ) : transcript step s [] = [] := rfl

@[simp] theorem transcript_cons (s : σ) (e : ε) (es : List ε) :
    transcript step s (e :: es) = (e, (step s e).1) :: transcript step (next step s e) es := rfl

theorem transcript_append (s : σ) (es fs : List ε) :
    transcript step s (es ++ fs)
      = transcript step s es ++ transcript step (final step s es) fs := by
  induction es generalizing s with
  | nil => rfl
  | cons e es ih => rw [List.cons_append, transcript_cons, ih, transcript_cons, final_cons,
      List.cons_append]

/-! ## Potentials -/

/-- **The potential rule.**  If every step that meets `P` pays for its answer from a potential, to
which the event adds its gain, the answers of a run cost no more than the potential at its start and
the gains of its events. -/
theorem potential_rule {M : Type*} [AddCommMonoid M] [PartialOrder M] [IsOrderedAddMonoid M]
    {P : σ → ε → Prop} (φ : σ → M) (cost : ε × ω → M) (gain : ε → M)
    (hstep : ∀ s e, P s e → φ (next step s e) + cost (e, (step s e).1) ≤ φ s + gain e)
    {s : σ} {es : List ε} (hP : Throughout (next step) P s es) :
    φ (final step s es) + ((transcript step s es).map cost).sum ≤ φ s + (es.map gain).sum := by
  induction es generalizing s with
  | nil => simp
  | cons e es ih =>
    obtain ⟨he, hes⟩ := throughout_cons.mp hP
    simp only [final_cons, transcript_cons, List.map_cons, List.sum_cons]
    calc φ (final step (next step s e) es)
          + (cost (e, (step s e).1) + ((transcript step (next step s e) es).map cost).sum)
        = φ (final step (next step s e) es) + ((transcript step (next step s e) es).map cost).sum
          + cost (e, (step s e).1) := by abel
      _ ≤ φ (next step s e) + (es.map gain).sum + cost (e, (step s e).1) :=
          add_le_add_left (ih hes) _
      _ = φ (next step s e) + cost (e, (step s e).1) + (es.map gain).sum := by abel
      _ ≤ φ s + gain e + (es.map gain).sum := add_le_add_left (hstep s e he) _
      _ = φ s + (gain e + (es.map gain).sum) := add_assoc _ _ _

/-- What costs a unit each time costs as often as it happens. -/
theorem sum_map_ite {α R : Type*} [AddCommMonoidWithOne R] (p : α → Prop) [DecidablePred p]
    (l : List α) : (l.map fun a => if p a then (1 : R) else 0).sum = l.countP p := by
  induction l with
  | nil => simp
  | cons a l ih =>
    rw [List.map_cons, List.sum_cons, ih, List.countP_cons, Nat.cast_add, add_comm]
    by_cases h : p a <;> simp [h]

/-! ## Isolation -/

/-- **The unwinding rule.**  Two runs from states of the same view: the one without the hidden
events answers the others the same. -/
theorem transcript_filter_of_view {V : Type*} (view : σ → V) {visible : ε → Bool}
    (hhidden : ∀ s e, visible e = false → view (next step s e) = view s)
    (hvisible : ∀ s s' e, visible e = true → view s = view s' →
      (step s e).1 = (step s' e).1 ∧ view (next step s e) = view (next step s' e))
    {s s' : σ} (h : view s = view s') (es : List ε) :
    (transcript step s es).filter (fun log => visible log.1)
      = transcript step s' (es.filter visible) := by
  induction es generalizing s s' with
  | nil => rfl
  | cons e es ih =>
    rw [transcript_cons]
    cases hv : visible e with
    | false =>
      rw [List.filter_cons_of_neg (by simp [hv]), List.filter_cons_of_neg (by simp [hv])]
      exact ih ((hhidden s e hv).trans h)
    | true =>
      obtain ⟨hans, hnext⟩ := hvisible s s' e hv h
      rw [List.filter_cons_of_pos (by simp [hv]), List.filter_cons_of_pos hv, transcript_cons,
        hans, ih hnext]

/-! ## Granted events -/

/-- The events answered with `true`. -/
def granted (log : List (ε × Bool)) : List ε := (log.filter (·.2)).map (·.1)

@[simp] theorem granted_nil : granted ([] : List (ε × Bool)) = [] := rfl

theorem granted_cons (e : ε) (b : Bool) (log : List (ε × Bool)) :
    granted ((e, b) :: log) = (if b then [e] else []) ++ granted log := by
  cases b <;> rfl

theorem granted_append (log log' : List (ε × Bool)) :
    granted (log ++ log') = granted log ++ granted log' := by
  rw [granted, granted, granted, List.filter_append, List.map_append]

theorem exists_of_granted_eq {step : σ → ε → Bool × σ} {s : σ} {es done rest : List ε} {e : ε}
    (h : granted (transcript step s es) = done ++ e :: rest) :
    ∃ before after, es = before ++ e :: after ∧ granted (transcript step s before) = done ∧
      (step (final step s before) e).1 = true := by
  induction es generalizing s done with
  | nil => simp at h
  | cons e' es ih =>
    rw [transcript_cons, granted_cons] at h
    cases hans : (step s e').1 with
    | false =>
      rw [hans] at h
      obtain ⟨before, after, rfl, hdone, hgrant⟩ := ih h
      refine ⟨e' :: before, after, rfl, ?_, hgrant⟩
      rw [transcript_cons, granted_cons, hans, ← hdone]
      rfl
    | true =>
      rw [hans] at h
      cases done with
      | nil =>
        obtain ⟨rfl, -⟩ := List.cons.inj h
        exact ⟨[], es, rfl, rfl, hans⟩
      | cons d done =>
        obtain ⟨rfl, hrest⟩ := List.cons.inj h
        obtain ⟨before, after, rfl, hdone, hgrant⟩ := ih hrest
        refine ⟨e' :: before, after, rfl, ?_, hgrant⟩
        rw [transcript_cons, granted_cons, hans, ← hdone]
        rfl

theorem granted_snoc {step : σ → ε → Bool × σ} (s : σ) (es : List ε) (e : ε) :
    granted (transcript step s (es ++ [e]))
      = granted (transcript step s es) ++ if (step (final step s es) e).1 then [e] else [] := by
  rw [transcript_append, granted_append, transcript_cons, granted_cons, transcript_nil, granted_nil,
    List.append_nil]

end Transcripts
