/-
# Transition systems: schedules, reachable states and invariants

The rules every concurrent component of the development is reasoned with.  A
component is given by a guarded step function `step : σ → α → Option σ`, where
`α` names who moves (and resolves what is left open, such as a timer), and
`none` says that the move is not enabled, for instance because a mutex is held.

* `run step s as` executes the schedule `as` from `s`;
* `run_invariant` lifts what one step preserves to every schedule, and
  `run_invariant_along` what a step preserves under a condition on the state before it
  to the schedules along which the condition holds;
* `always_iff_along` is the exact form of it, for a condition that a step must meet to keep the
  invariant;
* `run_length_le` bounds the schedules of a component by a quantity that every step lowers;
* `Reachable` is reachability for a bare step relation, used by the abstract
  models, and `run_simulates` carries a schedule of a guarded step function over
  to an abstract step relation;
* `run_refines` is for components that never get stuck: every schedule can be
  taken to its end, and stays related to a total abstract system, and `run_total` is the same
  without one; `run_refines_along` is for schedules that the abstract system allows;
* `foldl_invariant` is the invariant rule for a total step function, whose runs are left
  folds, `foldl_invariant_along` the conditional one, and `invariably_iff_throughout` the
  exact one.
-/
import Mathlib

namespace TransitionSystem

variable {σ τ α : Type*}

/-! ## Schedules of a guarded step function -/

/-- The state after executing the schedule `as` from `s`; `none` when some move of
the schedule is not enabled. -/
def run (step : σ → α → Option σ) : σ → List α → Option σ
  | s, [] => some s
  | s, a :: as => (step s a).bind fun s' => run step s' as

theorem run_cons (step : σ → α → Option σ) (s : σ) (a : α) (as : List α) :
    run step s (a :: as) = (step s a).bind fun s' => run step s' as := rfl

theorem run_append (step : σ → α → Option σ) (s : σ) (as bs : List α) :
    run step s (as ++ bs) = (run step s as).bind fun s' => run step s' bs := by
  induction as generalizing s with
  | nil => rfl
  | cons a as ih =>
    rw [List.cons_append, run_cons, run_cons, Option.bind_assoc]
    exact Option.bind_congr fun s' _ => ih s'

/-- Every step of the schedule is taken in a state that meets `P`. -/
def Along (step : σ → α → Option σ) (P : σ → α → Prop) (s : σ) (as : List α) : Prop :=
  ∀ done a rest t, as = done ++ a :: rest → run step s done = some t → P t a

@[simp] theorem along_nil (step : σ → α → Option σ) (P : σ → α → Prop) (s : σ) :
    Along step P s [] := by
  intro done a rest t heq
  simp at heq

/-- The first step meets the condition, and so do the others from where it leads. -/
theorem along_cons {step : σ → α → Option σ} {P : σ → α → Prop} {s : σ} {a : α} {as : List α} :
    Along step P s (a :: as) ↔ P s a ∧ ∀ t, step s a = some t → Along step P t as := by
  constructor
  · intro h
    refine ⟨h [] a as s rfl rfl, fun t ht done b rest u heq hrun => ?_⟩
    apply h (a :: done) b rest u (by rw [heq, List.cons_append])
    rw [run_cons, ht]
    exact hrun
  · rintro ⟨h, hrest⟩ done b rest u heq hrun
    cases done with
    | nil =>
      obtain ⟨rfl, rfl⟩ := List.cons.inj heq
      obtain rfl : s = u := Option.some.inj hrun
      exact h
    | cons a' done =>
      obtain ⟨rfl, rfl⟩ := List.cons.inj heq
      rw [run_cons, Option.bind_eq_some_iff] at hrun
      obtain ⟨t, hst, hrun⟩ := hrun
      exact hrest t hst done b rest u rfl hrun

/-- Whether the steps of a schedule meet a decidable condition can be tested by running it. -/
instance decidableAlong (step : σ → α → Option σ) (P : σ → α → Prop)
    [∀ s a, Decidable (P s a)] : ∀ s as, Decidable (Along step P s as)
  | s, [] => isTrue (along_nil step P s)
  | s, a :: as =>
    match h : step s a with
    | none => decidable_of_iff (P s a) (by rw [along_cons]; simp [h])
    | some t =>
      have := decidableAlong step P t as
      decidable_of_iff (P s a ∧ Along step P t as) (by rw [along_cons]; simp [h])

/-- **The invariant rule under a condition.**  What every enabled step that meets `P`
preserves holds after every schedule whose steps all meet `P`. -/
theorem run_invariant_along {step : σ → α → Option σ} {P : σ → α → Prop} {Inv : σ → Prop}
    (hstep : ∀ s a s', Inv s → P s a → step s a = some s' → Inv s') {s s' : σ} {as : List α}
    (h0 : Inv s) (hP : Along step P s as) (h : run step s as = some s') : Inv s' := by
  induction as generalizing s with
  | nil =>
    obtain rfl : s = s' := Option.some.inj h
    exact h0
  | cons a as ih =>
    rw [run_cons, Option.bind_eq_some_iff] at h
    obtain ⟨t, hst, hrun⟩ := h
    obtain ⟨hPa, hrest⟩ := along_cons.mp hP
    exact ih (hstep s a t h0 hPa hst) (hrest t hst) hrun

/-- Where the steps of a schedule all meet `P`, they also meet what `P` and the invariant
imply. -/
theorem Along.of_invariant {step : σ → α → Option σ} {P Q : σ → α → Prop} {Inv : σ → Prop}
    (hstep : ∀ s a s', Inv s → P s a → step s a = some s' → Inv s')
    (hQ : ∀ s a, Inv s → P s a → Q s a) {s : σ} {as : List α} (h0 : Inv s)
    (hP : Along step P s as) : Along step Q s as := by
  induction as generalizing s with
  | nil => exact along_nil step Q s
  | cons a as ih =>
    obtain ⟨hPa, hrest⟩ := along_cons.mp hP
    exact along_cons.mpr ⟨hQ s a h0 hPa, fun t ht => ih (hstep s a t h0 hPa ht) (hrest t ht)⟩

/-- **The invariant rule.**  What every enabled step preserves holds after every
schedule. -/
theorem run_invariant {step : σ → α → Option σ} {Inv : σ → Prop}
    (hstep : ∀ s a s', Inv s → step s a = some s' → Inv s') {s s' : σ} {as : List α}
    (h0 : Inv s) (h : run step s as = some s') : Inv s' :=
  run_invariant_along (P := fun _ _ => True) (fun s a s' hs _ => hstep s a s' hs) h0
    (fun _ _ _ _ _ _ => trivial) h

/-- Every state that the schedule passes through meets `Inv`. -/
def Always (step : σ → α → Option σ) (Inv : σ → Prop) (s : σ) (as : List α) : Prop :=
  ∀ done rest t, as = done ++ rest → run step s done = some t → Inv t

/-- The first state meets the invariant, and so do the others from where the first step leads. -/
theorem always_cons {step : σ → α → Option σ} {Inv : σ → Prop} {s : σ} {a : α} {as : List α} :
    Always step Inv s (a :: as) ↔ Inv s ∧ ∀ t, step s a = some t → Always step Inv t as := by
  constructor
  · intro h
    refine ⟨h [] (a :: as) s rfl rfl, fun t ht done rest u heq hrun => ?_⟩
    apply h (a :: done) rest u (by rw [heq, List.cons_append])
    rw [run_cons, ht]
    exact hrun
  · rintro ⟨h, hrest⟩ done rest u heq hrun
    cases done with
    | nil =>
      obtain rfl : s = u := Option.some.inj hrun
      exact h
    | cons b done =>
      obtain ⟨rfl, rfl⟩ := List.cons.inj heq
      rw [run_cons, Option.bind_eq_some_iff] at hrun
      obtain ⟨t, ht, hrun⟩ := hrun
      exact hrest t ht done rest u rfl hrun

/-- **The exact rule.**  If a step keeps the invariant exactly when it meets `P`, a schedule passes
through states of the invariant only if and only if all its steps meet `P`.  The steps that do may
rely on `I`, and keep it. -/
theorem always_iff_along {step : σ → α → Option σ} {P : σ → α → Prop} {I Inv : σ → Prop}
    (hI : ∀ s a s', I s → Inv s → P s a → step s a = some s' → I s')
    (hstep : ∀ s a s', I s → Inv s → step s a = some s' → (Inv s' ↔ P s a))
    (hstuck : ∀ s a, I s → Inv s → step s a = none → P s a) {s : σ} {as : List α} (hs : I s)
    (h0 : Inv s) : Always step Inv s as ↔ Along step P s as := by
  induction as generalizing s with
  | nil =>
    refine iff_of_true (fun done rest t heq hrun => ?_) (along_nil step P s)
    obtain ⟨rfl, -⟩ := List.append_eq_nil_iff.mp heq.symm
    obtain rfl : s = t := Option.some.inj hrun
    exact h0
  | cons a as ih =>
    rw [always_cons, along_cons, and_iff_right h0]
    cases hst : step s a with
    | none => simpa using hstuck s a hs h0 hst
    | some t =>
      simp only [Option.some.injEq, forall_eq']
      have hiff := hstep s a t hs h0 hst
      constructor
      · intro h
        have ht : Inv t := h [] as t rfl rfl
        have hP := hiff.mp ht
        exact ⟨hP, (ih (hI s a t hs h0 hP hst) ht).mp h⟩
      · rintro ⟨hP, h⟩
        exact (ih (hI s a t hs h0 hP hst) (hiff.mpr hP)).mpr h

/-- **The variant rule.**  A schedule has at most as many steps as a quantity allows that
every enabled step lowers. -/
theorem run_length_le {step : σ → α → Option σ} {Inv : σ → Prop} {μ : σ → ℕ}
    (hstep : ∀ s a s', Inv s → step s a = some s' → Inv s')
    (hμ : ∀ s a s', Inv s → step s a = some s' → μ s' < μ s) {s s' : σ} {as : List α}
    (h0 : Inv s) (h : run step s as = some s') : as.length + μ s' ≤ μ s := by
  induction as generalizing s with
  | nil =>
    obtain rfl := Option.some.inj h
    exact (Nat.zero_add _).le
  | cons a as ih =>
    rw [run_cons, Option.bind_eq_some_iff] at h
    obtain ⟨t, ht, hrest⟩ := h
    have hlt := hμ s a t h0 ht
    have hle := ih (hstep s a t h0 ht) hrest
    rw [List.length_cons]
    omega

/-! ## Runs of a total step function -/

/-- Every step of the run is taken in a state that meets `P`. -/
def Throughout (step : σ → α → σ) (P : σ → α → Prop) (s : σ) (as : List α) : Prop :=
  ∀ done a rest, as = done ++ a :: rest → P (done.foldl step s) a

@[simp] theorem throughout_nil (step : σ → α → σ) (P : σ → α → Prop) (s : σ) :
    Throughout step P s [] := by
  intro done a rest heq
  simp at heq

/-- The first step meets the condition, and so do the others from where it leads. -/
@[simp] theorem throughout_cons {step : σ → α → σ} {P : σ → α → Prop} {s : σ} {a : α}
    {as : List α} :
    Throughout step P s (a :: as) ↔ P s a ∧ Throughout step P (step s a) as := by
  constructor
  · intro h
    refine ⟨h [] a as rfl, fun done b rest heq => ?_⟩
    exact h (a :: done) b rest (by rw [heq, List.cons_append])
  · rintro ⟨h, hrest⟩ done b rest heq
    cases done with
    | nil =>
      obtain ⟨rfl, rfl⟩ := List.cons.inj heq
      exact h
    | cons a' done =>
      obtain ⟨rfl, rfl⟩ := List.cons.inj heq
      exact hrest done b rest rfl

/-- **The invariant rule under a condition** for a total step function. -/
theorem foldl_invariant_along {step : σ → α → σ} {P : σ → α → Prop} {Inv : σ → Prop}
    (hstep : ∀ s a, Inv s → P s a → Inv (step s a)) {s : σ} {as : List α} (h0 : Inv s)
    (hP : Throughout step P s as) : Inv (as.foldl step s) := by
  induction as generalizing s with
  | nil => exact h0
  | cons a as ih =>
    obtain ⟨hPa, hrest⟩ := throughout_cons.mp hP
    exact ih (hstep s a h0 hPa) hrest

/-- **The invariant rule** for a total step function. -/
theorem foldl_invariant {step : σ → α → σ} {Inv : σ → Prop}
    (hstep : ∀ s a, Inv s → Inv (step s a)) {s : σ} (h0 : Inv s) (as : List α) :
    Inv (as.foldl step s) :=
  foldl_invariant_along (P := fun _ _ => True) (fun s a hs _ => hstep s a hs) h0
    fun _ _ _ _ => trivial

/-- Every state that the run passes through meets `Inv`. -/
def Invariably (step : σ → α → σ) (Inv : σ → Prop) (s : σ) (as : List α) : Prop :=
  ∀ done rest, as = done ++ rest → Inv (done.foldl step s)

/-- The first state meets the invariant, and so do the others from where the first step leads. -/
theorem invariably_cons {step : σ → α → σ} {Inv : σ → Prop} {s : σ} {a : α} {as : List α} :
    Invariably step Inv s (a :: as) ↔ Inv s ∧ Invariably step Inv (step s a) as := by
  constructor
  · intro h
    refine ⟨h [] (a :: as) rfl, fun done rest heq => ?_⟩
    exact h (a :: done) rest (by rw [heq, List.cons_append])
  · rintro ⟨h, hrest⟩ done rest heq
    cases done with
    | nil => exact h
    | cons b done =>
      obtain ⟨rfl, rfl⟩ := List.cons.inj heq
      exact hrest done rest rfl

/-- **The exact rule** for a total step function. -/
theorem invariably_iff_throughout {step : σ → α → σ} {P : σ → α → Prop} {Inv : σ → Prop}
    (hstep : ∀ s a, Inv s → (Inv (step s a) ↔ P s a)) {s : σ} {as : List α} (h0 : Inv s) :
    Invariably step Inv s as ↔ Throughout step P s as := by
  induction as generalizing s with
  | nil =>
    refine iff_of_true (fun done rest heq => ?_) (throughout_nil step P s)
    obtain ⟨rfl, -⟩ := List.append_eq_nil_iff.mp heq.symm
    exact h0
  | cons a as ih =>
    rw [invariably_cons, throughout_cons, and_iff_right h0]
    constructor
    · intro h
      have ht : Inv (step s a) := h [] as rfl
      exact ⟨(hstep s a h0).mp ht, (ih ht).mp h⟩
    · rintro ⟨hP, h⟩
      exact (ih ((hstep s a h0).mpr hP)).mpr h

/-! ## Reachability for a step relation -/

/-- `s` is reached from `s₀` by finitely many steps. -/
def Reachable (step : σ → σ → Prop) (s₀ s : σ) : Prop := Relation.ReflTransGen step s₀ s

/-- **The invariant rule** for a step relation. -/
theorem Reachable.invariant {step : σ → σ → Prop} {Inv : σ → Prop} {s₀ s : σ}
    (hstep : ∀ s s', Inv s → step s s' → Inv s') (h0 : Inv s₀)
    (h : Reachable step s₀ s) : Inv s := by
  induction h with
  | refl => exact h0
  | tail _ hst ih => exact hstep _ _ ih hst

/-- **Simulation.**  If `f` sends every step of the guarded step function to a step
of the relation `abs`, it sends the end of every schedule to a reachable state. -/
theorem run_simulates {step : σ → α → Option σ} {abs : τ → τ → Prop} {f : σ → τ}
    (hstep : ∀ s a s', step s a = some s' → abs (f s) (f s')) {s s' : σ} {as : List α}
    (h : run step s as = some s') : Reachable abs (f s) (f s') := by
  induction as generalizing s with
  | nil =>
    obtain rfl : s = s' := Option.some.inj h
    exact Relation.ReflTransGen.refl
  | cons a as ih =>
    rw [run_cons, Option.bind_eq_some_iff] at h
    obtain ⟨t, hst, hrun⟩ := h
    exact Relation.ReflTransGen.head (hstep s a t hst) (ih hrun)

/-- **Refinement under a condition.**  If from related states every label that the abstract system
allows can be taken and leads to related states again, every schedule whose labels are allowed can
be taken to its end. -/
theorem run_refines_along {step : σ → α → Option σ} {abs : τ → α → τ} {R : σ → τ → Prop}
    {P : τ → α → Prop}
    (hstep : ∀ s t a, R s t → P t a → ∃ s', step s a = some s' ∧ R s' (abs t a)) {s : σ} {t : τ}
    (h0 : R s t) {as : List α} (hP : Throughout abs P t as) :
    ∃ s', run step s as = some s' ∧ R s' (as.foldl abs t) := by
  induction as generalizing s t with
  | nil => exact ⟨s, rfl, h0⟩
  | cons a as ih =>
    obtain ⟨hPa, hrest⟩ := throughout_cons.mp hP
    obtain ⟨s₁, hs₁, h₁⟩ := hstep s t a h0 hPa
    obtain ⟨s', hs', h'⟩ := ih h₁ hrest
    exact ⟨s', by rw [run_cons, hs₁]; exact hs', h'⟩

/-- **Refinement of a total system.**  If from related states every label can be taken and
leads to related states again, every schedule can be taken to its end. -/
theorem run_refines {step : σ → α → Option σ} {abs : τ → α → τ} {R : σ → τ → Prop}
    (hstep : ∀ s t a, R s t → ∃ s', step s a = some s' ∧ R s' (abs t a)) {s : σ} {t : τ}
    (h0 : R s t) (as : List α) : ∃ s', run step s as = some s' ∧ R s' (as.foldl abs t) :=
  run_refines_along (P := fun _ _ => True) (fun s t a h _ => hstep s t a h) h0
    fun _ _ _ _ => trivial

/-- **Runs of a component that never gets stuck.**  If the invariant enables every step, which
keeps it, every schedule can be taken to its end. -/
theorem run_total {step : σ → α → Option σ} {Inv : σ → Prop}
    (hstep : ∀ s a, Inv s → ∃ s', step s a = some s' ∧ Inv s') {s : σ} (h0 : Inv s)
    (as : List α) : ∃ s', run step s as = some s' ∧ Inv s' :=
  @run_refines σ Unit α step (fun t _ => t) (fun s _ => Inv s) (fun s _ a hs => hstep s a hs) s ()
    h0 as

end TransitionSystem
