/-
# Programs on mutexes and condition variables

Threads share a state that they change in critical sections only.  A thread is at a place `k` of
its program, with its local variables; the next section of that place may have a condition, and
what it does is a function of the shared state: a new shared state, the next place, and at its end
a notification.

* A section without a condition variable is taken when its condition holds, and is not enabled
  otherwise: a mutex that is held, a `join`.
* A section with a condition variable is `cv.wait(lock, condition)` and what follows: if the
  condition is false the thread falls asleep, until it is notified or wakes up without reason, and
  then looks again.

The rules:

* `Keeps.run` is the invariant rule for the shared state and the places, which falling asleep and
  waking up leave alone;
* `Summons` is for sections that call everybody when they make a condition true: nobody sleeps
  then whose condition holds, unless somebody still owes the call (`Summons.run`);
* `Supplies` is for units of a stock that are announced one by one: while somebody sleeps, the
  stock is covered by threads that are awake and by calls that are owed (`Supplies.run`);
* `effort_le` bounds the number of sections that a schedule executes.
-/
import SystemsDesign.TransitionSystem
import SystemsDesign.WakeupSupply

namespace MonitorPrograms

open ThreadList TransitionSystem WakeupSupply

variable {σ κ χ : Type*}

/-! ## Programs -/

/-- The notification at the end of a section. -/
inductive Signal (χ : Type*) where
  | silent
  | one (c : χ)
  | all (c : χ)
  deriving DecidableEq

/-- What a section leads to. -/
structure Outcome (σ κ χ : Type*) where
  shared : σ
  place : κ
  signal : Signal χ := .silent

/-- A program, with places `κ` and condition variables `χ`. -/
structure Program (σ κ χ : Type*) where
  /-- The thread has no more section. -/
  finished : κ → Bool
  /-- The condition variable on which the thread sleeps while its condition is false. -/
  waitsOn : κ → Option χ := fun _ => none
  /-- The condition of the next section. -/
  guard : κ → σ → Bool := fun _ _ => true
  /-- The next section. -/
  body : κ → σ → Outcome σ κ χ

/-- A thread. -/
structure Thread (κ : Type*) where
  place : κ
  asleep : Bool := false
  deriving DecidableEq

/-- The thread is awake. -/
def Thread.rouse (t : Thread κ) : Thread κ := { t with asleep := false }

/-- The shared state and the threads. -/
structure State (σ κ : Type*) where
  shared : σ
  threads : List (Thread κ)
  deriving DecidableEq

/-- The places of the threads. -/
def State.places (s : State σ κ) : List κ := s.threads.map Thread.place

/-- All threads are awake, at the given places. -/
def start (shared : σ) (places : List κ) : State σ κ where
  shared := shared
  threads := places.map fun k => { place := k }

/-- Who moves: thread `i` with its next section, whose notification may wake `j`; or thread `i`
wakes up without a notification. -/
inductive Act where
  | move (i j : ℕ)
  | wake (i : ℕ)
  deriving DecidableEq

namespace Program

variable (P : Program σ κ χ)

/-- Thread `i` is awake and can execute its next section. -/
def acts (s : State σ κ) (i : ℕ) : Bool :=
  match s.threads[i]? with
  | some ⟨k, false⟩ => !P.finished k && P.guard k s.shared
  | _ => false

/-- The move is a section that is executed. -/
def executes (s : State σ κ) : Act → Bool
  | .move i _ => P.acts s i
  | .wake _ => false

/-- All threads are at their ends. -/
def Done (s : State σ κ) : Prop := ∀ k ∈ s.places, P.finished k = true

instance (s : State σ κ) : Decidable (P.Done s) :=
  inferInstanceAs (Decidable (∀ k ∈ s.places, P.finished k = true))

/-- A thread at place `k` may execute its section, awake or not. -/
def Ready (k : κ) (x : σ) : Prop := P.finished k = false ∧ P.guard k x = true

section Moves

variable [DecidableEq χ]

/-- Asleep on a condition variable. -/
def sleepsOn (c : χ) (t : Thread κ) : Bool := t.asleep && P.waitsOn t.place = some c

/-- A notification is sent. -/
def deliver (ts : List (Thread κ)) (j : ℕ) : Signal χ → Option (List (Thread κ))
  | .silent => some ts
  | .one c => notifyOne (P.sleepsOn c) Thread.rouse ts j
  | .all c => some (notifyAll (P.sleepsOn c) Thread.rouse ts)

/-- One move. -/
def step (s : State σ κ) : Act → Option (State σ κ)
  | .move i j =>
    match s.threads[i]? with
    | some ⟨k, false⟩ =>
      if P.finished k then none
      else if P.guard k s.shared then
        let o := P.body k s.shared
        (P.deliver (s.threads.set i { place := o.place }) j o.signal).map fun ts => ⟨o.shared, ts⟩
      else if (P.waitsOn k).isSome then
        some { s with threads := s.threads.set i { place := k, asleep := true } }
      else none
    | _ => none
  | .wake i =>
    match s.threads[i]? with
    | some ⟨k, true⟩ => some { s with threads := s.threads.set i { place := k } }
    | _ => none

/-- What a move can be. -/
inductive Step (s s' : State σ κ) : Act → Prop where
  | act {i j : ℕ} {k : κ} {ts : List (Thread κ)} (hi : s.threads[i]? = some ⟨k, false⟩)
      (hk : P.Ready k s.shared)
      (hts : P.deliver (s.threads.set i { place := (P.body k s.shared).place }) j
        (P.body k s.shared).signal = some ts)
      (hs : s' = ⟨(P.body k s.shared).shared, ts⟩) : Step s s' (.move i j)
  | doze {i j : ℕ} {k : κ} {c : χ} (hi : s.threads[i]? = some ⟨k, false⟩)
      (hfinished : P.finished k = false) (hc : P.waitsOn k = some c)
      (hk : P.guard k s.shared = false)
      (hs : s' = { s with threads := s.threads.set i { place := k, asleep := true } }) :
      Step s s' (.move i j)
  | wake {i : ℕ} {k : κ} (hi : s.threads[i]? = some ⟨k, true⟩)
      (hs : s' = { s with threads := s.threads.set i { place := k } }) : Step s s' (.wake i)

end Moves

variable {P} {s s' : State σ κ} {ts ts' : List (Thread κ)} {i j : ℕ} {k : κ} {c : χ} {a : Act}
  {as : List Act}

/-- A thread that acts is awake and its condition holds. -/
theorem acts_iff : P.acts s i = true ↔
    ∃ k, s.threads[i]? = some ⟨k, false⟩ ∧ P.Ready k s.shared := by
  unfold acts
  constructor
  · intro h
    split at h
    next k hi =>
      rw [Bool.and_eq_true, Bool.not_eq_true'] at h
      exact ⟨k, hi, h⟩
    next => cases h
  · rintro ⟨k, hi, hfinished, hguard⟩
    rw [hi]
    simp [hfinished, hguard]

theorem exists_acts_of_mem (ht : ⟨k, false⟩ ∈ s.threads) (hk : P.Ready k s.shared) :
    ∃ i, P.acts s i = true := by
  obtain ⟨i, hi⟩ := List.mem_iff_getElem?.mp ht
  exact ⟨i, acts_iff.mpr ⟨k, hi, hk⟩⟩

/-- A thread whose condition holds does not sleep for want of another that can act. -/
def Alert (P : Program σ κ χ) (s : State σ κ) : Prop :=
  ∀ t ∈ s.threads, t.asleep = true → P.Ready t.place s.shared → ∃ i, P.acts s i = true

theorem Alert.exists_acts (h : P.Alert s) (hk : k ∈ s.places) (hready : P.Ready k s.shared) :
    ∃ i, P.acts s i = true := by
  obtain ⟨⟨k, asleep⟩, ht, rfl⟩ := List.mem_map.mp hk
  cases asleep with
  | false => exact exists_acts_of_mem ht hready
  | true => exact h _ ht rfl hready

theorem places_start (x : σ) (ks : List κ) : (start x ks).places = ks := by
  rw [State.places, start, List.map_map]
  exact List.map_id ks

theorem asleep_start {x : σ} {ks : List κ} {t : Thread κ} (ht : t ∈ (start x ks).threads) :
    t.asleep = false := by
  obtain ⟨k, -, rfl⟩ := List.mem_map.mp ht
  rfl

section Moves

variable [DecidableEq χ]

theorem step_spec (h : P.step s a = some s') : P.Step s s' a := by
  cases a with
  | move i j =>
    simp only [step] at h
    split at h
    next k hi =>
      split_ifs at h with hfinished hguard hwaits
      · obtain ⟨ts, hts, rfl⟩ := Option.map_eq_some_iff.mp h
        exact .act hi ⟨Bool.eq_false_of_not_eq_true hfinished, hguard⟩ hts rfl
      · obtain ⟨c, hc⟩ := Option.isSome_iff_exists.mp hwaits
        exact .doze hi (Bool.eq_false_of_not_eq_true hfinished) hc
          (Bool.eq_false_of_not_eq_true hguard) (Option.some.inj h).symm
    next => cases h
  | wake i =>
    simp only [step] at h
    split at h
    next k hi => exact .wake hi (Option.some.inj h).symm
    next => cases h

/-! ## Notifications -/

theorem deliver_places {signal : Signal χ} (h : P.deliver ts j signal = some ts') :
    ts'.map Thread.place = ts.map Thread.place := by
  cases signal with
  | silent => rw [← Option.some.inj h]
  | one c =>
    rcases notifyOne_spec h with ⟨-, rfl⟩ | ⟨t, hj, -, rfl⟩
    · rfl
    · exact map_set_same hj rfl
  | all c =>
    rw [← Option.some.inj h, notifyAll, List.map_map]
    apply List.map_congr_left
    intro t _
    rw [Function.comp_apply]
    split_ifs <;> rfl

/-- After a notification a thread is asleep only if it was. -/
theorem asleep_of_deliver {signal : Signal χ} (h : P.deliver ts j signal = some ts')
    {t : Thread κ} (ht : t ∈ ts') (hasleep : t.asleep = true) : t ∈ ts := by
  cases signal with
  | silent => rwa [Option.some.inj h]
  | one c =>
    rcases notifyOne_spec h with ⟨-, rfl⟩ | ⟨u, -, -, rfl⟩
    · exact ht
    · refine mem_of_mem_set ht ?_
      rintro rfl
      exact Bool.noConfusion hasleep
  | all c =>
    rw [← Option.some.inj h] at ht
    rcases mem_notifyAll.mp ht with ⟨u, -, -, rfl⟩ | ⟨ht, -⟩
    · exact Bool.noConfusion hasleep
    · exact ht

/-- A notification leaves those alone that are awake. -/
theorem awake_of_deliver {signal : Signal χ} (h : P.deliver ts j signal = some ts')
    (ht : ⟨k, false⟩ ∈ ts) : ⟨k, false⟩ ∈ ts' := by
  cases signal with
  | silent => rwa [← Option.some.inj h]
  | one c =>
    rcases notifyOne_spec h with ⟨-, rfl⟩ | ⟨u, hj, hu, rfl⟩
    · exact ht
    · refine mem_set_of_mem hj ht ?_
      rintro rfl
      exact Bool.noConfusion hu
  | all c =>
    rw [← Option.some.inj h]
    exact mem_notifyAll.mpr (.inr ⟨ht, rfl⟩)

/-- Some sleeper or other can be notified. -/
theorem exists_deliver (P : Program σ κ χ) (ts : List (Thread κ)) (signal : Signal χ) :
    ∃ j ts', P.deliver ts j signal = some ts' := by
  cases signal with
  | silent => exact ⟨0, ts, rfl⟩
  | all c => exact ⟨0, _, rfl⟩
  | one c =>
    show ∃ j ts', notifyOne (P.sleepsOn c) Thread.rouse ts j = some ts'
    unfold notifyOne
    by_cases hany : ts.any (P.sleepsOn c) = true
    · obtain ⟨t, ht, hasleep⟩ := List.any_eq_true.mp hany
      obtain ⟨j, hj⟩ := List.mem_iff_getElem?.mp ht
      refine ⟨j, ts.set j t.rouse, ?_⟩
      rw [if_pos hany, hj]
      exact if_pos hasleep
    · exact ⟨0, ts, if_neg hany⟩

theorem exists_step_of_acts (h : P.acts s i = true) : ∃ j s', P.step s (.move i j) = some s' := by
  obtain ⟨k, hi, hfinished, hguard⟩ := acts_iff.mp h
  obtain ⟨j, ts, hts⟩ := P.exists_deliver
    (s.threads.set i { place := (P.body k s.shared).place }) (P.body k s.shared).signal
  refine ⟨j, ⟨(P.body k s.shared).shared, ts⟩, ?_⟩
  simp [step, hi, hfinished, hguard, hts]

/-- All threads are at their ends, or somebody can execute a section. -/
def Live (P : Program σ κ χ) (s : State σ κ) : Prop :=
  P.Done s ∨ ∃ i j s', P.acts s i = true ∧ P.step s (.move i j) = some s'

/-- **Never stuck.**  If some condition holds as long as not all threads are finished, somebody can
execute a section. -/
theorem Alert.live (h : P.Alert s)
    (hready : ∀ k ∈ s.places, P.finished k = false → ∃ k ∈ s.places, P.Ready k s.shared) :
    P.Live s := by
  by_cases hdone : P.Done s
  · exact .inl hdone
  · unfold Done at hdone
    push Not at hdone
    obtain ⟨k, hk, hfinished⟩ := hdone
    obtain ⟨l, hl, hl'⟩ := hready k hk (Bool.eq_false_of_not_eq_true hfinished)
    obtain ⟨i, hi⟩ := h.exists_acts hl hl'
    obtain ⟨j, s', hstep⟩ := exists_step_of_acts hi
    exact .inr ⟨i, j, s', hi, hstep⟩

/-! ## Invariants of the places -/

/-- What a section does to the shared state and the places. -/
def Keeps (P : Program σ κ χ) (I : σ → List κ → Prop) : Prop :=
  ∀ x ks i k, I x ks → ks[i]? = some k → P.Ready k x →
    I (P.body k x).shared (ks.set i (P.body k x).place)

/-- An executed section changes the shared state and the place of its thread; nothing else changes
them. -/
theorem Step.places (h : P.Step s s' a) :
    (∃ i k, P.executes s a = true ∧ s.places[i]? = some k ∧ P.Ready k s.shared ∧
      s'.shared = (P.body k s.shared).shared ∧
      s'.places = s.places.set i (P.body k s.shared).place) ∨
    P.executes s a = false ∧ s'.shared = s.shared ∧ s'.places = s.places := by
  cases h with
  | @act i j k ts hi hk hts hs =>
    subst hs
    refine .inl ⟨i, k, acts_iff.mpr ⟨k, hi, hk⟩, ?_, hk, rfl, ?_⟩
    · rw [State.places, List.getElem?_map, hi]
      rfl
    · rw [State.places, deliver_places hts, List.map_set]
      rfl
  | doze hi hfinished hc hk hs =>
    subst hs
    refine .inr ⟨?_, rfl, map_set_same hi rfl⟩
    simp [executes, acts, hi, hk]
  | wake hi hs =>
    subst hs
    exact .inr ⟨rfl, rfl, map_set_same hi rfl⟩

theorem Keeps.step {I : σ → List κ → Prop} (hI : P.Keeps I) (h : I s.shared s.places)
    (hs : P.Step s s' a) : I s'.shared s'.places := by
  rcases hs.places with ⟨i, k, -, hi, hk, hshared, hplaces⟩ | ⟨-, hshared, hplaces⟩
  · rw [hshared, hplaces]
    exact hI _ _ _ _ h hi hk
  · rwa [hshared, hplaces]

/-- The invariant rule for what the moves keep as long as the invariant of the places holds. -/
theorem Keeps.run_and {I : σ → List κ → Prop} {Q : State σ κ → Prop} (hI : P.Keeps I)
    (hQ : ∀ s a s', I s.shared s.places → Q s → P.Step s s' a → Q s') {x : σ} {ks : List κ}
    (h0 : I x ks) (hQ0 : Q (start x ks))
    (hrun : TransitionSystem.run P.step (start x ks) as = some s) :
    I s.shared s.places ∧ Q s := by
  refine @run_invariant _ _ P.step (fun s => I s.shared s.places ∧ Q s)
    (fun s a s' hs hstep => ?_) _ _ _ ⟨?_, hQ0⟩ hrun
  · have hstep' := step_spec hstep
    exact ⟨hI.step hs.1 hstep', hQ s a s' hs.1 hs.2 hstep'⟩
  · rw [places_start]
    exact h0

/-- **The invariant rule for the places.** -/
theorem Keeps.run {I : σ → List κ → Prop} (hI : P.Keeps I) {x : σ} {ks : List κ} (h0 : I x ks)
    (hrun : TransitionSystem.run P.step (start x ks) as = some s) : I s.shared s.places :=
  (hI.run_and (fun _ _ _ _ _ _ => trivial) h0 trivial hrun).1

theorem length_places {x : σ} {ks : List κ}
    (hrun : TransitionSystem.run P.step (start x ks) as = some s) :
    s.places.length = ks.length := by
  have hkeeps : P.Keeps fun _ ls => ls.length = ks.length := by
    intro x ls i k hls _ _
    rw [List.length_set, hls]
  exact hkeeps.run rfl hrun

/-! ## How many sections a schedule executes -/

/-- The number of sections that a schedule executes. -/
def effort (P : Program σ κ χ) : State σ κ → List Act → ℕ
  | _, [] => 0
  | s, a :: as =>
    (if P.executes s a then 1 else 0) + (P.step s a).elim 0 fun t => effort P t as

/-- **The variant rule.**  A schedule executes at most as many sections as a quantity
allows that every section lowers, but for what it yields. -/
theorem effort_le {I : σ → List κ → Prop} {μ : σ → List κ → ℕ} {ν : σ → ℕ}
    (hI : P.Keeps I)
    (hμ : ∀ x ks i k, I x ks → ks[i]? = some k → P.Ready k x →
      μ (P.body k x).shared (ks.set i (P.body k x).place) + ν x < μ x ks + ν (P.body k x).shared)
    (h0 : I s.shared s.places) (hrun : TransitionSystem.run P.step s as = some s') :
    P.effort s as + μ s'.shared s'.places + ν s.shared ≤ μ s.shared s.places + ν s'.shared := by
  induction as generalizing s with
  | nil =>
    obtain rfl := Option.some.inj hrun
    rw [effort, Nat.zero_add]
  | cons a as ih =>
    rw [run_cons, Option.bind_eq_some_iff] at hrun
    obtain ⟨t, ht, hrest⟩ := hrun
    have hstep := step_spec ht
    have hle := ih (hI.step h0 hstep) hrest
    rw [effort, ht, Option.elim_some]
    rcases hstep.places with ⟨i, k, hexec, hi, hk, hshared, hplaces⟩ | ⟨hexec, hshared, hplaces⟩
    · have hlt := hμ _ _ _ _ h0 hi hk
      rw [← hshared, ← hplaces] at hlt
      rw [if_pos hexec]
      omega
    · rw [hshared, hplaces] at hle
      rw [hexec, if_neg Bool.false_ne_true]
      omega

/-! ## Who sleeps -/

/-- Only threads that wait are asleep. -/
def Dozing (P : Program σ κ χ) (s : State σ κ) : Prop :=
  ∀ t ∈ s.threads, t.asleep = true → P.finished t.place = false ∧ ∃ c, P.waitsOn t.place = some c

theorem Dozing.step (h : P.Dozing s) (hs : P.Step s s' a) : P.Dozing s' := by
  cases hs with
  | act hi hk hts hs =>
    subst hs
    intro t ht hasleep
    refine h t (mem_of_mem_set (asleep_of_deliver hts ht hasleep) ?_) hasleep
    rintro rfl
    exact Bool.noConfusion hasleep
  | doze hi hfinished hc hk hs =>
    subst hs
    intro t ht hasleep
    rcases List.mem_or_eq_of_mem_set ht with ht | rfl
    · exact h t ht hasleep
    · exact ⟨hfinished, _, hc⟩
  | wake hi hs =>
    subst hs
    intro t ht hasleep
    refine h t (mem_of_mem_set ht ?_) hasleep
    rintro rfl
    exact Bool.noConfusion hasleep

/-- Only threads that wait are asleep, in every run. -/
theorem dozing_run {x : σ} {ks : List κ}
    (hrun : TransitionSystem.run P.step (start x ks) as = some s) : P.Dozing s := by
  refine run_invariant (fun _ _ _ hs hstep => hs.step (step_spec hstep)) ?_ hrun
  intro t ht hasleep
  exact absurd ((asleep_start ht).symm.trans hasleep) Bool.false_ne_true

/-! ## Conditions that are announced to everybody -/

/-- Whoever sleeps on `c` although `cond` holds will be called by a thread that owes it. -/
def Excused (P : Program σ κ χ) (c : χ) (cond : κ → σ → Bool) (debtor : κ → Bool)
    (s : State σ κ) : Prop :=
  ∀ t ∈ s.threads, P.sleepsOn c t = true → cond t.place s.shared = true →
    ∃ k, ⟨k, false⟩ ∈ s.threads ∧ debtor k = true

/-- The sections that may make `cond` true announce it to all who sleep on `c`, at once or later. -/
structure Summons (P : Program σ κ χ) (I : σ → List κ → Prop) (c : χ) (cond : κ → σ → Bool)
    (debtor : κ → Bool) : Prop where
  idle : ∀ k, debtor k = true → P.waitsOn k = none
  doze : ∀ k x, P.waitsOn k = some c → P.guard k x = false → cond k x = false
  announced : ∀ x ks (i : ℕ) k, I x ks → ks[i]? = some k → P.Ready k x →
    (P.body k x).signal = .all c ∨
    debtor (P.body k x).place = true ∨
    debtor k = false ∧ ∀ l ∈ ks, P.waitsOn l = some c → cond l (P.body k x).shared = true →
      cond l x = true

section Summons

variable {I : σ → List κ → Prop} {cond : κ → σ → Bool} {debtor : κ → Bool}

theorem sleepsOn_deliver_all (h : P.deliver ts j (.all c) = some ts') {t : Thread κ}
    (ht : t ∈ ts') : P.sleepsOn c t = false := by
  rw [← Option.some.inj h] at ht
  rcases mem_notifyAll.mp ht with ⟨u, -, -, rfl⟩ | ⟨-, ht⟩
  · rfl
  · exact ht

theorem Summons.step (hP : P.Summons I c cond debtor) (hI : I s.shared s.places)
    (h : P.Excused c cond debtor s) (hs : P.Step s s' a) : P.Excused c cond debtor s' := by
  cases hs with
  | @act i j k ts hi hk hts hs =>
    subst hs
    have hplace : s.places[i]? = some k := by rw [State.places, List.getElem?_map, hi]; rfl
    have hself : (s.threads.set i { place := (P.body k s.shared).place })[i]?
        = some ⟨(P.body k s.shared).place, false⟩ :=
      List.getElem?_set_self (List.getElem?_eq_some_iff.mp hi).1
    intro t ht hsleeps hcond
    rcases hP.announced _ _ _ _ hI hplace hk with hall | hdebtor | ⟨hdebtor, hold⟩
    · rw [hall] at hts
      exact absurd ((sleepsOn_deliver_all hts ht).symm.trans hsleeps) Bool.false_ne_true
    · exact ⟨_, awake_of_deliver hts (List.mem_of_getElem? hself), hdebtor⟩
    · have hasleep : t.asleep = true := (Bool.and_eq_true_iff.mp hsleeps).1
      have hwaits : P.waitsOn t.place = some c :=
        of_decide_eq_true (Bool.and_eq_true_iff.mp hsleeps).2
      have hmem : t ∈ s.threads := by
        refine mem_of_mem_set (asleep_of_deliver hts ht hasleep) ?_
        rintro rfl
        exact Bool.noConfusion hasleep
      have hcond' := hold t.place (List.mem_map_of_mem hmem) hwaits hcond
      obtain ⟨l, hl, hl'⟩ := h t hmem hsleeps hcond'
      refine ⟨l, awake_of_deliver hts (mem_set_of_mem hi hl ?_), hl'⟩
      rintro heq
      obtain rfl : l = k := congrArg Thread.place heq
      exact absurd (hdebtor.symm.trans hl') Bool.false_ne_true
  | doze hi hfinished hc hk hs =>
    subst hs
    intro t ht hsleeps hcond
    rcases List.mem_or_eq_of_mem_set ht with ht | rfl
    · obtain ⟨l, hl, hl'⟩ := h t ht hsleeps hcond
      refine ⟨l, mem_set_of_mem hi hl ?_, hl'⟩
      rintro heq
      obtain rfl : l = _ := congrArg Thread.place heq
      exact absurd ((hP.idle l hl').symm.trans hc) (by simp)
    · have hwaits := of_decide_eq_true (Bool.and_eq_true_iff.mp hsleeps).2
      exact absurd ((hP.doze _ _ hwaits hk).symm.trans hcond) Bool.false_ne_true
  | wake hi hs =>
    subst hs
    intro t ht hsleeps hcond
    have hmem : t ∈ s.threads := by
      refine mem_of_mem_set ht ?_
      rintro rfl
      exact Bool.noConfusion hsleeps
    obtain ⟨l, hl, hl'⟩ := h t hmem hsleeps hcond
    exact ⟨l, mem_set_of_mem hi hl (by simp), hl'⟩

/-- **Conditions that are announced to everybody**, in every run. -/
theorem Summons.run (hP : P.Summons I c cond debtor) (hI : P.Keeps I) {x : σ} {ks : List κ}
    (h0 : I x ks) (hrun : TransitionSystem.run P.step (start x ks) as = some s) :
    P.Excused c cond debtor s := by
  refine (hI.run_and (fun _ _ _ => hP.step) h0 (fun t ht hsleeps => ?_) hrun).2
  have hasleep := (Bool.and_eq_true_iff.mp hsleeps).1
  exact absurd ((asleep_start ht).symm.trans hasleep) Bool.false_ne_true

end Summons

/-! ## Units that are announced one by one -/

/-- Awake, and at a wait on `c`. -/
def called (P : Program σ κ χ) (c : χ) (t : Thread κ) : Bool :=
  !t.asleep && P.waitsOn t.place = some c

/-- Awake, and about to call one that sleeps on `c`. -/
def owing (owes : κ → Bool) (t : Thread κ) : Bool := !t.asleep && owes t.place

/-- What a thread at a place covers while it is awake. -/
def cover (P : Program σ κ χ) (c : χ) (owes : κ → Bool) (k : κ) : ℕ :=
  (if P.waitsOn k = some c then 1 else 0) + if owes k then 1 else 0

/-- A wait on `c` is for a unit of `stock`.  The sections keep the books: they leave no stock, or
what the stock gains and what the thread no longer covers is covered by its new place or by the call
that it makes. -/
structure Supplies (P : Program σ κ χ) (I : σ → List κ → Prop) (c : χ) (stock : σ → ℕ)
    (owes : κ → Bool) : Prop where
  idle : ∀ k, owes k = true → P.waitsOn k = none
  doze : ∀ k x, P.waitsOn k = some c → P.guard k x = false → stock x = 0
  booked : ∀ x ks (i : ℕ) k, I x ks → ks[i]? = some k → P.Ready k x →
    (P.body k x).signal = .all c ∨ stock (P.body k x).shared = 0 ∨
    stock (P.body k x).shared + P.cover c owes k
      ≤ stock x + P.cover c owes (P.body k x).place
        + if (P.body k x).signal = .one c then 1 else 0

section Supplies

variable {I : σ → List κ → Prop} {stock : σ → ℕ} {owes : κ → Bool}

/-- The stock is covered as long as somebody sleeps on `c`. -/
def Covered (P : Program σ κ χ) (c : χ) (stock : σ → ℕ) (owes : κ → Bool) (s : State σ κ) : Prop :=
  Supplied (P.sleepsOn c) (P.called c) (owing owes) (stock s.shared) s.threads

theorem share_awake (k : κ) : share (P.called c) (owing owes) ⟨k, false⟩ = P.cover c owes k := by
  unfold share called owing cover
  simp

theorem share_asleep (k : κ) : share (P.called c) (owing owes) ⟨k, true⟩ = 0 := rfl

omit [DecidableEq χ] in
theorem owes_eq_false (hidle : ∀ k, owes k = true → P.waitsOn k = none) {k : κ} {c' : χ}
    (hwaits : P.waitsOn k = some c') : owes k = false := by
  by_contra htrue
  exact absurd ((hidle k (Bool.eq_true_of_not_eq_false htrue)).symm.trans hwaits) (by simp)

theorem share_rouse_other (hidle : ∀ k, owes k = true → P.waitsOn k = none) {c' : χ} (hne : c' ≠ c)
    {t : Thread κ} (ht : P.sleepsOn c' t = true) :
    P.called c t.rouse = P.called c t ∧ owing owes t.rouse = owing owes t := by
  obtain ⟨k, asleep⟩ := t
  obtain ⟨rfl, hwaits⟩ : asleep = true ∧ P.waitsOn k = some c' := by
    simpa [sleepsOn] using ht
  have howes := owes_eq_false hidle hwaits
  simp [called, owing, Thread.rouse, howes, hwaits, hne]

/-- A call for another condition variable leaves the stock covered. -/
theorem supplied_deliver_other (hidle : ∀ k, owes k = true → P.waitsOn k = none) {n : ℕ}
    {signal : Signal χ} (hone : signal ≠ .one c) (hall : signal ≠ .all c)
    (h : Supplied (P.sleepsOn c) (P.called c) (owing owes) n ts)
    (hts : P.deliver ts j signal = some ts') :
    Supplied (P.sleepsOn c) (P.called c) (owing owes) n ts' := by
  rintro ⟨t, ht, hsleeps⟩
  have hcovered := h ⟨t, asleep_of_deliver hts ht (Bool.and_eq_true_iff.mp hsleeps).1, hsleeps⟩
  cases signal with
  | silent =>
    obtain rfl := Option.some.inj hts
    exact hcovered
  | one c' =>
    have hne : c' ≠ c := fun heq => hone (by rw [heq])
    rw [countP_notifyOne (fun t ht => (share_rouse_other hidle hne ht).1) hts,
      countP_notifyOne (fun t ht => (share_rouse_other hidle hne ht).2) hts]
    exact hcovered
  | all c' =>
    have hne : c' ≠ c := fun heq => hall (by rw [heq])
    obtain rfl := Option.some.inj hts
    rw [countP_notifyAll (fun t ht => (share_rouse_other hidle hne ht).1),
      countP_notifyAll (fun t ht => (share_rouse_other hidle hne ht).2)]
    exact hcovered

theorem share_rouse (hidle : ∀ k, owes k = true → P.waitsOn k = none) {t : Thread κ}
    (ht : P.sleepsOn c t = true) :
    share (P.called c) (owing owes) t.rouse = share (P.called c) (owing owes) t + 1 := by
  obtain ⟨k, asleep⟩ := t
  obtain ⟨rfl, hwaits⟩ : asleep = true ∧ P.waitsOn k = some c := by
    simpa [sleepsOn] using ht
  have howes := owes_eq_false hidle hwaits
  rw [show Thread.rouse ⟨k, true⟩ = ⟨k, false⟩ from rfl, share_awake, share_asleep]
  simp [cover, howes, hwaits]

/-- Every move keeps the stock covered. -/
theorem Supplies.step (hP : P.Supplies I c stock owes) (hI : I s.shared s.places)
    (h : P.Covered c stock owes s) (hs : P.Step s s' a) : P.Covered c stock owes s' := by
  cases hs with
  | @act i j k ts hi hk hts hs =>
    subst hs
    have hplace : s.places[i]? = some k := by rw [State.places, List.getElem?_map, hi]; rfl
    have hset := cover_set (P.called c) (owing owes) hi ⟨(P.body k s.shared).place, false⟩
    rw [share_awake, share_awake] at hset
    -- before the call, the books are short of the unit that it announces
    have hbefore (hbook : stock (P.body k s.shared).shared + P.cover c owes k
        ≤ stock s.shared + P.cover c owes (P.body k s.shared).place
          + if (P.body k s.shared).signal = .one c then 1 else 0) :
        (∃ t ∈ s.threads.set i { place := (P.body k s.shared).place }, P.sleepsOn c t = true) →
        stock (P.body k s.shared).shared
          ≤ (s.threads.set i { place := (P.body k s.shared).place }).countP (P.called c)
            + (s.threads.set i { place := (P.body k s.shared).place }).countP (owing owes)
            + if (P.body k s.shared).signal = .one c then 1 else 0 := by
      rintro ⟨t, ht, hsleeps⟩
      have hmem : t ∈ s.threads := by
        refine mem_of_mem_set ht ?_
        rintro rfl
        exact Bool.noConfusion hsleeps
      have hcovered := h ⟨t, hmem, hsleeps⟩
      omega
    by_cases hall : (P.body k s.shared).signal = .all c
    · rw [hall] at hts
      rintro ⟨t, ht, hsleeps⟩
      exact absurd ((sleepsOn_deliver_all hts ht).symm.trans hsleeps) Bool.false_ne_true
    · rcases (hP.booked _ _ _ _ hI hplace hk).resolve_left hall with hzero | hbook
      · exact Supplied.of_eq_zero hzero
      · have hbooked := hbefore hbook
        by_cases hone : (P.body k s.shared).signal = .one c
        · rw [if_pos hone] at hbooked
          rw [hone] at hts
          exact Supplied.notifyOne hbooked (fun t ht => share_rouse hP.idle ht) hts
        · rw [if_neg hone] at hbooked
          exact supplied_deliver_other hP.idle hone hall hbooked hts
  | @doze i j k c' hi hfinished hc hk hs =>
    subst hs
    by_cases hcc : c' = c
    · subst hcc
      exact Supplied.of_eq_zero (hP.doze k _ hc hk)
    · have howes := owes_eq_false hP.idle hc
      apply Supplied.set h hi
      · simp [sleepsOn, hc, hcc]
      · rw [share_awake, share_asleep]
        simp [cover, howes, hc, hcc]
  | wake hi hs =>
    subst hs
    apply Supplied.set h hi
    · rfl
    · rw [share_asleep, Nat.add_zero]
      exact Nat.le_add_right _ _

/-- **Units that are announced one by one**, in every run. -/
theorem Supplies.run (hP : P.Supplies I c stock owes) (hI : P.Keeps I) {x : σ} {ks : List κ}
    (h0 : I x ks) (hrun : TransitionSystem.run P.step (start x ks) as = some s) :
    P.Covered c stock owes s := by
  refine (hI.run_and (fun _ _ _ => hP.step) h0 ?_ hrun).2
  rintro ⟨t, ht, hsleeps⟩
  have hasleep := (Bool.and_eq_true_iff.mp hsleeps).1
  exact absurd ((asleep_start ht).symm.trans hasleep) Bool.false_ne_true

/-- If somebody sleeps on `c` while there is stock, a thread acts: one that waits on `c` and is
awake, or one that owes a call. -/
theorem Covered.exists_acts (h : P.Covered c stock owes s) {t : Thread κ} (ht : t ∈ s.threads)
    (hsleeps : P.sleepsOn c t = true) (hpos : 0 < stock s.shared)
    (hwaits : ∀ k, P.waitsOn k = some c → P.Ready k s.shared)
    (howes : ∀ k, owes k = true → P.Ready k s.shared) : ∃ i, P.acts s i = true := by
  have hcovered := h ⟨t, ht, hsleeps⟩
  by_cases hcalled : 0 < s.threads.countP (P.called c)
  · obtain ⟨⟨k, asleep⟩, hk, hkcalled⟩ := List.countP_pos_iff.mp hcalled
    obtain ⟨rfl, hkwaits⟩ : asleep = false ∧ P.waitsOn k = some c := by
      simpa [called] using hkcalled
    exact exists_acts_of_mem hk (hwaits k hkwaits)
  · have howing : 0 < s.threads.countP (owing owes) := by omega
    obtain ⟨⟨k, asleep⟩, hk, hkowing⟩ := List.countP_pos_iff.mp howing
    obtain ⟨rfl, hkowes⟩ : asleep = false ∧ owes k = true := by
      simpa [owing] using hkowing
    exact exists_acts_of_mem hk (howes k hkowes)

end Supplies

end Moves

end Program

end MonitorPrograms
