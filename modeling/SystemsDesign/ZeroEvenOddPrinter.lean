/-
# Printing 0 1 0 2 0 3 in turns

Model of `concurrency/print_zero_even_zero_odd_sequence.cpp`.  Three threads run the same loop, each
with its own condition, number and updates (`zero`, `even`, `odd`): they look at `count` outside of
the mutex, wait on one condition variable for their turn, print, update the two shared fields and
notify all.

Every access to the shared fields is a step of its own, in any interleaving; waking up without a
notification is a step as well.  What has been printed can be read off from the two fields and from
how far the thread in the critical section has come (`printed`), and a thread that sleeps although
it could go on is still going to be notified by that thread (`Inv.asleep`).

Result: the output is always a prefix of `0 1 0 2 ... 0 n`, whole when a thread returns, and the
threads never all sleep.
-/
import SystemsDesign.TransitionSystem

namespace ZeroEvenOddPrinters

open TransitionSystem

/-! ## The three loops -/

/-- What the three member functions differ in: the second half of the condition they wait for, the
number they print, the value they give to `printZero`, and whether they count. -/
structure Loop where
  turn : (printZero : Bool) → (count : ℕ) → Bool
  number : (count : ℕ) → ℕ
  printZero : Bool
  counts : Bool

/-- `zero`. -/
def zero : Loop where
  turn printZero _ := printZero == true
  number _ := 0
  printZero := false
  counts := false

/-- `even`. -/
def even : Loop where
  turn printZero count := printZero == false && count % 2 == 0
  number count := count
  printZero := true
  counts := true

/-- `odd`. -/
def odd : Loop where
  turn printZero count := printZero == false && count % 2 == 1
  number count := count
  printZero := true
  counts := true

/-- The threads `t1`, `t2` and `t3`. -/
inductive Thread where
  | t1
  | t2
  | t3
  deriving DecidableEq

/-- What a thread runs. -/
def Thread.loop : Thread → Loop
  | t1 => zero
  | t2 => even
  | t3 => odd

/-- Where a thread is in its loop. -/
inductive Phase where
  /-- before it reads `count <= max`, without the mutex -/
  | atGuard
  /-- before it takes the mutex -/
  | locking
  /-- in `wait`, with the mutex, before it evaluates the condition -/
  | checking
  /-- asleep in `wait` -/
  | asleep
  /-- woken up in `wait`, before it takes the mutex again -/
  | woken
  /-- before `if (count > max)` -/
  | testing
  | printing
  /-- before it sets `printZero` -/
  | setting
  /-- before `count++` -/
  | counting
  | notifying
  /-- before the end of the scope of `lock` -/
  | unlocking
  | returned
  deriving DecidableEq

/-- The data members of the printer, who holds the mutex, the threads, and what has been printed. -/
structure State where
  count : ℕ
  max : ℕ
  printZero : Bool
  owner : Option Thread
  phase : Thread → Phase
  output : List ℕ

/-- The constructor, and the three threads. -/
def start (n : ℕ) : State where
  count := 1
  max := n
  printZero := true
  owner := none
  phase := fun _ => .atGuard
  output := []

namespace State

/-- Thread `t` goes on to `p`. -/
def goto (s : State) (t : Thread) (p : Phase) : State :=
  { s with phase := Function.update s.phase t p }

/-- It is the turn of thread `t`. -/
def turn (s : State) (t : Thread) : Bool := t.loop.turn s.printZero s.count

/-- The condition that thread `t` waits for. -/
def ready (s : State) (t : Thread) : Bool := s.count > s.max || s.turn t

/-- `cv.notify_all()`. -/
def notifyAll (s : State) : State :=
  { s with phase := fun t => if s.phase t = .asleep then .woken else s.phase t }

/-- The next step of thread `t`. -/
def move (s : State) (t : Thread) : Option State :=
  match s.phase t with
  | .atGuard => some (s.goto t (if s.count ≤ s.max then .locking else .returned))
  | .locking | .woken =>
    if s.owner = none then some { s.goto t .checking with owner := some t } else none
  | .checking =>
    if s.ready t then some (s.goto t .testing)
    else some { s.goto t .asleep with owner := none }
  | .asleep => none
  | .testing =>
    if s.count > s.max then some { s.goto t .returned with owner := none }
    else some (s.goto t .printing)
  | .printing => some { s.goto t .setting with output := s.output ++ [t.loop.number s.count] }
  | .setting =>
    some { s.goto t (if t.loop.counts then .counting else .notifying) with
      printZero := t.loop.printZero }
  | .counting => some { s.goto t .notifying with count := s.count + 1 }
  | .notifying => some (s.notifyAll.goto t .unlocking)
  | .unlocking => some { s.goto t .atGuard with owner := none }
  | .returned => none

/-- Thread `t` wakes up although nobody has notified it. -/
def wake (s : State) (t : Thread) : Option State :=
  if s.phase t = .asleep then some (s.goto t .woken) else none

end State

/-- Who moves. -/
inductive Act where
  | move (t : Thread)
  | wake (t : Thread)
  deriving DecidableEq

/-- One step. -/
def step (s : State) : Act → Option State
  | .move t => s.move t
  | .wake t => s.wake t

/-! ## What a step can be -/

/-- The thread has the mutex in this phase. -/
def Phase.holds : Phase → Bool
  | .checking | .testing | .printing | .setting | .counting | .notifying | .unlocking => true
  | _ => false

/-- How much has been printed in this phase beyond what the fields say. -/
def Phase.ahead : Phase → ℕ
  | .setting => 1
  | .counting => 2
  | _ => 0

/-- The thread has changed the fields and not yet notified the others. -/
def Phase.owes : Phase → Bool
  | .counting | .notifying => true
  | _ => false

/-- The phases in which the thread in the critical section has changed nothing, or has settled
everything. -/
def Phase.quiet (p : Phase) : Prop := p.holds = true ∧ p.ahead = 0 ∧ p.owes = false

/-- What a step can be. -/
inductive Step (s s' : State) : Prop where
  /-- outside of the critical section -/
  | outside {t : Thread} {p : Phase} (hp : (s.phase t).holds = false) (hq : p.holds = false)
      (hasleep : p ≠ .asleep) (hreturned : p = .returned → s.max < s.count)
      (hs : s' = s.goto t p)
  /-- the mutex is taken -/
  | acquire {t : Thread} (hfree : s.owner = none)
      (hs : s' = { s.goto t .checking with owner := some t })
  /-- a look at the fields -/
  | look {t : Thread} {p : Phase} (hp : (s.phase t).quiet) (hq : p.quiet)
      (htesting : p = .testing → s.ready t = true)
      (hprinting : p = .printing → s.phase t = .testing ∧ s.count ≤ s.max) (hs : s' = s.goto t p)
  /-- the mutex is given back -/
  | release {t : Thread} {p : Phase} (hp : (s.phase t).quiet) (hq : p.holds = false)
      (hasleep : p = .asleep → s.ready t = false) (hreturned : p = .returned → s.max < s.count)
      (hs : s' = { s.goto t p with owner := none })
  | print {t : Thread} (hp : s.phase t = .printing)
      (hs : s' = { s.goto t .setting with output := s.output ++ [t.loop.number s.count] })
  | set {t : Thread} (hp : s.phase t = .setting)
      (hs : s' = { s.goto t (if t.loop.counts then .counting else .notifying) with
        printZero := t.loop.printZero })
  | count {t : Thread} (hp : s.phase t = .counting)
      (hs : s' = { s.goto t .notifying with count := s.count + 1 })
  | notify {t : Thread} (hp : s.phase t = .notifying) (hs : s' = s.notifyAll.goto t .unlocking)

/-- Every enabled step is one of these. -/
theorem step_spec {s s' : State} {a : Act} (h : step s a = some s') : Step s s' := by
  cases a with
  | wake t =>
    simp only [step, State.wake] at h
    split_ifs at h with hp
    exact .outside (by rw [hp]; rfl) rfl (by simp) (by simp) (Option.some.inj h).symm
  | move t =>
    simp only [step, State.move] at h
    split at h
    next hp =>
      refine .outside (by rw [hp]; rfl) ?_ ?_ ?_ (Option.some.inj h).symm
      · split_ifs <;> rfl
      · split_ifs <;> simp
      · split_ifs with hcount
        · simp
        · exact fun _ => not_le.mp hcount
    next hp =>
      split_ifs at h with hfree
      exact .acquire hfree (Option.some.inj h).symm
    next hp =>
      split_ifs at h with hfree
      exact .acquire hfree (Option.some.inj h).symm
    next hp =>
      have hquiet : (s.phase t).quiet := by rw [hp]; exact ⟨rfl, rfl, rfl⟩
      split_ifs at h with hready
      · exact .look hquiet ⟨rfl, rfl, rfl⟩ (fun _ => hready) (by simp) (Option.some.inj h).symm
      · exact .release hquiet rfl (fun _ => Bool.eq_false_of_not_eq_true hready) (by simp)
          (Option.some.inj h).symm
    next => cases h
    next hp =>
      have hquiet : (s.phase t).quiet := by rw [hp]; exact ⟨rfl, rfl, rfl⟩
      split_ifs at h with hcount
      · exact .release hquiet rfl (by simp) (fun _ => hcount) (Option.some.inj h).symm
      · exact .look hquiet ⟨rfl, rfl, rfl⟩ (by simp) (fun _ => ⟨hp, not_lt.mp hcount⟩)
          (Option.some.inj h).symm
    next hp => exact .print hp (Option.some.inj h).symm
    next hp => exact .set hp (Option.some.inj h).symm
    next hp => exact .count hp (Option.some.inj h).symm
    next hp => exact .notify hp (Option.some.inj h).symm
    next hp =>
      have hquiet : (s.phase t).quiet := by rw [hp]; exact ⟨rfl, rfl, rfl⟩
      exact .release hquiet rfl (by simp) (by simp) (Option.some.inj h).symm
    next => cases h

/-! ## The sequence -/

/-- The sequence `0 1 0 2 ... 0 n`. -/
def zeroOneZeroTwo (n : ℕ) : List ℕ := (List.range n).flatMap fun i => [0, i + 1]

/-- The number at a place of the sequence. -/
def item (k : ℕ) : ℕ := if k % 2 = 0 then 0 else (k + 1) / 2

/-- The first `k` numbers of the sequence. -/
def items (k : ℕ) : List ℕ := (List.range k).map item

theorem items_succ (k : ℕ) : items (k + 1) = items k ++ [item k] := by
  unfold items
  rw [List.range_succ, List.map_append, List.map_singleton]

/-- The whole sequence has two numbers for each number up to `n`. -/
theorem items_eq (n : ℕ) : items (2 * n) = zeroOneZeroTwo n := by
  induction n with
  | zero => rfl
  | succ n ih =>
    have heven : item (2 * n) = 0 := by simp [item]
    have hodd : item (2 * n + 1) = n + 1 := by
      have hmod : (2 * n + 1) % 2 ≠ 0 := by omega
      rw [item, if_neg hmod]
      omega
    rw [Nat.mul_succ, items_succ, items_succ, ih, heven, hodd]
    unfold zeroOneZeroTwo
    rw [List.range_succ, List.flatMap_append, List.flatMap_singleton, List.append_assoc]
    rfl

theorem items_le {j k : ℕ} (h : j ≤ k) : items j <+: items k := by
  unfold items
  obtain ⟨d, rfl⟩ := Nat.exists_eq_add_of_le h
  rw [List.range_add, List.map_append]
  exact List.prefix_append _ _

/-! ## The invariant -/

/-- How far the thread in the critical section is ahead of the fields. -/
def State.ahead (s : State) : ℕ :=
  match s.owner with
  | none => 0
  | some t => (s.phase t).ahead

/-- How many numbers have been printed. -/
def State.printed (s : State) : ℕ :=
  2 * (s.count - 1) + (if s.printZero then 0 else 1) + s.ahead

/-- What the thread in the critical section knows in a phase. -/
def State.Knows (s : State) (t : Thread) : Phase → Prop
  | .testing => s.ready t = true
  | .printing | .setting => s.count ≤ s.max ∧ s.turn t = true
  | .counting => s.count ≤ s.max ∧ s.printZero = true
  | _ => True

/-- What holds in every run for `n`. -/
structure Inv (n : ℕ) (s : State) : Prop where
  max : s.max = n
  lock : ∀ t, (s.phase t).holds = true ↔ s.owner = some t
  one_le : 1 ≤ s.count
  count_le : s.count ≤ n + 1
  last : n < s.count → s.printZero = true
  inside : ∀ t, s.owner = some t → s.Knows t (s.phase t)
  asleep : ∀ t, s.phase t = .asleep → s.ready t = true →
    ∃ o, s.owner = some o ∧ (s.phase o).owes = true
  returned : ∀ t, s.phase t = .returned → n < s.count
  output : s.output = items s.printed

variable {n : ℕ} {s s' : State} {t o : Thread} {p : Phase}

/-! ### Phases -/

@[simp] theorem phase_goto_self (s : State) (t : Thread) (p : Phase) :
    (s.goto t p).phase t = p := by
  rw [State.goto]
  exact Function.update_self t p s.phase

theorem phase_goto_of_ne (h : o ≠ t) (p : Phase) : (s.goto t p).phase o = s.phase o := by
  rw [State.goto]
  exact Function.update_of_ne h p s.phase

theorem knows_congr (h : s.Knows t p) (hcount : s'.count = s.count) (hmax : s'.max = s.max)
    (hflag : s'.printZero = s.printZero) : s'.Knows t p := by
  cases p <;> simp_all [State.Knows, State.ready, State.turn]

theorem ahead_of_owner (h : s.owner = some t) : s.ahead = (s.phase t).ahead := by
  rw [State.ahead, h]

theorem ahead_goto (h : s.owner = some t) (p : Phase) : (s.goto t p).ahead = p.ahead := by
  have howner : (s.goto t p).owner = some t := h
  rw [ahead_of_owner howner, phase_goto_self]

theorem ahead_of_free (h : s.owner = none) : s.ahead = 0 := by
  rw [State.ahead, h]

/-- The thread in the critical section, and nobody else, has the mutex. -/
theorem Inv.owner_eq (h : Inv n s) (hp : (s.phase t).holds = true) : s.owner = some t :=
  (h.lock t).mp hp

theorem Inv.knows (h : Inv n s) (hp : s.phase t = p) (hholds : p.holds = true) : s.Knows t p := by
  have hinside := h.inside t (h.owner_eq (hp ▸ hholds))
  rwa [hp] at hinside

/-- As long as nobody owes a notification, those who sleep cannot go on. -/
theorem Inv.not_ready (h : Inv n s) (hquiet : ∀ t, s.owner = some t → (s.phase t).owes = false)
    (ho : s.phase o = .asleep) : s.ready o = false := by
  by_contra hready
  obtain ⟨t, ht, howes⟩ := h.asleep o ho (Bool.eq_true_of_not_eq_false hready)
  exact absurd ((hquiet t ht).symm.trans howes) (by decide)

theorem owes_of_quiet (hp : (s.phase t).quiet) (ht : s.owner = some t) :
    ∀ o, s.owner = some o → (s.phase o).owes = false := by
  intro o ho
  obtain rfl : t = o := Option.some.inj (ht.symm.trans ho)
  exact hp.2.2

/-! ### One step -/

theorem inv_start (n : ℕ) : Inv n (start n) where
  max := rfl
  lock := by simp [start, Phase.holds]
  one_le := le_rfl
  count_le := Nat.le_add_left 1 n
  last := fun _ => rfl
  inside := by simp [start]
  asleep := by simp [start]
  returned := by simp [start]
  output := by simp [start, State.printed, State.ahead, items]

/-- **Thread `t` goes on and the fields stay as they are.**  What has to be checked is the mutex,
what `t` knows when it has it, and what is true of `t` when it sleeps or has returned. -/
theorem Inv.goto (h : Inv n s) {w : Option Thread} (hlock : p.holds = true ↔ w = some t)
    (hothers : ∀ o ≠ t, s.owner = some o ↔ w = some o) (hknows : w = some t → s.Knows t p)
    (hahead : ({ s.goto t p with owner := w } : State).ahead = s.ahead)
    (hasleep : ∀ o, (s.goto t p).phase o = .asleep → s.ready o = true →
      ∃ o', w = some o' ∧ ((s.goto t p).phase o').owes = true)
    (hreturned : p = .returned → s.max < s.count) :
    Inv n { s.goto t p with owner := w } where
  max := h.max
  lock := by
    intro o
    by_cases ho : o = t
    · subst ho
      rw [← hlock, phase_goto_self]
    · show ((s.goto t p).phase o).holds = true ↔ _
      rw [phase_goto_of_ne ho, h.lock o, hothers o ho]
  one_le := h.one_le
  count_le := h.count_le
  last := h.last
  inside := by
    intro o ho
    by_cases hot : o = t
    · subst hot
      show State.Knows _ o ((s.goto o p).phase o)
      rw [phase_goto_self]
      exact knows_congr (hknows ho) rfl rfl rfl
    · show State.Knows _ o ((s.goto t p).phase o)
      rw [phase_goto_of_ne hot]
      exact knows_congr (h.inside o ((hothers o hot).mpr ho)) rfl rfl rfl
  asleep := hasleep
  returned := by
    intro o ho
    have ho : (s.goto t p).phase o = .returned := ho
    by_cases hot : o = t
    · subst hot
      rw [phase_goto_self] at ho
      exact h.max ▸ hreturned ho
    · rw [phase_goto_of_ne hot] at ho
      exact h.returned o ho
  output := by
    show s.output = items (2 * (s.count - 1) + (if s.printZero then 0 else 1) + _)
    rw [hahead]
    exact h.output

/-- Outside of the critical section. -/
theorem Inv.step_outside (h : Inv n s) (hp : (s.phase t).holds = false) (hq : p.holds = false)
    (hasleep : p ≠ .asleep) (hreturned : p = .returned → s.max < s.count) :
    Inv n (s.goto t p) := by
  have howner : s.owner ≠ some t := by
    intro ht
    exact absurd (hp.symm.trans ((h.lock t).mpr ht)) (by decide)
  have hphase : ∀ o, s.owner = some o → (s.goto t p).phase o = s.phase o := by
    intro o ho
    have hne : o ≠ t := by
      rintro rfl
      exact howner ho
    exact phase_goto_of_ne hne p
  refine h.goto (w := s.owner) ?_ (fun o _ => Iff.rfl) (fun ht => absurd ht howner) ?_ ?_ hreturned
  · rw [hq]
    exact iff_of_false (by decide) howner
  · cases ho : s.owner with
    | none => rw [ahead_of_free ho, ahead_of_free rfl]
    | some o =>
      rw [ahead_of_owner ho, ← hphase o ho]
      exact ahead_of_owner rfl
  · intro o ho hready
    by_cases hot : o = t
    · subst hot
      rw [phase_goto_self] at ho
      exact absurd ho hasleep
    · rw [phase_goto_of_ne hot] at ho
      obtain ⟨o', ho', howes⟩ := h.asleep o ho hready
      exact ⟨o', ho', by rw [hphase o' ho']; exact howes⟩

theorem Inv.step_acquire (h : Inv n s) (hfree : s.owner = none) :
    Inv n { s.goto t .checking with owner := some t } := by
  refine h.goto (iff_of_true rfl rfl) ?_ (fun _ => trivial) ?_ ?_ (by simp)
  · intro o ho
    rw [hfree]
    exact iff_of_false (by simp) fun hot => ho (Option.some.inj hot).symm
  · rw [ahead_of_free hfree, ahead_of_owner rfl]
    show ((s.goto t .checking).phase t).ahead = 0
    rw [phase_goto_self]
    rfl
  · intro o ho hready
    by_cases hot : o = t
    · subst hot
      rw [phase_goto_self] at ho
      cases ho
    · rw [phase_goto_of_ne hot] at ho
      have hnot := h.not_ready (fun t' ht' => absurd (hfree.symm.trans ht') (by simp)) ho
      exact absurd (hnot.symm.trans hready) (by decide)

theorem Inv.step_look (h : Inv n s) (hp : (s.phase t).quiet) (hq : p.quiet)
    (htesting : p = .testing → s.ready t = true)
    (hprinting : p = .printing → s.phase t = .testing ∧ s.count ≤ s.max) :
    Inv n (s.goto t p) := by
  have ht : s.owner = some t := h.owner_eq hp.1
  have hgoto : Inv n { s.goto t p with owner := some t } := by
    refine h.goto (iff_of_true hq.1 rfl) (fun o _ => by rw [ht]) (fun _ => ?_) ?_ ?_ ?_
    · cases p with
      | testing => exact htesting rfl
      | printing =>
        -- the condition holds, and not because everything has been printed
        obtain ⟨hphase, hcount⟩ := hprinting rfl
        have hready : s.ready t = true := h.knows hphase rfl
        refine ⟨hcount, ?_⟩
        simpa [State.ready, not_lt.mpr hcount] using hready
      | setting => exact absurd hq.2.1 (by decide)
      | counting => exact absurd hq.2.1 (by decide)
      | _ => exact trivial
    · rw [ahead_of_owner ht, hp.2.1, ahead_of_owner rfl]
      show ((s.goto t p).phase t).ahead = 0
      rw [phase_goto_self]
      exact hq.2.1
    · intro o ho hready
      by_cases hot : o = t
      · subst hot
        rw [phase_goto_self] at ho
        subst ho
        exact absurd hq.1 (by decide)
      · rw [phase_goto_of_ne hot] at ho
        have hnot := h.not_ready (owes_of_quiet hp ht) ho
        exact absurd (hnot.symm.trans hready) (by decide)
    · rintro rfl
      exact absurd hq.1 (by decide)
  rwa [← ht] at hgoto

/-- The mutex is given back. -/
theorem Inv.step_release (h : Inv n s) (hp : (s.phase t).quiet) (hq : p.holds = false)
    (hasleep : p = .asleep → s.ready t = false) (hreturned : p = .returned → s.max < s.count) :
    Inv n { s.goto t p with owner := none } := by
  have ht : s.owner = some t := h.owner_eq hp.1
  refine h.goto ?_ ?_ (by simp) ?_ ?_ hreturned
  · rw [hq]
    exact iff_of_false (by decide) (by simp)
  · intro o ho
    rw [ht]
    exact iff_of_false (fun hot => ho (Option.some.inj hot).symm) (by simp)
  · rw [ahead_of_owner ht, hp.2.1, ahead_of_free rfl]
  · intro o ho hready
    by_cases hot : o = t
    · subst hot
      rw [phase_goto_self] at ho
      exact absurd ((hasleep ho).symm.trans hready) (by decide)
    · rw [phase_goto_of_ne hot] at ho
      have hnot := h.not_ready (owes_of_quiet hp ht) ho
      exact absurd (hnot.symm.trans hready) (by decide)

/-- **Thread `t` goes on in the critical section and writes.**  It has to owe a notification then,
unless it has only printed. -/
theorem Inv.write (h : Inv n s) (hp : (s.phase t).holds = true) (hq : p.holds = true)
    {count : ℕ} {flag : Bool} {out : List ℕ} (hcount : s.count ≤ count) (hle : count ≤ n + 1)
    (hlast : n < count → flag = true)
    (hknows : State.Knows { s with count := count, printZero := flag } t p)
    (howes : p.owes = true ∨
      (s.phase t).owes = false ∧ count = s.count ∧ flag = s.printZero)
    (hout : out = items (2 * (count - 1) + (if flag then 0 else 1) + p.ahead)) :
    Inv n { s.goto t p with count := count, printZero := flag, output := out } where
  max := h.max
  lock := by
    intro o
    show ((s.goto t p).phase o).holds = true ↔ s.owner = some o
    by_cases ho : o = t
    · subst ho
      rw [phase_goto_self]
      exact iff_of_true hq (h.owner_eq hp)
    · rw [phase_goto_of_ne ho]
      exact h.lock o
  one_le := h.one_le.trans hcount
  count_le := hle
  last := hlast
  inside := by
    intro o ho
    obtain rfl : t = o := Option.some.inj ((h.owner_eq hp).symm.trans ho)
    show State.Knows _ t ((s.goto t p).phase t)
    rw [phase_goto_self]
    exact knows_congr hknows rfl rfl rfl
  asleep := by
    intro o ho hready
    have ho : (s.goto t p).phase o = .asleep := ho
    rcases howes with howes | ⟨howes, rfl, rfl⟩
    · refine ⟨t, h.owner_eq hp, ?_⟩
      show ((s.goto t p).phase t).owes = true
      rwa [phase_goto_self]
    · by_cases hot : o = t
      · subst hot
        rw [phase_goto_self] at ho
        subst ho
        exact absurd hq (by decide)
      · rw [phase_goto_of_ne hot] at ho
        have hnot : s.ready o = false := by
          refine h.not_ready (fun t' ht' => ?_) ho
          obtain rfl : t = t' := Option.some.inj ((h.owner_eq hp).symm.trans ht')
          exact howes
        exact absurd (hnot.symm.trans hready) (by decide)
  returned := by
    intro o ho
    have ho : (s.goto t p).phase o = .returned := ho
    by_cases hot : o = t
    · subst hot
      rw [phase_goto_self] at ho
      subst ho
      exact absurd hq (by decide)
    · rw [phase_goto_of_ne hot] at ho
      exact (h.returned o ho).trans_le hcount
  output := by
    show out = items (2 * (count - 1) + (if flag then 0 else 1) + (s.goto t p).ahead)
    rw [ahead_goto (h.owner_eq hp)]
    exact hout

/-- The number that a thread prints in its turn is the next one. -/
theorem number_eq_item (h1 : 1 ≤ s.count) (hturn : s.turn t = true) :
    t.loop.number s.count = item (2 * (s.count - 1) + if s.printZero then 0 else 1) := by
  cases t with
  | t1 =>
    have hflag : s.printZero = true := by simpa [State.turn, Thread.loop, zero] using hturn
    simp [hflag, item, Thread.loop, zero]
  | t2 =>
    obtain ⟨hflag, -⟩ : s.printZero = false ∧ s.count % 2 = 0 := by
      simpa [State.turn, Thread.loop, even] using hturn
    simp only [hflag, item, Thread.loop, even, Bool.false_eq_true, if_false]
    rw [if_neg (by omega)]
    omega
  | t3 =>
    obtain ⟨hflag, -⟩ : s.printZero = false ∧ s.count % 2 = 1 := by
      simpa [State.turn, Thread.loop, odd] using hturn
    simp only [hflag, item, Thread.loop, odd, Bool.false_eq_true, if_false]
    rw [if_neg (by omega)]
    omega

theorem Inv.step_print (h : Inv n s) (hp : s.phase t = .printing) :
    Inv n { s.goto t .setting with output := s.output ++ [t.loop.number s.count] } := by
  have hholds : (s.phase t).holds = true := by rw [hp]; rfl
  have hknows : s.count ≤ s.max ∧ s.turn t = true := h.knows hp rfl
  refine h.write hholds rfl le_rfl h.count_le h.last hknows (.inr ⟨by rw [hp]; rfl, rfl, rfl⟩) ?_
  have hprinted : s.printed = 2 * (s.count - 1) + if s.printZero then 0 else 1 := by
    rw [State.printed, ahead_of_owner (h.owner_eq hholds), hp]
    rfl
  show s.output ++ [t.loop.number s.count]
    = items (2 * (s.count - 1) + (if s.printZero then 0 else 1) + 1)
  rw [h.output, number_eq_item h.one_le hknows.2, ← hprinted, ← items_succ]

/-- `printZero` is set. -/
theorem Inv.step_set (h : Inv n s) (hp : s.phase t = .setting) :
    Inv n { s.goto t (if t.loop.counts then .counting else .notifying) with
      printZero := t.loop.printZero } := by
  have hholds : (s.phase t).holds = true := by rw [hp]; rfl
  have hknows : s.count ≤ s.max ∧ s.turn t = true := h.knows hp rfl
  have hcount : s.count ≤ n := h.max ▸ hknows.1
  have hout := h.output
  rw [State.printed, ahead_of_owner (h.owner_eq hholds), hp] at hout
  have hlast : ∀ flag : Bool, n < s.count → flag = true := fun _ hlt => absurd hcount (by omega)
  cases t with
  | t1 =>
    have hflag : s.printZero = true := by simpa [State.turn, Thread.loop, zero] using hknows.2
    refine h.write hholds rfl le_rfl h.count_le (hlast _) trivial (.inl rfl) ?_
    show s.output = _
    rw [hout, hflag]
    rfl
  | t2 =>
    obtain ⟨hflag, -⟩ : s.printZero = false ∧ s.count % 2 = 0 := by
      simpa [State.turn, Thread.loop, even] using hknows.2
    refine h.write hholds rfl le_rfl h.count_le (hlast _) ⟨hknows.1, rfl⟩ (.inl rfl) ?_
    show s.output = _
    rw [hout, hflag]
    rfl
  | t3 =>
    obtain ⟨hflag, -⟩ : s.printZero = false ∧ s.count % 2 = 1 := by
      simpa [State.turn, Thread.loop, odd] using hknows.2
    refine h.write hholds rfl le_rfl h.count_le (hlast _) ⟨hknows.1, rfl⟩ (.inl rfl) ?_
    show s.output = _
    rw [hout, hflag]
    rfl

/-- `count++`. -/
theorem Inv.step_count (h : Inv n s) (hp : s.phase t = .counting) :
    Inv n { s.goto t .notifying with count := s.count + 1 } := by
  have hholds : (s.phase t).holds = true := by rw [hp]; rfl
  have hknows : s.count ≤ s.max ∧ s.printZero = true := h.knows hp rfl
  have hle : s.count + 1 ≤ n + 1 := Nat.succ_le_succ (h.max ▸ hknows.1)
  refine h.write hholds rfl (Nat.le_succ _) hle (fun _ => hknows.2) trivial (.inl rfl) ?_
  have hout := h.output
  have hone := h.one_le
  rw [State.printed, ahead_of_owner (h.owner_eq hholds), hp, hknows.2] at hout
  show s.output = items (2 * (s.count + 1 - 1) + (if s.printZero then 0 else 1) + 0)
  rw [hout, hknows.2]
  congr 1
  simp only [Phase.ahead, if_true]
  omega

theorem Inv.step_notify (h : Inv n s) (hp : s.phase t = .notifying) :
    Inv n (s.notifyAll.goto t .unlocking) := by
  have hholds : (s.phase t).holds = true := by rw [hp]; rfl
  have ht : s.owner = some t := h.owner_eq hholds
  -- the others are where they were, or woken up
  have hother : ∀ o, o ≠ t → (s.notifyAll.goto t .unlocking).phase o
      = if s.phase o = .asleep then .woken else s.phase o := by
    intro o ho
    exact phase_goto_of_ne ho _
  have hawake : ∀ o, (s.notifyAll.goto t .unlocking).phase o ≠ .asleep := by
    intro o
    by_cases ho : o = t
    · subst ho
      rw [phase_goto_self]
      simp
    · rw [hother o ho]
      split_ifs with hasleep
      · simp
      · exact hasleep
  refine ⟨h.max, ?_, h.one_le, h.count_le, h.last, ?_, ?_, ?_, ?_⟩
  · intro o
    by_cases ho : o = t
    · subst ho
      rw [phase_goto_self]
      exact iff_of_true rfl ht
    · show _ ↔ s.owner = some o
      rw [hother o ho, ← h.lock o]
      split_ifs with hasleep
      · rw [hasleep]
        rfl
      · rfl
  · intro o ho
    obtain rfl : t = o := Option.some.inj (ht.symm.trans ho)
    rw [phase_goto_self]
    trivial
  · intro o ho
    exact absurd ho (hawake o)
  · intro o ho
    by_cases hot : o = t
    · subst hot
      rw [phase_goto_self] at ho
      cases ho
    · rw [hother o hot] at ho
      split_ifs at ho
      exact h.returned o ho
  · have hahead : (s.notifyAll.goto t .unlocking).ahead = s.ahead := by
      have howner : s.notifyAll.owner = some t := ht
      rw [ahead_goto howner, ahead_of_owner ht, hp]
      rfl
    show s.output = items (2 * (s.count - 1) + (if s.printZero then 0 else 1) + _)
    rw [hahead]
    exact h.output

/-- **Every step keeps the invariant.** -/
theorem Inv.step (h : Inv n s) (hs : Step s s') : Inv n s' := by
  cases hs with
  | outside hp hq hasleep hreturned hs => exact hs ▸ h.step_outside hp hq hasleep hreturned
  | acquire hfree hs => exact hs ▸ h.step_acquire hfree
  | look hp hq htesting hprinting hs => exact hs ▸ h.step_look hp hq htesting hprinting
  | release hp hq hasleep hreturned hs => exact hs ▸ h.step_release hp hq hasleep hreturned
  | print hp hs => exact hs ▸ h.step_print hp
  | set hp hs => exact hs ▸ h.step_set hp
  | count hp hs => exact hs ▸ h.step_count hp
  | notify hp hs => exact hs ▸ h.step_notify hp

/-! ## The result -/

/-- No more than the sequence is printed. -/
theorem Inv.printed_le (h : Inv n s) : s.printed ≤ 2 * n := by
  have hone := h.one_le
  have hle := h.count_le
  have hlast := h.last
  unfold State.printed
  cases ht : s.owner with
  | none =>
    rw [ahead_of_free ht]
    split_ifs with hflag
    · omega
    · have : ¬ n < s.count := fun hlt => hflag (hlast hlt)
      omega
  | some t =>
    have hinside := h.inside t ht
    rw [ahead_of_owner ht]
    have hmax := h.max
    cases hp : s.phase t with
    | setting =>
      rw [hp] at hinside
      have hcount : s.count ≤ n := hmax ▸ hinside.1
      simp only [Phase.ahead]
      split_ifs <;> omega
    | counting =>
      rw [hp] at hinside
      have hcount : s.count ≤ n := hmax ▸ hinside.1
      rw [hinside.2]
      simp only [Phase.ahead, if_true]
      omega
    | _ =>
      simp only [Phase.ahead]
      split_ifs with hflag
      · omega
      · have : ¬ n < s.count := fun hlt => hflag (hlast hlt)
        omega

theorem Inv.printed_eq (h : Inv n s) (hlt : n < s.count) : s.printed = 2 * n := by
  have hle := h.printed_le
  have hone := h.one_le
  unfold State.printed at hle ⊢
  omega

/-- As long as `count` has not passed `n`, it is some thread's turn. -/
theorem exists_ready (s : State) : ∃ t, s.ready t = true := by
  cases hflag : s.printZero with
  | true => exact ⟨.t1, by simp [State.ready, State.turn, Thread.loop, zero, hflag]⟩
  | false =>
    rcases Nat.mod_two_eq_zero_or_one s.count with hmod | hmod
    · exact ⟨.t2, by simp [State.ready, State.turn, Thread.loop, even, hflag, hmod]⟩
    · exact ⟨.t3, by simp [State.ready, State.turn, Thread.loop, odd, hflag, hmod]⟩

/-- **Zero, even and odd in turns.**  In every interleaving of the three threads, with wake-ups at
any time: the output is a prefix of `0 1 0 2 ... 0 n`; when a thread has returned, it is the whole
sequence; and unless all threads have returned, one of them neither has nor sleeps in `wait`. -/
theorem zeroEvenOdd_spec (n : ℕ) (schedule : List Act) (s : State)
    (hrun : run step (start n) schedule = some s) :
    s.output <+: zeroOneZeroTwo n ∧
    (∀ t, s.phase t = .returned → s.output = zeroOneZeroTwo n) ∧
    ((∀ t, s.phase t = .returned) ∨ ∃ t, s.phase t ≠ .returned ∧ s.phase t ≠ .asleep) := by
  have h : Inv n s := run_invariant (fun _ _ _ hinv hs => hinv.step (step_spec hs))
    (inv_start n) hrun
  refine ⟨?_, fun t ht => ?_, ?_⟩
  · rw [h.output, ← items_eq]
    exact items_le h.printed_le
  · rw [h.output, h.printed_eq (h.returned t ht), items_eq]
  · by_contra hstuck
    push Not at hstuck
    obtain ⟨⟨t, ht⟩, hall⟩ := hstuck
    -- nobody is in the critical section, so those who sleep cannot go on
    have hnot : ∀ o, s.phase o = .asleep → s.ready o = false := by
      intro o ho
      refine h.not_ready (fun t' ht' => ?_) ho
      have hholds := (h.lock t').mpr ht'
      by_cases hret : s.phase t' = .returned
      · rw [hret]
        rfl
      · rw [hall t' hret]
        rfl
    -- and nobody has returned, so everybody sleeps
    have hcount : s.count ≤ s.max := by
      have hready := hnot t (hall t ht)
      simp only [State.ready, Bool.or_eq_false_iff, decide_eq_false_iff_not] at hready
      exact not_lt.mp hready.1
    have hasleep : ∀ o, s.phase o = .asleep := by
      intro o
      apply hall o
      intro hret
      have hlt := h.returned o hret
      rw [h.max] at hcount
      omega
    obtain ⟨o, ho⟩ := exists_ready s
    exact absurd ((hnot o (hasleep o)).symm.trans ho) (by decide)

theorem zeroEvenOdd_one :
    ∃ s, run step (start 1) [.move .t1, .move .t1, .move .t1, .move .t1, .move .t1] = some s ∧
      s.output <+: zeroOneZeroTwo 1 :=
  ⟨_, rfl, (zeroEvenOdd_spec 1 [.move .t1, .move .t1, .move .t1, .move .t1, .move .t1] _ rfl).1⟩

end ZeroEvenOddPrinters
