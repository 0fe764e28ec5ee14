/-
# The cyclic barrier

Model of `concurrency/CyclicBarrier_ThreadSafe.cpp`.  A thread that calls `await` counts itself
off; the one that brings `count` to zero runs the barrier action, resets `count`, starts the next
generation and wakes the others, which sleep until the generation has changed.

`await` is one critical section of `mtx`, cut where a thread sleeps in `wait`.  `generation` is an
`int` and wraps; the number of completed generations, which does not, is kept beside it, and a log
of arrivals, actions and returns.

Result: every generation gets as many arrivals as there are parties, then the action once, and
only then the calls that arrived in it return.
-/
import SystemsDesign.EventLog
import SystemsDesign.ThreadList
import SystemsDesign.TransitionSystem

namespace CyclicBarriers

open EventLog ThreadList TransitionSystem

/-! ## The barrier -/

/-- The data members of `CyclicBarrier`; of `barrierAction` it matters whether it is set. -/
structure CyclicBarrier where
  parties : ℤ
  count : ℤ
  generation : BitVec 32
  barrierAction : Bool
  deriving DecidableEq

/-- The constructor. -/
def CyclicBarrier.new (n : ℤ) (action : Bool) : CyclicBarrier where
  parties := n
  count := n
  generation := 0
  barrierAction := action

/-- Where a thread is: outside, before the critical section of `await`, or in its wait, asleep or
woken up.  Threads in the wait know `ongoing_generation`, and the log needs to know the number of
the generation that was. -/
inductive Phase where
  | outside
  | calling
  | asleep (ongoing : BitVec 32) (gen : ℕ)
  | woken (ongoing : BitVec 32) (gen : ℕ)
  deriving DecidableEq

/-- What happens at the barrier, with the thread and the number of the generation. -/
inductive Event where
  | arrived (i gen : ℕ)
  | action (gen : ℕ)
  | returned (i gen : ℕ)
  deriving DecidableEq

/-- The barrier, how many generations have been completed, the threads and the log. -/
structure State where
  barrier : CyclicBarrier
  completed : ℕ
  threads : List Phase
  log : List Event
  deriving DecidableEq

/-- A fresh barrier and `k` threads outside. -/
def start (n : ℤ) (action : Bool) (k : ℕ) : State where
  barrier := .new n action
  completed := 0
  threads := List.replicate k .outside
  log := []

/-- Asleep on `cv`. -/
def Phase.sleeps : Phase → Bool
  | .asleep _ _ => true
  | _ => false

/-- A sleeper is woken up. -/
def Phase.rouse : Phase → Phase
  | .asleep ongoing gen => .woken ongoing gen
  | p => p

/-- What the last thread of a generation does: it runs the action, resets the barrier and
notifies all. -/
def nextGeneration (s : State) : State where
  barrier := { s.barrier with
    count := s.barrier.parties
    generation := s.barrier.generation + 1 }
  completed := s.completed + 1
  threads := notifyAll Phase.sleeps Phase.rouse s.threads
  log := if s.barrier.barrierAction then s.log ++ [.action s.completed] else s.log

/-- A call that arrived in the generation `gen` returns. -/
def leave (s : State) (i gen : ℕ) : State :=
  { s with
    threads := s.threads.set i .outside
    log := s.log ++ [.returned i gen] }

/-- The wait: the thread returns if the generation has changed and sleeps otherwise. -/
def look (s : State) (i : ℕ) (ongoing : BitVec 32) (gen : ℕ) : State :=
  if s.barrier.generation ≠ ongoing then leave s i gen
  else { s with threads := s.threads.set i (.asleep ongoing gen) }

/-- A thread counts itself off. -/
def arrive (s : State) (i : ℕ) : State :=
  { s with
    barrier := { s.barrier with count := s.barrier.count - 1 }
    log := s.log ++ [.arrived i s.completed] }

/-- `await`, up to its end or to sleep. -/
def await (s : State) (i : ℕ) : State :=
  let ongoing := s.barrier.generation
  let s := arrive s i
  if s.barrier.count = 0 then leave (nextGeneration s) i s.completed
  else look s i ongoing s.completed

/-- Who moves. -/
inductive Act where
  | call (i : ℕ)
  | enter (i : ℕ)
  | wake (i : ℕ)
  deriving DecidableEq

/-- One move: thread `i` calls `await`, takes the mutex, or wakes up without a notification. -/
def step (s : State) : Act → Option State
  | .call i =>
    match s.threads[i]? with
    | some .outside => some { s with threads := s.threads.set i .calling }
    | _ => none
  | .enter i =>
    match s.threads[i]? with
    | some .calling => some (await s i)
    | some (.woken ongoing gen) => some (look s i ongoing gen)
    | _ => none
  | .wake i =>
    match s.threads[i]? with
    | some (.asleep ongoing gen) => some { s with threads := s.threads.set i (.woken ongoing gen) }
    | _ => none

/-- What a move can be. -/
inductive Step (s s' : State) : Prop where
  | call {i : ℕ} (hi : s.threads[i]? = some .outside)
      (hs : s' = { s with threads := s.threads.set i .calling })
  | await {i : ℕ} (hi : s.threads[i]? = some .calling) (hs : s' = await s i)
  | look {i : ℕ} {ongoing : BitVec 32} {gen : ℕ} (hi : s.threads[i]? = some (.woken ongoing gen))
      (hs : s' = look s i ongoing gen)
  | wake {i : ℕ} {ongoing : BitVec 32} {gen : ℕ} (hi : s.threads[i]? = some (.asleep ongoing gen))
      (hs : s' = { s with threads := s.threads.set i (.woken ongoing gen) })

theorem step_spec {s s' : State} {a : Act} (h : step s a = some s') : Step s s' := by
  cases a with
  | call i =>
    simp only [step] at h
    split at h
    next hi => exact .call hi (Option.some.inj h).symm
    next => cases h
  | enter i =>
    simp only [step] at h
    split at h
    next hi => exact .await hi (Option.some.inj h).symm
    next hi => exact .look hi (Option.some.inj h).symm
    next => cases h
  | wake i =>
    simp only [step] at h
    split at h
    next hi => exact .wake hi (Option.some.inj h).symm
    next => cases h

/-! ## What the log says -/

/-- The event is an arrival in the generation. -/
def Event.arrivesIn (gen : ℕ) : Event → Bool
  | .arrived _ g => g = gen
  | _ => false

/-- The number of arrivals in a generation. -/
def arrivals (log : List Event) (gen : ℕ) : ℕ := log.countP (Event.arrivesIn gen)

/-- When an event may occur at a barrier for `n` parties: the action after the `n`-th arrival, a
return after the `n`-th arrival and the action, if there is one. -/
def MayOccur (n : ℤ) (action : Bool) (before : List Event) : Event → Prop
  | .arrived _ _ => True
  | .action gen => (arrivals before gen : ℤ) = n
  | .returned _ gen => (arrivals before gen : ℤ) = n ∧ (action = true → .action gen ∈ before)

/-- A thread in the wait arrived in a generation that is completed or under way, and remembers
the value that `generation` had. -/
def Phase.Valid (completed : ℕ) : Phase → Prop
  | .asleep ongoing gen | .woken ongoing gen => ongoing = BitVec.ofNat 32 gen ∧ gen ≤ completed
  | _ => True

/-- The account of a barrier for `n` parties, also kept inside a critical section. -/
structure Account (n : ℤ) (action : Bool) (s : State) : Prop where
  parties : s.barrier.parties = n
  actionSet : s.barrier.barrierAction = action
  generation : s.barrier.generation = BitVec.ofNat 32 s.completed
  threads : ∀ p ∈ s.threads, p.Valid s.completed
  past : ∀ gen < s.completed, (arrivals s.log gen : ℤ) = n
  present : (arrivals s.log s.completed : ℤ) = n - s.barrier.count
  future : ∀ gen, s.completed < gen → arrivals s.log gen = 0
  actions : ∀ gen, s.log.count (.action gen) = if action ∧ gen < s.completed then 1 else 0
  justified : Justified (MayOccur n action) s.log

/-- Between critical sections some party is still missing. -/
structure Inv (n : ℤ) (action : Bool) (s : State) : Prop extends Account n action s where
  missing : 1 ≤ s.barrier.count

/-! ### One event more -/

theorem arrivals_concat (log : List Event) (e : Event) (gen : ℕ) :
    arrivals (log ++ [e]) gen = arrivals log gen + if e.arrivesIn gen then 1 else 0 := by
  simp [arrivals, List.countP_append, List.countP_singleton]

theorem count_action_concat (log : List Event) (e : Event) (gen : ℕ) :
    (log ++ [e]).count (.action gen)
      = log.count (.action gen) + if e = .action gen then 1 else 0 := by
  simp [List.count_append, List.count_singleton]

section Moves

variable {n : ℤ} {action : Bool} {s s' : State} {i : ℕ} {p : Phase} {ongoing : BitVec 32} {gen : ℕ}

theorem Account.set (h : Account n action s) (hp : p.Valid s.completed) :
    Account n action { s with threads := s.threads.set i p } :=
  { h with
    threads := by
      intro q hq
      rcases List.mem_or_eq_of_mem_set hq with hq | rfl
      · exact h.threads q hq
      · exact hp }

theorem Account.leave (h : Account n action s) (hgen : gen < s.completed) :
    Account n action (leave s i gen) :=
  { h.set (i := i) (p := .outside) trivial with
    past := fun g hg => (congrArg _ (arrivals_concat ..)).trans (h.past g hg)
    present := (congrArg _ (arrivals_concat ..)).trans h.present
    future := fun g hg => (arrivals_concat ..).trans (h.future g hg)
    actions := fun g => (count_action_concat ..).trans (h.actions g)
    justified := by
      refine justified_concat.mpr ⟨h.justified, h.past gen hgen, fun haction => ?_⟩
      have hcount := h.actions gen
      rw [if_pos ⟨haction, hgen⟩] at hcount
      exact List.count_pos_iff.mp (hcount ▸ Nat.one_pos) }

theorem Account.arrive (h : Account n action s) : Account n action (arrive s i) where
  parties := h.parties
  actionSet := h.actionSet
  generation := h.generation
  threads := h.threads
  past g hg := by
    have hne : s.completed ≠ g := Nat.ne_of_gt hg
    show ((arrivals (s.log ++ [.arrived i s.completed]) g : ℕ) : ℤ) = n
    rw [arrivals_concat]
    simpa [Event.arrivesIn, hne] using h.past g hg
  present := by
    show ((arrivals (s.log ++ [.arrived i s.completed]) s.completed : ℕ) : ℤ)
      = n - (s.barrier.count - 1)
    have := h.present
    rw [arrivals_concat, if_pos (by simp [Event.arrivesIn])]
    push_cast
    omega
  future g hg := by
    have hne : s.completed ≠ g := Nat.ne_of_lt hg
    show arrivals (s.log ++ [.arrived i s.completed]) g = 0
    rw [arrivals_concat]
    simpa [Event.arrivesIn, hne] using h.future g hg
  actions g := by
    exact (count_action_concat ..).trans (h.actions g)
  justified := justified_concat.mpr ⟨h.justified, trivial⟩

/-! ### The last thread -/

/-- Woken threads are as valid as they were asleep, and more so in later generations. -/
theorem Phase.Valid.rouse {c : ℕ} (hp : p.Valid c) : p.rouse.Valid (c + 1) := by
  cases p with
  | asleep ongoing gen => exact ⟨hp.1, hp.2.trans (Nat.le_succ c)⟩
  | woken ongoing gen => exact ⟨hp.1, hp.2.trans (Nat.le_succ c)⟩
  | _ => trivial

theorem arrivals_nextGeneration (s : State) (g : ℕ) :
    arrivals (nextGeneration s).log g = arrivals s.log g := by
  unfold nextGeneration
  split_ifs
  · exact arrivals_concat ..
  · rfl

/-- When all parties have arrived, the next generation starts. -/
theorem Account.nextGeneration (h : Account n action s) (hzero : s.barrier.count = 0) :
    Account n action (nextGeneration s) where
  parties := h.parties
  actionSet := h.actionSet
  generation := by
    show s.barrier.generation + 1 = BitVec.ofNat 32 (s.completed + 1)
    rw [h.generation, BitVec.ofNat_add]
    rfl
  threads := by
    intro q hq
    have hrouse : ∀ p ∈ s.threads, p.rouse.Valid (s.completed + 1) :=
      fun p hp => (h.threads p hp).rouse
    rcases mem_notifyAll.mp hq with ⟨p, hp, -, rfl⟩ | ⟨hq, hawake⟩
    · exact hrouse p hp
    · have hsame : q.rouse = q := by
        cases q with
        | asleep ongoing gen => cases hawake
        | _ => rfl
      exact hsame ▸ hrouse q hq
  past g hg := by
    rw [arrivals_nextGeneration]
    rcases Nat.lt_succ_iff_lt_or_eq.mp hg with hlt | rfl
    · exact h.past g hlt
    · rw [h.present, hzero, sub_zero]
  present := by
    rw [arrivals_nextGeneration]
    show ((arrivals s.log (s.completed + 1) : ℕ) : ℤ) = n - s.barrier.parties
    rw [h.future _ (Nat.lt_succ_self _), h.parties, sub_self, Nat.cast_zero]
  future g hg := by
    rw [arrivals_nextGeneration]
    exact h.future g (Nat.lt_of_succ_lt hg)
  actions g := by
    have hold := h.actions g
    show (if s.barrier.barrierAction then s.log ++ [.action s.completed] else s.log).count
      (.action g) = if action ∧ g < s.completed + 1 then 1 else 0
    rw [h.actionSet]
    cases action with
    | false => simpa using hold
    | true =>
      -- the generation that ends had no action yet
      simp only [if_true, true_and] at hold ⊢
      rw [count_action_concat, hold]
      simp only [Event.action.injEq]
      split_ifs <;> omega
  justified := by
    unfold CyclicBarriers.nextGeneration
    split_ifs
    · refine justified_concat.mpr ⟨h.justified, ?_⟩
      show (arrivals s.log s.completed : ℤ) = n
      rw [h.present, hzero, sub_zero]
    · exact h.justified

/-! ### All moves -/

/-- A thread in the wait returns or sleeps. -/
theorem Account.look (h : Account n action s)
    (hvalid : (Phase.asleep ongoing gen).Valid s.completed) :
    Account n action (look s i ongoing gen) := by
  unfold CyclicBarriers.look
  by_cases hchanged : s.barrier.generation ≠ ongoing
  · rw [if_pos hchanged]
    -- the counter wraps, so that the generation may look unchanged, but not the other way round
    have hlt : gen < s.completed := by
      apply lt_of_le_of_ne hvalid.2
      rintro rfl
      exact hchanged (h.generation.trans hvalid.1.symm)
    exact h.leave hlt
  · rw [if_neg hchanged]
    exact h.set hvalid

/-- **Every move keeps the invariant.** -/
theorem Inv.step (hn : 1 ≤ n) (h : Inv n action s) (hs : Step s s') : Inv n action s' := by
  cases hs with
  | call hi hs =>
    subst hs
    exact ⟨h.set (p := .calling) trivial, h.missing⟩
  | @await i hi hs =>
    subst hs
    have harrive := h.toAccount.arrive (i := i)
    have hcount : (CyclicBarriers.arrive s i).barrier.count = s.barrier.count - 1 := rfl
    simp only [CyclicBarriers.await]
    split_ifs with hzero
    · refine ⟨(harrive.nextGeneration hzero).leave (Nat.lt_succ_self s.completed), ?_⟩
      show 1 ≤ s.barrier.parties
      rw [h.parties]
      exact hn
    · refine ⟨harrive.look ⟨h.generation, le_rfl⟩, ?_⟩
      have hmissing := h.missing
      have hkeep : (CyclicBarriers.look (CyclicBarriers.arrive s i) i s.barrier.generation
          (CyclicBarriers.arrive s i).completed).barrier.count = s.barrier.count - 1 := by
        unfold CyclicBarriers.look
        split_ifs <;> rfl
      omega
  | @look i ongoing gen hi hs =>
    subst hs
    have hvalid := h.threads _ (List.mem_of_getElem? hi)
    refine ⟨h.toAccount.look hvalid, ?_⟩
    unfold CyclicBarriers.look
    split_ifs
    · exact h.missing
    · exact h.missing
  | wake hi hs =>
    subst hs
    have hvalid := h.threads _ (List.mem_of_getElem? hi)
    exact ⟨h.set hvalid, h.missing⟩

end Moves

/-- A fresh barrier meets the invariant. -/
theorem inv_start {n : ℤ} (hn : 1 ≤ n) (action : Bool) (k : ℕ) :
    Inv n action (start n action k) where
  parties := rfl
  actionSet := rfl
  generation := rfl
  threads := by
    intro p hp
    rw [List.eq_of_mem_replicate hp]
    trivial
  past gen hgen := absurd hgen (Nat.not_lt_zero gen)
  present := by simp [start, arrivals, CyclicBarrier.new]
  future gen _ := by simp [start, arrivals]
  actions gen := by simp [start]
  justified := justified_nil _
  missing := hn

/-! ## Result -/

/-- **The cyclic barrier.**  For `n ≥ 1` parties, with or without an action, any number `k` of
threads and every run: each completed generation got exactly `n` arrivals, the current one so far
`n - count`, later ones none; the action ran once in each completed generation and in no other,
after the `n`-th arrival; a call that arrived in a generation returned only after its `n`-th arrival
and its action; and `count` is between `1` and `n`. -/
theorem cyclicBarrier_correct (n : ℤ) (hn : 1 ≤ n) (action : Bool) (k : ℕ) (as : List Act)
    (s : State) (h : run step (start n action k) as = some s) :
    (∀ gen < s.completed, (arrivals s.log gen : ℤ) = n) ∧
    (arrivals s.log s.completed : ℤ) = n - s.barrier.count ∧
    (∀ gen, s.completed < gen → arrivals s.log gen = 0) ∧
    (∀ gen, s.log.count (.action gen) = if action ∧ gen < s.completed then 1 else 0) ∧
    (∀ before gen after, s.log = before ++ .action gen :: after →
      (arrivals before gen : ℤ) = n) ∧
    (∀ before i gen after, s.log = before ++ .returned i gen :: after →
      (arrivals before gen : ℤ) = n ∧ (action = true → .action gen ∈ before)) ∧
    1 ≤ s.barrier.count ∧ s.barrier.count ≤ n := by
  have hinv : Inv n action s :=
    run_invariant (fun _ _ _ hs hstep => hs.step hn (step_spec hstep)) (inv_start hn action k) h
  refine ⟨hinv.past, hinv.present, hinv.future, hinv.actions,
    fun before gen after heq => hinv.justified before (.action gen) after heq,
    fun before i gen after heq => hinv.justified before (.returned i gen) after heq,
    hinv.missing, ?_⟩
  -- the arrivals of the current generation are not negative
  have := hinv.present
  omega

/-- Two threads meet twice, the second time after a spurious wake-up. -/
def meetTwice : List Act :=
  [.call 0, .enter 0, .call 1, .enter 1, .enter 0, .call 1, .enter 1, .wake 1, .enter 1, .call 0,
    .enter 0]

/-- The events of this run, in which thread 1 has not yet returned from its second call. -/
theorem cyclicBarrier_correct_meetTwice : ∃ s,
    run step (start 2 true 2) meetTwice = some s ∧
    s.log = [.arrived 0 0, .arrived 1 0, .action 0, .returned 1 0, .returned 0 0, .arrived 1 1,
      .arrived 0 1, .action 1, .returned 0 1] ∧
    ∀ gen < s.completed, (arrivals s.log gen : ℤ) = 2 := by
  refine ⟨_, rfl, rfl, ?_⟩
  exact (cyclicBarrier_correct 2 (by decide) true 2 meetTwice _ rfl).1

end CyclicBarriers
