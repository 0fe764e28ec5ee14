/-
# Producers and consumers with counting semaphores

Model of `concurrency/CountingSemaphore_ProducerConsumer.cpp`.  A producer waits for an empty slot,
pushes its item and signals a full slot; a consumer waits for a full slot, pops and signals an
empty slot.  Nobody looks at the size of `buffer`, and nobody tests whether it is empty.

A round of either loop is cut into its critical sections: `wait` up to its end or to sleep, the
access to `buffer`, the increment in `signal`, and the `notify_one` after it.  Between two of them
any other thread can move.

Result: the slots are conserved.  An empty slot is counted by `emptySlots`, held by a producer
before its push, or given back by a consumer that has popped and not yet signalled; likewise for
full slots.  So the buffer stays within its size and is never popped when empty.
-/
import SystemsDesign.ThreadList
import SystemsDesign.TransitionSystem

namespace SemaphoreBuffers

open ThreadList TransitionSystem

/-! ## The two loops -/

/-- The two kinds of threads. -/
inductive Role where
  | producer
  | consumer
  deriving DecidableEq

/-- The role whose semaphore is signalled. -/
def Role.other : Role → Role
  | .producer => .consumer
  | .consumer => .producer

/-- The data member of `CountingSemaphore` besides `mtx` and `cv`. -/
structure CountingSemaphore where
  count : ℤ
  deriving DecidableEq

/-- Where a thread is in its round: before `wait`, asleep in it or woken up; after it, before the
access to the buffer; before the increment in `signal`; and before the `notify_one` there. -/
inductive Phase where
  | waiting
  | asleep
  | woken
  | granted
  | accessed
  | signalled
  deriving DecidableEq

/-- A thread that runs its loop for `item = 1, ..., rounds`. -/
structure Thread where
  role : Role
  rounds : ℕ
  item : ℕ := 1
  phase : Phase := .waiting
  deriving DecidableEq

/-- The thread is in a phase and has a role. -/
def Thread.inPhase (role : Role) (phase : Phase) (t : Thread) : Bool :=
  t.role = role ∧ t.phase = phase

/-- The semaphores, the buffer and the threads, with the items inserted and consumed so far, and
whether `front` and `pop` have been called on an empty buffer. -/
structure State where
  emptySlots : CountingSemaphore
  fullSlots : CountingSemaphore
  buffer : List ℕ
  threads : List Thread
  inserted : List ℕ
  consumed : List ℕ
  frontOfEmpty : Bool
  deriving DecidableEq

/-- A buffer of size `N`, and threads given by their roles and numbers of rounds. -/
def start (N : ℕ) (threads : List (Role × ℕ)) : State where
  emptySlots := ⟨N⟩
  fullSlots := ⟨0⟩
  buffer := []
  threads := threads.map fun t => { role := t.1, rounds := t.2 }
  inserted := []
  consumed := []
  frontOfEmpty := false

/-- The semaphore on which a role waits. -/
def State.slots (s : State) : Role → CountingSemaphore
  | .producer => s.emptySlots
  | .consumer => s.fullSlots

/-- `count` of a role's semaphore is changed. -/
def State.addSlots (s : State) (role : Role) (d : ℤ) : State :=
  match role with
  | .producer => { s with emptySlots := ⟨s.emptySlots.count + d⟩ }
  | .consumer => { s with fullSlots := ⟨s.fullSlots.count + d⟩ }

/-- Thread `i` goes on to a phase. -/
def State.moveTo (s : State) (i : ℕ) (t : Thread) (phase : Phase) : State :=
  { s with threads := s.threads.set i { t with phase } }

/-- `CountingSemaphore::wait`, up to its end or to sleep. -/
def wait (s : State) (i : ℕ) (t : Thread) : State :=
  if 0 < (s.slots t.role).count then (s.addSlots t.role (-1)).moveTo i t .granted
  else s.moveTo i t .asleep

/-- The access to the buffer under `bufferMtx`. -/
def access (s : State) : Thread → State
  | { role := .producer, item, .. } =>
    { s with buffer := s.buffer ++ [item], inserted := s.inserted ++ [item] }
  | { role := .consumer, .. } =>
    match s.buffer with
    | [] => { s with frontOfEmpty := true }
    | consumedItem :: buffer => { s with buffer, consumed := s.consumed ++ [consumedItem] }

/-- Asleep on the condition variable of a role's semaphore. -/
def Thread.sleepsOn (role : Role) : Thread → Bool := Thread.inPhase role .asleep

/-- `cv.notify_one()` of a role's semaphore, which wakes the sleeper `j`. -/
def notifyRole (role : Role) : List Thread → ℕ → Option (List Thread) :=
  notifyOne (Thread.sleepsOn role) fun t => { t with phase := .woken }

/-- Who moves. -/
inductive Act where
  | wait (i : ℕ)
  | wake (i : ℕ)
  | access (i : ℕ)
  | signal (i : ℕ)
  | notify (i j : ℕ)
  deriving DecidableEq

/-- One move of a thread that is before one of its critical sections, or sleeps and wakes up
without a notification.  The last move of a round starts the next one. -/
def step (s : State) : Act → Option State
  | .wait i =>
    match s.threads[i]? with
    | some t =>
      if t.phase = .waiting ∧ t.item ≤ t.rounds ∨ t.phase = .woken then some (wait s i t) else none
    | none => none
  | .wake i =>
    match s.threads[i]? with
    | some t => if t.phase = .asleep then some (s.moveTo i t .woken) else none
    | none => none
  | .access i =>
    match s.threads[i]? with
    | some t => if t.phase = .granted then some ((access s t).moveTo i t .accessed) else none
    | none => none
  | .signal i =>
    match s.threads[i]? with
    | some t =>
      if t.phase = .accessed then some ((s.addSlots t.role.other 1).moveTo i t .signalled)
      else none
    | none => none
  | .notify i j =>
    match s.threads[i]? with
    | some t =>
      if t.phase = .signalled then
        (notifyRole t.role.other
          (s.threads.set i { t with item := t.item + 1, phase := .waiting }) j).map
          fun threads => { s with threads }
      else none
    | none => none

/-- What a move can be. -/
inductive Step (s s' : State) : Prop where
  | wait {i : ℕ} {t : Thread} (hi : s.threads[i]? = some t)
      (ht : t.phase = .waiting ∨ t.phase = .woken) (hs : s' = wait s i t)
  | wake {i : ℕ} {t : Thread} (hi : s.threads[i]? = some t) (ht : t.phase = .asleep)
      (hs : s' = s.moveTo i t .woken)
  | access {i : ℕ} {t : Thread} (hi : s.threads[i]? = some t) (ht : t.phase = .granted)
      (hs : s' = (access s t).moveTo i t .accessed)
  | signal {i : ℕ} {t : Thread} (hi : s.threads[i]? = some t) (ht : t.phase = .accessed)
      (hs : s' = (s.addSlots t.role.other 1).moveTo i t .signalled)
  | notify {i j : ℕ} {t : Thread} {ts : List Thread} (hi : s.threads[i]? = some t)
      (ht : t.phase = .signalled)
      (hn : notifyRole t.role.other
        (s.threads.set i { t with item := t.item + 1, phase := .waiting }) j = some ts)
      (hs : s' = { s with threads := ts })

theorem step_spec {s s' : State} {a : Act} (h : step s a = some s') : Step s s' := by
  cases a with
  | wait i =>
    simp only [step] at h
    split at h
    next t hi =>
      split_ifs at h with ht
      exact .wait hi (ht.imp_left And.left) (Option.some.inj h).symm
    next => cases h
  | wake i =>
    simp only [step] at h
    split at h
    next t hi =>
      split_ifs at h with ht
      exact .wake hi ht (Option.some.inj h).symm
    next => cases h
  | access i =>
    simp only [step] at h
    split at h
    next t hi =>
      split_ifs at h with ht
      exact .access hi ht (Option.some.inj h).symm
    next => cases h
  | signal i =>
    simp only [step] at h
    split at h
    next t hi =>
      split_ifs at h with ht
      exact .signal hi ht (Option.some.inj h).symm
    next => cases h
  | notify i j =>
    simp only [step] at h
    split at h
    next t hi =>
      split_ifs at h with ht
      obtain ⟨ts, hn, rfl⟩ := Option.map_eq_some_iff.mp h
      exact .notify hi ht hn rfl
    next => cases h

/-! ## Conservation of slots -/

/-- The slots of a role that its semaphore counts, that threads of the role hold, and that threads
of the other role have freed and not yet signalled. -/
def State.tokens (s : State) (role : Role) : ℤ :=
  (s.slots role).count + s.threads.countP (Thread.inPhase role .granted)
    + s.threads.countP (Thread.inPhase role.other .accessed)

/-- The slots that a role waits for: producers for empty slots, consumers for items. -/
def State.stock (N : ℕ) (s : State) : Role → ℤ
  | .producer => N - s.buffer.length
  | .consumer => s.buffer.length

/-- The invariant. -/
structure Inv (N : ℕ) (s : State) : Prop where
  conserved : ∀ role, s.tokens role = s.stock N role
  nonneg : ∀ role, 0 ≤ (s.slots role).count
  order : s.inserted = s.consumed ++ s.buffer
  fine : s.frontOfEmpty = false

section Moves

variable {N i j : ℕ} {s s' : State} {t : Thread} {role : Role}

theorem Role.eq_or_eq_other (role own : Role) : role = own ∨ role = own.other := by
  cases role <;> cases own <;> simp [Role.other]

@[simp] theorem Role.other_other (role : Role) : role.other.other = role := by cases role <;> rfl

@[simp] theorem Role.other_ne (role : Role) : role.other ≠ role := by
  cases role <;> exact Role.noConfusion

@[simp] theorem Role.ne_other (role : Role) : role ≠ role.other := (Role.other_ne role).symm

theorem slots_addSlots (s : State) (role : Role) (d : ℤ) :
    ((s.addSlots role d).slots role).count = (s.slots role).count + d := by
  cases role <;> rfl

theorem slots_addSlots_other (s : State) (role : Role) (d : ℤ) :
    (s.addSlots role.other d).slots role = s.slots role := by
  cases role <;> rfl

/-- A semaphore's counter is apart from everything else. -/
theorem addSlots_frame (s : State) (role : Role) (d : ℤ) :
    (s.addSlots role d).threads = s.threads ∧ (s.addSlots role d).buffer = s.buffer ∧
      (s.addSlots role d).inserted = s.inserted ∧ (s.addSlots role d).consumed = s.consumed ∧
      (s.addSlots role d).frontOfEmpty = s.frontOfEmpty := by
  cases role <;> exact ⟨rfl, rfl, rfl, rfl, rfl⟩

/-- What a thread holds or has freed of a role's slots. -/
def Thread.tokens (role : Role) (t : Thread) : ℤ :=
  (if t.inPhase role .granted then 1 else 0) + if t.inPhase role.other .accessed then 1 else 0

/-- Outside of the stretch from its `wait` to its `signal` a thread has no tokens. -/
theorem tokens_idle (hgranted : t.phase ≠ .granted) (haccessed : t.phase ≠ .accessed)
    (role : Role) : t.tokens role = 0 := by
  simp [Thread.tokens, Thread.inPhase, hgranted, haccessed]

theorem tokens_toIdle {phase : Phase} (hgranted : phase ≠ .granted)
    (haccessed : phase ≠ .accessed) (t : Thread) (role : Role) :
    { t with phase }.tokens role = 0 :=
  tokens_idle hgranted haccessed role

theorem tokens_granted (h : t.phase = .granted) :
    t.tokens t.role = 1 ∧ t.tokens t.role.other = 0 := by
  simp [Thread.tokens, Thread.inPhase, h]

theorem tokens_accessed (h : t.phase = .accessed) :
    t.tokens t.role = 0 ∧ t.tokens t.role.other = 1 := by
  simp [Thread.tokens, Thread.inPhase, h]

theorem tokens_moveTo (hi : s.threads[i]? = some t) (phase : Phase) (role : Role) :
    (s.moveTo i t phase).tokens role + t.tokens role
      = s.tokens role + { t with phase }.tokens role := by
  have hgranted := countP_set_add (Thread.inPhase role .granted) hi { t with phase }
  have haccessed := countP_set_add (Thread.inPhase role.other .accessed) hi { t with phase }
  have hslots : (s.moveTo i t phase).slots role = s.slots role := by cases role <;> rfl
  unfold State.tokens Thread.tokens
  rw [hslots]
  show _ + ((s.threads.set i { t with phase }).countP _ : ℤ)
    + ((s.threads.set i { t with phase }).countP _ : ℤ) + _ = _
  push_cast [← Nat.cast_inj (R := ℤ)] at hgranted haccessed
  linarith

theorem tokens_addSlots (s : State) (role : Role) (d : ℤ) :
    (s.addSlots role d).tokens role = s.tokens role + d := by
  unfold State.tokens
  rw [slots_addSlots, (addSlots_frame s role d).1]
  omega

theorem tokens_addSlots_other (s : State) (role : Role) (d : ℤ) :
    (s.addSlots role.other d).tokens role = s.tokens role := by
  unfold State.tokens
  rw [slots_addSlots_other, (addSlots_frame s role.other d).1]

/-- A thread moves, after a semaphore has been changed to make up for the change of its tokens. -/
theorem Inv.moveTo {own : Role} {d : ℤ} {phase : Phase} (h : Inv N s)
    (hi : s.threads[i]? = some t) (hnonneg : 0 ≤ (s.slots own).count + d)
    (hown : { t with phase }.tokens own + d = t.tokens own)
    (hother : { t with phase }.tokens own.other = t.tokens own.other) :
    Inv N ((s.addSlots own d).moveTo i t phase) := by
  obtain ⟨hthreads, hbuffer, hinserted, hconsumed, hfine⟩ := addSlots_frame s own d
  have hmoved := tokens_moveTo (hthreads ▸ hi) phase
  refine ⟨fun role => ?_, fun role => ?_, ?_, hfine.trans h.fine⟩
  · have hstock : ((s.addSlots own d).moveTo i t phase).stock N role = s.stock N role := by
      cases own <;> cases role <;> rfl
    have hrole := hmoved role
    rw [hstock, ← h.conserved role]
    rcases role.eq_or_eq_other own with rfl | rfl
    · rw [tokens_addSlots] at hrole
      omega
    · have hsame := tokens_addSlots_other s own.other d
      rw [Role.other_other] at hsame
      rw [hsame] at hrole
      omega
  · rcases role.eq_or_eq_other own with rfl | rfl
    · show 0 ≤ ((s.addSlots _ d).slots _).count
      rw [slots_addSlots]
      exact hnonneg
    · have hsame := slots_addSlots_other s own.other d
      rw [Role.other_other] at hsame
      show 0 ≤ ((s.addSlots own d).slots own.other).count
      rw [hsame]
      exact h.nonneg _
  · show (s.addSlots own d).inserted = (s.addSlots own d).consumed ++ (s.addSlots own d).buffer
    rw [hinserted, hconsumed, hbuffer]
    exact h.order

/-- A thread moves between phases without tokens. -/
theorem Inv.idle {phase : Phase} (h : Inv N s) (hi : s.threads[i]? = some t)
    (hfrom : ∀ role, t.tokens role = 0) (hto : ∀ role, { t with phase }.tokens role = 0) :
    Inv N (s.moveTo i t phase) := by
  refine ⟨fun role => ?_, h.nonneg, h.order, h.fine⟩
  have hmoved := tokens_moveTo hi phase role
  rw [hfrom, hto, add_zero, add_zero] at hmoved
  exact hmoved.trans (h.conserved role)

/-- `wait` turns a unit of the semaphore into a slot that the thread holds. -/
theorem Inv.wait (h : Inv N s) (hi : s.threads[i]? = some t)
    (ht : t.phase = .waiting ∨ t.phase = .woken) : Inv N (wait s i t) := by
  have hidle : ∀ role, t.tokens role = 0 := by
    apply tokens_idle
    · rcases ht with ht | ht <;> rw [ht] <;> decide
    · rcases ht with ht | ht <;> rw [ht] <;> decide
  unfold SemaphoreBuffers.wait
  split_ifs with hpos
  · have hgranted : { t with phase := .granted }.tokens t.role = 1 ∧
        { t with phase := .granted }.tokens t.role.other = 0 := tokens_granted rfl
    obtain ⟨hown, hother⟩ := hgranted
    refine h.moveTo hi (by omega) ?_ (hother.trans (hidle _).symm)
    rw [hidle, hown]
    rfl
  · exact h.idle hi hidle (tokens_toIdle (by decide) (by decide) t)

theorem Inv.stock_pos (h : Inv N s) (hi : s.threads[i]? = some t) (ht : t.phase = .granted) :
    1 ≤ s.stock N t.role := by
  have hpos : 0 < s.threads.countP (Thread.inPhase t.role .granted) :=
    List.countP_pos_iff.mpr ⟨t, List.mem_of_getElem? hi, by simp [Thread.inPhase, ht]⟩
  have hcount := h.nonneg t.role
  have htokens := h.conserved t.role
  unfold State.tokens at htokens
  omega

/-- What the access does to the buffer: the stock of the own role goes down by one, that of the
other up by one, and a consumer finds an item. -/
theorem access_spec (h : Inv N s) (hi : s.threads[i]? = some t) (ht : t.phase = .granted) :
    (access s t).stock N t.role = s.stock N t.role - 1 ∧
      (access s t).stock N t.role.other = s.stock N t.role.other + 1 ∧
      (access s t).inserted = (access s t).consumed ++ (access s t).buffer ∧
      (access s t).frontOfEmpty = false ∧ (access s t).threads = s.threads ∧
      ∀ role, (access s t).slots role = s.slots role := by
  have hpos := h.stock_pos hi ht
  obtain ⟨role, rounds, item, phase⟩ := t
  cases role with
  | producer =>
    refine ⟨?_, ?_, ?_, h.fine, rfl, fun role => by cases role <;> rfl⟩
    · show (N : ℤ) - (s.buffer ++ [item]).length = N - s.buffer.length - 1
      rw [List.length_append, List.length_singleton]
      push_cast
      omega
    · show ((s.buffer ++ [item]).length : ℤ) = s.buffer.length + 1
      rw [List.length_append, List.length_singleton]
      rfl
    · show s.inserted ++ [item] = s.consumed ++ (s.buffer ++ [item])
      rw [h.order, List.append_assoc]
  | consumer =>
    have hlength : 1 ≤ (s.buffer.length : ℤ) := hpos
    have horder := h.order
    cases hbuffer : s.buffer with
    | nil =>
      rw [hbuffer] at hlength
      exact absurd hlength (by decide)
    | cons consumedItem buffer =>
      rw [hbuffer] at horder
      have haccess : access s ⟨.consumer, rounds, item, phase⟩
          = { s with buffer, consumed := s.consumed ++ [consumedItem] } := by
        simp only [access, hbuffer]
      rw [haccess]
      refine ⟨?_, ?_, ?_, h.fine, rfl, fun role => by cases role <;> rfl⟩
      · show (buffer.length : ℤ) = s.buffer.length - 1
        rw [hbuffer, List.length_cons]
        push_cast
        omega
      · show (N : ℤ) - buffer.length = N - s.buffer.length + 1
        rw [hbuffer, List.length_cons]
        push_cast
        omega
      · show s.inserted = s.consumed ++ [consumedItem] ++ buffer
        rw [horder, List.append_assoc, List.singleton_append]

/-- The access to the buffer turns a slot that the thread holds into one it has freed. -/
theorem Inv.access (h : Inv N s) (hi : s.threads[i]? = some t) (ht : t.phase = .granted) :
    Inv N ((access s t).moveTo i t .accessed) := by
  obtain ⟨hown, hother, horder, hfine, hthreads, hslots⟩ := access_spec h hi ht
  have htokens : ∀ role, (SemaphoreBuffers.access s t).tokens role = s.tokens role := by
    intro role
    unfold State.tokens
    rw [hslots, hthreads]
  refine ⟨fun role => ?_, fun role => ?_, horder, hfine⟩
  · have hmoved := tokens_moveTo (hthreads ▸ hi) .accessed role
    have hconserved := h.conserved role
    obtain ⟨hgranted, hgranted'⟩ := tokens_granted ht
    have htokens' : { t with phase := .accessed }.tokens t.role = 0 ∧
        { t with phase := .accessed }.tokens t.role.other = 1 := tokens_accessed rfl
    obtain ⟨haccessed, haccessed'⟩ := htokens'
    have hstock : ((SemaphoreBuffers.access s t).moveTo i t .accessed).stock N role
        = (SemaphoreBuffers.access s t).stock N role := by cases role <;> rfl
    rw [htokens] at hmoved
    rw [hstock]
    rcases role.eq_or_eq_other t.role with rfl | rfl
    · rw [hown]
      omega
    · rw [hother]
      omega
  · have hsame : ((SemaphoreBuffers.access s t).moveTo i t .accessed).slots role
        = (SemaphoreBuffers.access s t).slots role := by cases role <;> rfl
    rw [hsame, hslots]
    exact h.nonneg role

/-- `signal` turns a slot that the thread has freed into a unit of the other semaphore. -/
theorem Inv.signal (h : Inv N s) (hi : s.threads[i]? = some t) (ht : t.phase = .accessed) :
    Inv N ((s.addSlots t.role.other 1).moveTo i t .signalled) := by
  have hidle := @tokens_toIdle .signalled (by decide) (by decide) t
  obtain ⟨hown, hother⟩ := tokens_accessed ht
  have hnonneg := h.nonneg t.role.other
  refine h.moveTo hi (by omega) ?_ ?_
  · rw [hidle, hother]
    rfl
  · rw [hidle, Role.other_other, hown]

/-- The next round begins without tokens, and the notification moves no tokens. -/
theorem Inv.notify {ts : List Thread} (h : Inv N s) (hi : s.threads[i]? = some t)
    (ht : t.phase = .signalled)
    (hn : notifyRole t.role.other
      (s.threads.set i { t with item := t.item + 1, phase := .waiting }) j = some ts) :
    Inv N { s with threads := ts } := by
  have hcount (r : Role) (phase : Phase) (hphase : phase = .granted ∨ phase = .accessed) :
      ts.countP (Thread.inPhase r phase) = s.threads.countP (Thread.inPhase r phase) := by
    have hset := countP_set_add (Thread.inPhase r phase) hi
      { t with item := t.item + 1, phase := .waiting }
    have hnotify := countP_notifyOne (Q := Thread.inPhase r phase) (fun u hu => ?_) hn
    · rw [hnotify]
      rcases hphase with rfl | rfl
      · simpa [Thread.inPhase, ht] using hset
      · simpa [Thread.inPhase, ht] using hset
    · have hasleep : u.phase = .asleep := by
        simp only [Thread.sleepsOn, Thread.inPhase, decide_eq_true_eq] at hu
        exact hu.2
      rcases hphase with rfl | rfl <;> simp [Thread.inPhase, hasleep]
  refine ⟨fun role => ?_, fun role => ?_, h.order, h.fine⟩
  · have hslots : State.slots { s with threads := ts } role = s.slots role := by
      cases role <;> rfl
    have hstock : State.stock N { s with threads := ts } role = s.stock N role := by
      cases role <;> rfl
    rw [hstock, ← h.conserved role]
    unfold State.tokens
    rw [hslots, hcount role _ (.inl rfl), hcount role.other _ (.inr rfl)]
  · have hslots : State.slots { s with threads := ts } role = s.slots role := by
      cases role <;> rfl
    rw [hslots]
    exact h.nonneg role

/-- **Every move conserves the slots.** -/
theorem Inv.step (h : Inv N s) (hs : Step s s') : Inv N s' := by
  cases hs with
  | wait hi ht hs => exact hs ▸ h.wait hi ht
  | wake hi ht hs =>
    subst hs
    apply h.idle hi
    · apply tokens_idle <;> rw [ht] <;> decide
    · exact tokens_toIdle (by decide) (by decide) _
  | access hi ht hs => exact hs ▸ h.access hi ht
  | signal hi ht hs => exact hs ▸ h.signal hi ht
  | notify hi ht hn hs => exact hs ▸ h.notify hi ht hn

theorem inv_start (N : ℕ) (threads : List (Role × ℕ)) : Inv N (start N threads) := by
  have hcount (role : Role) (phase : Phase) (hphase : phase ≠ .waiting) :
      (start N threads).threads.countP (Thread.inPhase role phase) = 0 := by
    rw [List.countP_eq_zero]
    intro t ht
    obtain ⟨t, -, rfl⟩ := List.mem_map.mp ht
    simp [Thread.inPhase, hphase.symm]
  refine ⟨fun role => ?_, fun role => ?_, rfl, rfl⟩
  · unfold State.tokens
    rw [hcount role _ (by decide), hcount role.other _ (by decide)]
    cases role with
    | producer => exact Int.add_zero _
    | consumer => rfl
  · cases role with
    | producer => exact Int.natCast_nonneg N
    | consumer => exact le_rfl

end Moves

/-! ## The result -/

/-- **The semaphores guard the buffer.**  After every schedule the buffer is within its size,
`front` and `pop` have not been called on an empty buffer, and the items consumed are, in order,
the first of those inserted. -/
theorem semaphoreBuffer_correct {N : ℕ} {threads : List (Role × ℕ)} {moves : List Act} {s : State}
    (hrun : run step (start N threads) moves = some s) :
    s.buffer.length ≤ N ∧ s.frontOfEmpty = false ∧ s.consumed <+: s.inserted := by
  have hinv : Inv N s :=
    run_invariant (fun _ _ _ ht hstep => ht.step (step_spec hstep)) (inv_start N threads) hrun
  refine ⟨?_, hinv.fine, ?_⟩
  · -- what the tokens of the producers leave is at least zero
    have hslots : (s.tokens .producer : ℤ) = N - s.buffer.length := hinv.conserved .producer
    have hnonneg := hinv.nonneg .producer
    unfold State.tokens at hslots
    omega
  · rw [hinv.order]
    exact List.prefix_append _ _

/-- A buffer of size 1: the consumer sleeps, the producer completes a round and wakes it up, and
its next push has to wait for the consumer. -/
def handOver : List Act :=
  [.wait 1, .wait 0, .access 0, .signal 0, .notify 0 1, .wait 0, .wait 1, .access 1, .signal 1,
    .notify 1 0, .wait 0, .access 0]

theorem semaphoreBuffer_correct_handOver :
    ∃ s, run step (start 1 [(.producer, 5), (.consumer, 5)]) handOver = some s ∧
      s.consumed = [1] ∧ s.buffer = [2] ∧ s.buffer.length ≤ 1 ∧ s.consumed <+: s.inserted := by
  have hrun : ∃ s, run step (start 1 [(.producer, 5), (.consumer, 5)]) handOver = some s :=
    ⟨_, rfl⟩
  obtain ⟨s, hs⟩ := hrun
  obtain ⟨hbounded, -, horder⟩ := semaphoreBuffer_correct hs
  refine ⟨s, hs, ?_, ?_, hbounded, horder⟩
  · obtain rfl := Option.some.inj hs
    rfl
  · obtain rfl := Option.some.inj hs
    rfl

end SemaphoreBuffers
