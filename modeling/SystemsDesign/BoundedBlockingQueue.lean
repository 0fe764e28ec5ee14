/-
# The bounded blocking queue with timeouts

Model of `concurrency/BlockingQueue_Bounded_with_timeout.cpp`.  Producers call `push` and
`try_push`, consumers `pop` and `try_pop`; each call is one critical section of `mtx`, cut where
the thread sleeps on `not_full` or `not_empty`, followed by a `notify_one` on the other condition
variable after `mtx` is released.

A timed wait may expire at any time, a wait may end without a notification, and a notification
wakes an arbitrary sleeper.  A thread that has left the condition variable still has to take the
mutex, and it may be overtaken there.

Result: the queue is a bounded FIFO queue, a call that times out has not touched it, and no
wake-up is lost (`WakeupSupply`): while a consumer sleeps, each queued item is somebody's to take.
The same holds for producers and free slots.
-/
import SystemsDesign.TransitionSystem
import SystemsDesign.WakeupSupply

namespace BlockingQueues

open ThreadList TransitionSystem WakeupSupply

variable {T : Type*}

/-! ## Calls and threads -/

/-- Producers sleep on `not_full`, consumers on `not_empty`. -/
inductive Side where
  | producer
  | consumer
  deriving DecidableEq

/-- Who is notified. -/
def Side.other : Side → Side
  | .producer => .consumer
  | .consumer => .producer

/-- The four operations; of `timeout` it only matters that the wait can expire. -/
inductive Call (T : Type*) where
  | tryPush (val : T)
  | push (val : T)
  | tryPop
  | pop
  deriving DecidableEq

/-- The side that makes the call. -/
def Call.side : Call T → Side
  | .tryPush _ | .push _ => .producer
  | .tryPop | .pop => .consumer

/-- The call waits with `wait_for`. -/
def Call.timed : Call T → Bool
  | .tryPush _ | .tryPop => true
  | .push _ | .pop => false

/-- What a call returns: `true` or nothing for a push, the value for a pop, and `false` or
`nullopt` for a timed call that has given up. -/
inductive Answer (T : Type*) where
  | pushed
  | popped (val : T)
  | timedOut
  deriving DecidableEq

/-- Where a thread is: outside, with what its last call returned; before its critical section;
asleep on its condition variable; on its way back from there to the mutex, with a notification or
because the time is up or for no reason; or after the critical section, before `notify_one`. -/
inductive Phase (T : Type*) where
  | outside (last : Option (Answer T))
  | calling (c : Call T)
  | blocked (c : Call T)
  | notified (c : Call T)
  | awake (c : Call T)
  | notifying (c : Call T) (answer : Answer T)
  deriving DecidableEq

/-- The call of a thread that is about to take the mutex. -/
def Phase.entering : Phase T → Option (Call T)
  | .calling c | .notified c | .awake c => some c
  | _ => none

/-- The thread has been in the wait. -/
def Phase.waited : Phase T → Bool
  | .notified _ | .awake _ => true
  | _ => false

/-- Asleep on the condition variable of a side. -/
def Phase.blockedOn (side : Side) : Phase T → Bool
  | .blocked c => c.side = side
  | _ => false

/-- Notified on the condition variable of a side, and not yet resumed. -/
def Phase.notifiedOn (side : Side) : Phase T → Bool
  | .notified c => c.side = side
  | _ => false

/-- Before the `notify_one` for a side. -/
def Phase.owes (side : Side) : Phase T → Bool
  | .notifying c _ => c.side.other = side
  | _ => false

/-- A sleeper is notified. -/
def Phase.rouse : Phase T → Phase T
  | .blocked c => .notified c
  | p => p

/-! ## The queue -/

/-- The data members of the class and the threads, with the values pushed and popped so far. -/
structure State (T : Type*) where
  dq : List T
  Tcapacity : ℕ
  threads : List (Phase T)
  enqueued : List T
  delivered : List T
  deriving DecidableEq

/-- A fresh queue and `n` threads outside. -/
def start (T : Type*) (capacity n : ℕ) : State T where
  dq := []
  Tcapacity := capacity
  threads := List.replicate n (.outside none)
  enqueued := []
  delivered := []

/-- The predicate of the wait and, if it holds, what the critical section does. -/
def operate (s : State T) : Call T → Option (State T × Answer T)
  | .tryPush val | .push val =>
    if s.dq.length < s.Tcapacity then
      some ({ s with dq := s.dq ++ [val], enqueued := s.enqueued ++ [val] }, .pushed)
    else none
  | .tryPop | .pop =>
    match s.dq with
    | [] => none
    | val :: dq => some ({ s with dq := dq, delivered := s.delivered ++ [val] }, .popped val)

/-- A thread takes the mutex.  If the predicate fails it sleeps, but a timed wait that has expired
returns the predicate. -/
def enter (s : State T) (i : ℕ) (p : Phase T) (c : Call T) (expired : Bool) : State T :=
  match operate s c with
  | some (t, answer) => { t with threads := s.threads.set i (.notifying c answer) }
  | none =>
    if p.waited && c.timed && expired then
      { s with threads := s.threads.set i (.outside (some .timedOut)) }
    else { s with threads := s.threads.set i (.blocked c) }

/-- `notify_one` on the condition variable of a side, which wakes the sleeper `j`. -/
def notifySide (side : Side) : List (Phase T) → ℕ → Option (List (Phase T)) :=
  notifyOne (Phase.blockedOn side) Phase.rouse

/-- Who moves. -/
inductive Act (T : Type*) where
  | call (i : ℕ) (c : Call T)
  | enter (i : ℕ) (expired : Bool)
  | wake (i : ℕ)
  | notify (i j : ℕ)
  deriving DecidableEq

/-- The thread that moves. -/
def Act.thread : Act T → ℕ
  | .call i _ | .enter i _ | .wake i | .notify i _ => i

/-- One move: thread `i` makes a call, takes the mutex, leaves its condition variable without a
notification, or sends its notification and returns. -/
def step (s : State T) : Act T → Option (State T)
  | .call i c =>
    match s.threads[i]? with
    | some (.outside _) => some { s with threads := s.threads.set i (.calling c) }
    | _ => none
  | .enter i expired =>
    match s.threads[i]? with
    | some p => p.entering.map fun c => enter s i p c expired
    | none => none
  | .wake i =>
    match s.threads[i]? with
    | some (.blocked c) => some { s with threads := s.threads.set i (.awake c) }
    | _ => none
  | .notify i j =>
    match s.threads[i]? with
    | some (.notifying c answer) =>
      (notifySide c.side.other (s.threads.set i (.outside (some answer))) j).map
        fun threads => { s with threads }
    | _ => none

/-- What a move can be. -/
inductive Step (s : State T) : Act T → State T → Prop where
  | call {i : ℕ} {c : Call T} {last : Option (Answer T)}
      (hi : s.threads[i]? = some (.outside last)) :
      Step s (.call i c) { s with threads := s.threads.set i (.calling c) }
  | operate {i : ℕ} {expired : Bool} {p : Phase T} {c : Call T} {t : State T} {answer : Answer T}
      (hi : s.threads[i]? = some p) (hp : p.entering = some c)
      (hop : operate s c = some (t, answer)) :
      Step s (.enter i expired) { t with threads := s.threads.set i (.notifying c answer) }
  | giveUp {i : ℕ} {expired : Bool} {p : Phase T} {c : Call T} (hi : s.threads[i]? = some p)
      (hp : p.entering = some c) (hop : operate s c = none) :
      Step s (.enter i expired) { s with threads := s.threads.set i (.outside (some .timedOut)) }
  | block {i : ℕ} {expired : Bool} {p : Phase T} {c : Call T} (hi : s.threads[i]? = some p)
      (hp : p.entering = some c) (hop : operate s c = none) :
      Step s (.enter i expired) { s with threads := s.threads.set i (.blocked c) }
  | wake {i : ℕ} {c : Call T} (hi : s.threads[i]? = some (.blocked c)) :
      Step s (.wake i) { s with threads := s.threads.set i (.awake c) }
  | notify {i j : ℕ} {c : Call T} {answer : Answer T} {ts : List (Phase T)}
      (hi : s.threads[i]? = some (.notifying c answer))
      (hn : notifySide c.side.other (s.threads.set i (.outside (some answer))) j = some ts) :
      Step s (.notify i j) { s with threads := ts }

theorem step_spec {s s' : State T} {a : Act T} (h : step s a = some s') : Step s a s' := by
  cases a with
  | call i c =>
    simp only [step] at h
    split at h
    next hi =>
      obtain rfl := Option.some.inj h
      exact .call hi
    next => cases h
  | enter i expired =>
    simp only [step] at h
    split at h
    next p hi =>
      obtain ⟨c, hp, rfl⟩ := Option.map_eq_some_iff.mp h
      unfold enter
      cases hop : operate s c with
      | some r => exact .operate hi hp hop
      | none =>
        dsimp only
        split_ifs
        · exact .giveUp hi hp hop
        · exact .block hi hp hop
    next => cases h
  | wake i =>
    simp only [step] at h
    split at h
    next hi =>
      obtain rfl := Option.some.inj h
      exact .wake hi
    next => cases h
  | notify i j =>
    simp only [step] at h
    split at h
    next hi =>
      obtain ⟨ts, hn, rfl⟩ := Option.map_eq_some_iff.mp h
      exact .notify hi hn
    next => cases h

/-! ## The invariant -/

/-- What a side waits for: consumers for items, producers for free slots. -/
def State.stock (s : State T) : Side → ℕ
  | .producer => s.Tcapacity - s.dq.length
  | .consumer => s.dq.length

/-- The rule for the wake-ups of a side. -/
def State.Served (s : State T) (side : Side) : Prop :=
  Supplied (Phase.blockedOn side) (Phase.notifiedOn side) (Phase.owes side) (s.stock side)
    s.threads

/-- The queue is a bounded FIFO queue. -/
structure Booked (capacity : ℕ) (s : State T) : Prop where
  capacity : s.Tcapacity = capacity
  bounded : s.dq.length ≤ s.Tcapacity
  order : s.enqueued = s.delivered ++ s.dq

/-- The invariant. -/
structure Inv (capacity : ℕ) (s : State T) : Prop extends Booked capacity s where
  served : ∀ side, s.Served side

/-! ### The operations -/

section Operations

variable {capacity : ℕ} {s t : State T} {c : Call T} {answer : Answer T}

/-- The wait's predicate fails because there is nothing for the side. -/
theorem stock_of_operate_none (h : operate s c = none) : s.stock c.side = 0 := by
  have hpush : ¬ s.dq.length < s.Tcapacity → s.Tcapacity - s.dq.length = 0 := by omega
  have hpop : s.dq = [] → s.dq.length = 0 := by
    intro hempty
    rw [hempty]
    rfl
  cases c with
  | tryPush val | push val =>
    simp only [operate] at h
    split_ifs at h with hlt
    exact hpush hlt
  | tryPop | pop =>
    simp only [operate] at h
    split at h
    next hempty => exact hpop hempty
    next => cases h

/-- What an operation does to the queue. -/
inductive Operated (s t : State T) : Side → Prop where
  | push {val : T} (hlt : s.dq.length < s.Tcapacity)
      (ht : t = { s with dq := s.dq ++ [val], enqueued := s.enqueued ++ [val] }) :
      Operated s t .producer
  | pop {val : T} {dq : List T} (hdq : s.dq = val :: dq)
      (ht : t = { s with dq := dq, delivered := s.delivered ++ [val] }) :
      Operated s t .consumer

theorem operated_of_operate (h : operate s c = some (t, answer)) : Operated s t c.side := by
  cases c with
  | tryPush val | push val =>
    simp only [operate] at h
    split_ifs at h with hlt
    exact .push hlt (congrArg Prod.fst (Option.some.inj h)).symm
  | tryPop | pop =>
    simp only [operate] at h
    split at h
    next => cases h
    next hdq => exact .pop hdq (congrArg Prod.fst (Option.some.inj h)).symm

theorem ne_timedOut_of_operate (h : operate s c = some (t, answer)) : answer ≠ .timedOut := by
  rintro rfl
  cases c with
  | tryPush val | push val =>
    simp only [operate] at h
    split_ifs at h
    cases h
  | tryPop | pop =>
    simp only [operate] at h
    split at h
    next => cases h
    next => cases h

/-- A push appends below the bound, a pop takes the oldest value. -/
theorem Booked.operated {side : Side} (h : Booked capacity s) (hop : Operated s t side) :
    Booked capacity t := by
  cases hop with
  | push hlt ht =>
    subst ht
    refine ⟨h.capacity, ?_, ?_⟩
    · show (s.dq ++ [_]).length ≤ s.Tcapacity
      rw [List.length_append, List.length_singleton]
      exact hlt
    · show s.enqueued ++ [_] = s.delivered ++ (s.dq ++ [_])
      rw [h.order, List.append_assoc]
  | pop hdq ht =>
    subst ht
    have hbounded := h.bounded
    have horder := h.order
    rw [hdq, List.length_cons] at hbounded
    rw [hdq] at horder
    refine ⟨h.capacity, Nat.le_of_succ_le hbounded, ?_⟩
    show s.enqueued = s.delivered ++ [_] ++ _
    rw [horder, List.append_assoc, List.singleton_append]

/-- An operation takes one unit of its own side's stock and gives one to the other side. -/
theorem stock_operated {side : Side} (h : Booked capacity s) (hop : Operated s t side) :
    t.stock side + 1 = s.stock side ∧ t.stock side.other = s.stock side.other + 1 := by
  have hbounded := h.bounded
  cases hop with
  | push hlt ht =>
    subst ht
    constructor
    · show s.Tcapacity - (s.dq ++ [_]).length + 1 = s.Tcapacity - s.dq.length
      rw [List.length_append, List.length_singleton]
      omega
    · exact List.length_append
  | @pop val dq hdq ht =>
    subst ht
    rw [hdq, List.length_cons] at hbounded
    constructor
    · exact (congrArg List.length hdq).symm
    · show s.Tcapacity - dq.length = s.Tcapacity - s.dq.length + 1
      rw [hdq, List.length_cons]
      omega

end Operations

/-! ### The moves -/

section Moves

variable {capacity i j : ℕ} {s s' : State T} {p q : Phase T} {c : Call T} {side : Side}

/-- A thread moves outside of the critical section. -/
theorem State.Served.set (h : s.Served side) (hi : s.threads[i]? = some p)
    (hq : q.blockedOn side = false)
    (hshare : share (Phase.notifiedOn side) (Phase.owes side) p
      ≤ share (Phase.notifiedOn side) (Phase.owes side) q) :
    State.Served { s with threads := s.threads.set i q } side :=
  Supplied.set h hi hq (Nat.add_le_add_left hshare _)

/-- A thread that enters the critical section covers a unit of its own side at most. -/
theorem share_entering_le (hp : p.entering = some c) :
    share (Phase.notifiedOn c.side) (Phase.owes c.side) p ≤ 1 := by
  cases p with
  | notified d =>
    show (if _ then 1 else 0) + 0 ≤ 1
    split_ifs <;> decide
  | calling d | awake d => exact Nat.zero_le _
  | _ => cases hp

theorem share_entering_other (hp : p.entering = some c) :
    share (Phase.notifiedOn c.side.other) (Phase.owes c.side.other) p = 0 := by
  cases p with
  | notified d =>
    obtain rfl : d = c := Option.some.inj hp
    cases d <;> rfl
  | calling d | awake d => rfl
  | _ => cases hp

theorem share_notifying (c : Call T) (answer : Answer T) :
    share (Phase.notifiedOn c.side.other) (Phase.owes c.side.other) (.notifying c answer) = 1 := by
  simp [share, Phase.notifiedOn, Phase.owes]

theorem Side.eq_or_eq_other (side own : Side) : side = own ∨ side = own.other := by
  cases side <;> cases own <;> simp [Side.other]

/-- A thread that waits in vain does not cover anything that is needed. -/
theorem State.Served.vain (h : s.Served side) (hi : s.threads[i]? = some p)
    (hp : p.entering = some c) (hop : operate s c = none)
    (hq : q.blockedOn c.side.other = false) :
    State.Served { s with threads := s.threads.set i q } side := by
  rcases side.eq_or_eq_other c.side with rfl | rfl
  · have hstock : s.stock c.side = 0 := stock_of_operate_none hop
    exact Supplied.of_eq_zero hstock
  · apply h.set hi hq
    rw [share_entering_other hp]
    exact Nat.zero_le _

theorem Inv.operate {t : State T} {answer : Answer T} (h : Inv capacity s)
    (hi : s.threads[i]? = some p) (hp : p.entering = some c)
    (hop : operate s c = some (t, answer)) :
    Inv capacity { t with threads := s.threads.set i (.notifying c answer) } := by
  have hoperated := operated_of_operate hop
  obtain ⟨hown, hother⟩ := stock_operated h.toBooked hoperated
  have hbooked := h.toBooked.operated hoperated
  refine ⟨⟨hbooked.capacity, hbooked.bounded, hbooked.order⟩, fun side => ?_⟩
  rcases side.eq_or_eq_other c.side with rfl | rfl
  · apply Supplied.set (h.served c.side) hi rfl
    have hle := share_entering_le hp
    show t.stock c.side + _ ≤ _
    omega
  · apply Supplied.set (h.served c.side.other) hi rfl
    show t.stock c.side.other + _ ≤ _
    rw [share_entering_other hp, share_notifying, hother]

/-- A sleeper of a side that is notified covers one unit more. -/
theorem share_rouse (hp : p.blockedOn side = true) :
    share (Phase.notifiedOn side) (Phase.owes side) p.rouse
      = share (Phase.notifiedOn side) (Phase.owes side) p + 1 := by
  cases p with
  | blocked c =>
    have hside : c.side = side := of_decide_eq_true hp
    simp [share, Phase.rouse, Phase.notifiedOn, Phase.owes, hside]
  | _ => cases hp

theorem rouse_other (hp : p.blockedOn side.other = true) :
    p.rouse.blockedOn side = false ∧
      share (Phase.notifiedOn side) (Phase.owes side) p.rouse
        = share (Phase.notifiedOn side) (Phase.owes side) p := by
  cases p with
  | blocked c =>
    have hside : c.side = side.other := of_decide_eq_true hp
    have hne : c.side ≠ side := by
      rw [hside]
      cases side <;> exact Side.noConfusion
    exact ⟨rfl, by simp [share, Phase.rouse, Phase.notifiedOn, Phase.owes, hne]⟩
  | _ => cases hp

theorem Inv.notify {answer : Answer T} {ts : List (Phase T)} (h : Inv capacity s)
    (hi : s.threads[i]? = some (.notifying c answer))
    (hn : notifySide c.side.other (s.threads.set i (.outside (some answer))) j = some ts) :
    Inv capacity { s with threads := ts } := by
  refine ⟨⟨h.capacity, h.bounded, h.order⟩, fun side => ?_⟩
  rcases side.eq_or_eq_other c.side with rfl | rfl
  · -- the thread covered nothing of its own side, and the sleepers of the other do not matter
    have hown : share (Phase.notifiedOn c.side) (Phase.owes c.side) (.notifying c answer) = 0 := by
      cases c <;> rfl
    refine Supplied.notifyOne_other ((h.served c.side).set hi rfl ?_) (fun p hp => ?_) hn
    · rw [hown]
      exact Nat.zero_le _
    · exact rouse_other hp
  · -- the sleeper that is woken covers what the thread has covered so far
    refine Supplied.notifyOne (fun hsleeps => ?_) (fun p hp => share_rouse hp) hn
    obtain ⟨q, hq, hblocked⟩ := hsleeps
    have hne : q ≠ .outside (some answer) := by
      rintro rfl
      cases hblocked
    have hcover := h.served c.side.other ⟨q, mem_of_mem_set hq hne, hblocked⟩
    have hset := cover_set (Phase.notifiedOn c.side.other) (Phase.owes c.side.other) hi
      (.outside (some answer))
    have hnone : share (Phase.notifiedOn c.side.other) (Phase.owes c.side.other)
        (.outside (some answer) : Phase T) = 0 := rfl
    rw [share_notifying, hnone] at hset
    show s.stock c.side.other ≤ _
    omega

/-- **Every move keeps the invariant.** -/
theorem Inv.step {a : Act T} (h : Inv capacity s) (hs : Step s a s') : Inv capacity s' := by
  have hsame : ∀ threads, Booked capacity { s with threads } :=
    fun _ => ⟨h.capacity, h.bounded, h.order⟩
  cases hs with
  | call hi => exact ⟨hsame _, fun side => (h.served side).set hi rfl le_rfl⟩
  | operate hi hp hop => exact h.operate hi hp hop
  | giveUp hi hp hop => exact ⟨hsame _, fun side => (h.served side).vain hi hp hop rfl⟩
  | @block _ _ _ c hi hp hop =>
    refine ⟨hsame _, fun side => (h.served side).vain hi hp hop ?_⟩
    cases c <;> rfl
  | wake hi => exact ⟨hsame _, fun side => (h.served side).set hi rfl le_rfl⟩
  | notify hi hn => exact h.notify hi hn

theorem inv_start (capacity n : ℕ) : Inv capacity (start T capacity n) := by
  refine ⟨⟨rfl, Nat.zero_le _, rfl⟩, fun side hblocked => ?_⟩
  obtain ⟨p, hp, hasleep⟩ := hblocked
  rw [List.eq_of_mem_replicate hp] at hasleep
  cases hasleep

end Moves

/-! ## Calls that time out -/

section TimedOut

variable {i j : ℕ} {s s' : State T} {p : Phase T}

/-- The thread's call has operated on the queue: it is about to notify, or has returned something
else than a timeout. -/
def Phase.Operated : Phase T → Prop
  | .notifying _ answer => answer ≠ .timedOut
  | .outside (some answer) => answer ≠ .timedOut
  | _ => False

/-- A move that changes the queue is the operation of the thread that moves. -/
theorem operated_of_dq_ne {a : Act T} (h : Step s a s') (hdq : s'.dq ≠ s.dq) :
    ∃ p, s'.threads[a.thread]? = some p ∧ p.Operated := by
  cases h with
  | operate hi _ hop =>
    have hlt := (List.getElem?_eq_some_iff.mp hi).1
    exact ⟨_, List.getElem?_set_self hlt, ne_timedOut_of_operate hop⟩
  | _ => exact absurd rfl hdq

theorem Phase.Operated.not_blockedOn (hp : p.Operated) (side : Side) :
    p.blockedOn side = false := by
  cases p with
  | notifying c answer => rfl
  | outside last => rfl
  | _ => exact hp.elim

theorem Phase.Operated.entering_eq (hp : p.Operated) : p.entering = none := by
  cases p with
  | notifying c answer => rfl
  | outside last => rfl
  | _ => exact hp.elim

/-- Until the next call of the thread, its call stays one that has operated. -/
theorem operated_step {a : Act T} (hi : ∃ p, s.threads[i]? = some p ∧ p.Operated)
    (hcall : ∀ c, a ≠ .call i c) (hs : Step s a s') :
    ∃ p, s'.threads[i]? = some p ∧ p.Operated := by
  obtain ⟨p, hi, hp⟩ := hi
  have hset (q : Phase T) {k : ℕ} (hk : k ≠ i) : (s.threads.set k q)[i]? = some p :=
    (List.getElem?_set_ne hk).trans hi
  have henter {k : ℕ} {q : Phase T} {c : Call T} (hk : s.threads[k]? = some q)
      (hq : q.entering = some c) : k ≠ i := by
    rintro rfl
    obtain rfl : p = q := Option.some.inj (hi.symm.trans hk)
    rw [hp.entering_eq] at hq
    cases hq
  cases hs with
  | @call k c _ _ => exact ⟨p, hset _ fun hk => hcall c (by rw [hk]), hp⟩
  | operate hk hq _ => exact ⟨p, hset _ (henter hk hq), hp⟩
  | giveUp hk hq _ => exact ⟨p, hset _ (henter hk hq), hp⟩
  | block hk hq _ => exact ⟨p, hset _ (henter hk hq), hp⟩
  | @wake k c hk =>
    refine ⟨p, hset _ ?_, hp⟩
    rintro rfl
    obtain rfl : p = .blocked c := Option.some.inj (hi.symm.trans hk)
    exact hp
  | @notify k _ _ answer _ hk hn =>
    by_cases hki : k = i
    · -- the thread itself returns
      subst hki
      obtain rfl := Option.some.inj (hi.symm.trans hk)
      have hlt := (List.getElem?_eq_some_iff.mp hk).1
      exact ⟨_, getElem?_notifyOne (List.getElem?_set_self hlt) rfl hn, hp⟩
    · exact ⟨p, getElem?_notifyOne (hset _ hki) (hp.not_blockedOn _) hn, hp⟩

/-- The move is not one by which thread `i` changes the queue. -/
def KeepsQueue (i : ℕ) (s : State T) (a : Act T) : Prop :=
  a.thread = i → ∀ s', step s a = some s' → s'.dq = s.dq

/-- **A call that times out has not touched the queue.**  If a thread makes no further call and has
timed out in the end, none of its moves changes the queue. -/
theorem timedOut_keepsQueue {moves : List (Act T)} (hrun : run step s moves = some s')
    (hcall : ∀ c, .call i c ∉ moves)
    (hout : s'.threads[i]? = some (.outside (some .timedOut))) :
    Along step (KeepsQueue i) s moves := by
  induction moves generalizing s with
  | nil => exact along_nil step _ s
  | cons a moves ih =>
    rw [run_cons, Option.bind_eq_some_iff] at hrun
    obtain ⟨t, ht, hrun⟩ := hrun
    have hrest : ∀ c, .call i c ∉ moves := fun c hmem => hcall c (List.mem_cons_of_mem a hmem)
    rw [along_cons]
    constructor
    · rintro rfl u hu
      obtain rfl : t = u := Option.some.inj (ht.symm.trans hu)
      by_contra hdq
      -- otherwise the call has operated, and stays one that has
      have hoperated : ∃ p, s'.threads[a.thread]? = some p ∧ p.Operated := by
        refine @run_invariant_along _ _ step (fun _ b => ∀ c, b ≠ .call a.thread c)
          (fun u => ∃ p, u.threads[a.thread]? = some p ∧ p.Operated) ?_ t s' moves
          (operated_of_dq_ne (step_spec ht) hdq) ?_ hrun
        · exact fun u b u' hu hb hstep => operated_step hu hb (step_spec hstep)
        · intro done b rest _ hmoves _ c hb
          apply hrest c
          rw [hmoves, ← hb]
          exact List.mem_append_right done List.mem_cons_self
      obtain ⟨p, hp, hop⟩ := hoperated
      obtain rfl := Option.some.inj (hout.symm.trans hp)
      exact hop rfl
    · rintro u hu
      obtain rfl : t = u := Option.some.inj (ht.symm.trans hu)
      exact ih hrun hrest

end TimedOut

/-! ## The result -/

/-- **The bounded blocking queue is correct.**  After every schedule the queue is within its
capacity and the values delivered are, in order, the first of those enqueued; from there on, a
thread that makes no further call and times out does not change the queue; and no wake-up is lost
on either side. -/
theorem boundedQueue_correct {capacity n : ℕ} {moves : List (Act T)} {s : State T}
    (hrun : run step (start T capacity n) moves = some s) :
    s.dq.length ≤ capacity ∧ s.delivered <+: s.enqueued ∧
      (∀ i later s', run step s later = some s' → (∀ c, .call i c ∉ later) →
        s'.threads[i]? = some (.outside (some .timedOut)) →
        Along step (KeepsQueue i) s later) ∧
      ((∃ p ∈ s.threads, p.blockedOn .consumer) →
        s.dq.length ≤ s.threads.countP (Phase.notifiedOn .consumer)
          + s.threads.countP (Phase.owes .consumer)) ∧
      ((∃ p ∈ s.threads, p.blockedOn .producer) →
        capacity - s.dq.length ≤ s.threads.countP (Phase.notifiedOn .producer)
          + s.threads.countP (Phase.owes .producer)) := by
  have hinv : Inv capacity s :=
    run_invariant (fun _ _ _ ht hstep => ht.step (step_spec hstep)) (inv_start capacity n) hrun
  have hbounded := hinv.bounded
  have hproducer : s.stock .producer = capacity - s.dq.length := by
    rw [← hinv.capacity]
    rfl
  refine ⟨hinv.capacity ▸ hbounded, ?_, ?_, hinv.served .consumer, ?_⟩
  · rw [hinv.order]
    exact List.prefix_append _ _
  · intro i later s' hlater hcall hout
    exact timedOut_keepsQueue hlater hcall hout
  · rw [← hproducer]
    exact hinv.served .producer

/-- A schedule with capacity 1: a consumer sleeps on the empty queue and is notified by the first
push, a second producer times out, and another consumer is faster than the first. -/
def overtaken : List (Act ℕ) :=
  [.call 0 .pop, .enter 0 false, .call 1 (.push 7), .enter 1 false, .notify 1 0,
    .call 2 (.tryPush 8), .enter 2 false, .wake 2, .enter 2 true, .call 3 .pop, .enter 3 false]

theorem boundedQueue_correct_overtaken :
    ∃ s, run step (start ℕ 1 4) overtaken = some s ∧
      s.threads[2]? = some (.outside (some .timedOut)) ∧ s.delivered = [7] ∧
      s.dq.length ≤ 1 ∧ s.delivered <+: s.enqueued := by
  have hrun : ∃ s, run step (start ℕ 1 4) overtaken = some s := ⟨_, rfl⟩
  obtain ⟨s, hs⟩ := hrun
  obtain ⟨hbounded, horder, -⟩ := boundedQueue_correct hs
  refine ⟨s, hs, ?_, ?_, hbounded, horder⟩
  · obtain rfl := Option.some.inj hs
    rfl
  · obtain rfl := Option.some.inj hs
    rfl

end BlockingQueues
