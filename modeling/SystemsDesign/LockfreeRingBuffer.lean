/-
# The lock-free ring buffer of one producer and one consumer

Model of `concurrency/Lockfree_RingBuffer.cpp` and of `CAS/LockFree_SPSC_RingBuffer.cpp`, which has
the same steps for eight slots under other names (`write_pos` for `tail`, `read_pos` for `head`).

A step of a thread is one access to what the threads share: a load of an index, an access to a slot,
the store that publishes the new index.  Steps of the two threads interleave freely.
-/
import SystemsDesign.TransitionSystem
import SystemsDesign.RingWindow

namespace RingBuffers

open TransitionSystem RingWindow

variable {T : Type*}

/-! ## The source -/

/-- Where the producer stands in `push`: what it does next, and its local variables. -/
inductive Producer (T : Type*) where
  | idle
  | loadHead (item : T) (currTail : ℕ)
  | write (item : T) (currTail : ℕ)
  | publish (item : T) (currTail : ℕ)
  deriving DecidableEq, Repr

/-- Where the consumer stands in `pop`. -/
inductive Consumer (T : Type*) where
  | idle
  | loadTail (currHead : ℕ)
  | read (currHead : ℕ)
  | publish (item : T) (currHead : ℕ)
  deriving DecidableEq, Repr

/-- The ring and the two threads, with the values pushed and popped successfully so far, in order,
and the numbers of calls that returned false. -/
structure State (T : Type*) where
  buffer : List T
  capacity : ℕ
  head : ℕ := 0
  tail : ℕ := 0
  producer : Producer T := .idle
  consumer : Consumer T := .idle
  pushed : List T := []
  popped : List T := []
  failedPushes : ℕ := 0
  failedPops : ℕ := 0
  deriving DecidableEq, Repr

/-- A thread calls, or takes the next step of its call. -/
inductive Action (T : Type*) where
  | push (item : T)
  | producer
  | pop
  | consumer
  deriving DecidableEq, Repr

/-- The next step of the producer's call.  There is none when it is not in a call, nor where it
would write outside the buffer. -/
def producerStep (s : State T) : Option (State T) :=
  match s.producer with
  | .idle => none
  | .loadHead item currTail =>
    if (currTail + 1) % s.capacity = s.head then
      some { s with producer := .idle, failedPushes := s.failedPushes + 1 }
    else some { s with producer := .write item currTail }
  | .write item currTail =>
    if currTail < s.buffer.length then
      some { s with buffer := s.buffer.set currTail item, producer := .publish item currTail }
    else none
  | .publish item currTail =>
    some { s with
      tail := (currTail + 1) % s.capacity
      producer := .idle
      pushed := s.pushed ++ [item] }

/-- The next step of the consumer's call. -/
def consumerStep (s : State T) : Option (State T) :=
  match s.consumer with
  | .idle => none
  | .loadTail currHead =>
    if currHead = s.tail then
      some { s with consumer := .idle, failedPops := s.failedPops + 1 }
    else some { s with consumer := .read currHead }
  | .read currHead =>
    (s.buffer[currHead]?).map fun item => { s with consumer := .publish item currHead }
  | .publish item currHead =>
    some { s with
      head := (currHead + 1) % s.capacity
      consumer := .idle
      popped := s.popped ++ [item] }

/-- One step.  A call starts with the load of the thread's own index. -/
def step (s : State T) : Action T → Option (State T)
  | .push item =>
    match s.producer with
    | .idle => some { s with producer := .loadHead item s.tail }
    | _ => none
  | .producer => producerStep s
  | .pop =>
    match s.consumer with
    | .idle => some { s with consumer := .loadTail s.head }
    | _ => none
  | .consumer => consumerStep s

/-- What the steps do, one case for each access of the source. -/
inductive Step (s : State T) : Action T → State T → Prop where
  | push (item : T) (hphase : s.producer = .idle) :
    Step s (.push item) { s with producer := .loadHead item s.tail }
  | loadHeadFull {item : T} {currTail : ℕ} (hphase : s.producer = .loadHead item currTail)
      (hfull : (currTail + 1) % s.capacity = s.head) :
    Step s .producer { s with producer := .idle, failedPushes := s.failedPushes + 1 }
  | loadHead {item : T} {currTail : ℕ} (hphase : s.producer = .loadHead item currTail)
      (hroom : (currTail + 1) % s.capacity ≠ s.head) :
    Step s .producer { s with producer := .write item currTail }
  | write {item : T} {currTail : ℕ} (hphase : s.producer = .write item currTail)
      (hinside : currTail < s.buffer.length) :
    Step s .producer
      { s with buffer := s.buffer.set currTail item, producer := .publish item currTail }
  | publishTail {item : T} {currTail : ℕ} (hphase : s.producer = .publish item currTail) :
    Step s .producer { s with
      tail := (currTail + 1) % s.capacity, producer := .idle, pushed := s.pushed ++ [item] }
  | pop (hphase : s.consumer = .idle) : Step s .pop { s with consumer := .loadTail s.head }
  | loadTailEmpty {currHead : ℕ} (hphase : s.consumer = .loadTail currHead)
      (hempty : currHead = s.tail) :
    Step s .consumer { s with consumer := .idle, failedPops := s.failedPops + 1 }
  | loadTail {currHead : ℕ} (hphase : s.consumer = .loadTail currHead) (hne : currHead ≠ s.tail) :
    Step s .consumer { s with consumer := .read currHead }
  | read {item : T} {currHead : ℕ} (hphase : s.consumer = .read currHead)
      (hitem : s.buffer[currHead]? = some item) :
    Step s .consumer { s with consumer := .publish item currHead }
  | publishHead {item : T} {currHead : ℕ} (hphase : s.consumer = .publish item currHead) :
    Step s .consumer { s with
      head := (currHead + 1) % s.capacity, consumer := .idle, popped := s.popped ++ [item] }

theorem producerStep_spec {s s' : State T} (h : producerStep s = some s') :
    Step s .producer s' := by
  rw [producerStep] at h
  split at h
  · cases h
  · next hphase =>
    split_ifs at h with hfull
    · exact Option.some.inj h ▸ .loadHeadFull hphase hfull
    · exact Option.some.inj h ▸ .loadHead hphase hfull
  · next hphase =>
    split_ifs at h with hinside
    exact Option.some.inj h ▸ .write hphase hinside
  · next hphase => exact Option.some.inj h ▸ .publishTail hphase

theorem consumerStep_spec {s s' : State T} (h : consumerStep s = some s') :
    Step s .consumer s' := by
  rw [consumerStep] at h
  split at h
  · cases h
  · next hphase =>
    split_ifs at h with hempty
    · exact Option.some.inj h ▸ .loadTailEmpty hphase hempty
    · exact Option.some.inj h ▸ .loadTail hphase hempty
  · next hphase =>
    obtain ⟨item, hitem, rfl⟩ := Option.map_eq_some_iff.mp h
    exact .read hphase hitem
  · next hphase => exact Option.some.inj h ▸ .publishHead hphase

theorem step_spec {s s' : State T} {a : Action T} (h : step s a = some s') : Step s a s' := by
  cases a with
  | push item =>
    rw [step] at h
    split at h
    · next hphase => exact Option.some.inj h ▸ .push item hphase
    · cases h
  | producer => exact producerStep_spec h
  | pop =>
    rw [step] at h
    split at h
    · next hphase => exact Option.some.inj h ▸ .pop hphase
    · cases h
  | consumer => exact consumerStep_spec h

/-- The constructor of `Lockfree_RingBuffer`. -/
def LockfreeRingBuffer.new [Inhabited T] (size : ℕ) : State T :=
  { buffer := List.replicate size default, capacity := size }

/-- `BUFFER_SIZE` of `SPSC_Queue`. -/
def bufferSize : ℕ := 8

/-- A new `SPSC_Queue`; its array is not initialised. -/
def SPSCQueue.new (contents : Fin bufferSize → ℤ) : State ℤ :=
  { buffer := List.ofFn contents, capacity := bufferSize }

/-! ## What the buffer is for -/

/-- The buffer holds as many items as it can. -/
def Full (s : State T) : Prop := s.pushed.length = s.popped.length + (s.capacity - 1)

/-- The buffer holds no item. -/
def Empty (s : State T) : Prop := s.pushed.length = s.popped.length

/-- A bounded queue of one producer and one consumer. -/
structure BoundedFifo (s : State T) : Prop where
  inOrder : s.popped <+: s.pushed
  bounded : s.pushed.length - s.popped.length ≤ s.capacity - 1
  occupancy : (s.tail + s.capacity - s.head) % s.capacity = s.pushed.length - s.popped.length
  apart : ∀ item i j, s.producer = .write item i → s.consumer = .read j → i ≠ j
  writeInside : ∀ item i, s.producer = .write item i → i < s.buffer.length
  readInside : ∀ j, s.consumer = .read j → j < s.buffer.length
  pushFails : ∀ a s', step s a = some s' → s'.failedPushes ≠ s.failedPushes →
    Full s ∧ ∃ item i, a = .producer ∧ s.producer = .loadHead item i
  popFails : ∀ a s', step s a = some s' → s'.failedPops ≠ s.failedPops →
    Empty s ∧ ∃ j, a = .consumer ∧ s.consumer = .loadTail j

/-! ## The invariant

The tail is at the position after the last value pushed, the head after the last one popped. -/

/-- The values that are in their slots: a value is written before it is published. -/
def written (s : State T) : List T :=
  match s.producer with
  | .publish item _ => s.pushed ++ [item]
  | _ => s.pushed

/-- What the producer knows. -/
def ProducerOk (s : State T) : Prop :=
  match s.producer with
  | .idle => True
  | .loadHead _ currTail => currTail = s.tail
  | .write _ currTail | .publish _ currTail =>
    currTail = s.tail ∧ s.pushed.length + 1 < s.popped.length + s.capacity

/-- What the consumer knows. -/
def ConsumerOk (s : State T) : Prop :=
  match s.consumer with
  | .idle => True
  | .loadTail currHead => currHead = s.head
  | .read currHead => currHead = s.head ∧ s.popped.length < s.pushed.length
  | .publish item currHead => currHead = s.head ∧ s.pushed[s.popped.length]? = some item

/-- The invariant of the ring. -/
structure Valid (s : State T) : Prop where
  capacity_pos : 1 ≤ s.capacity
  length_eq : s.buffer.length = s.capacity
  head_eq : s.head = s.popped.length % s.capacity
  tail_eq : s.tail = s.pushed.length % s.capacity
  inOrder : s.popped <+: s.pushed
  bounded : s.pushed.length < s.popped.length + s.capacity
  window : Window s.buffer (written s) s.popped.length
  producer : ProducerOk s
  consumer : ConsumerOk s

theorem Valid.start {buffer : List T} {capacity : ℕ} (h : 1 ≤ capacity)
    (hlength : buffer.length = capacity) :
    Valid ({ buffer := buffer, capacity := capacity } : State T) where
  capacity_pos := h
  length_eq := hlength
  head_eq := (Nat.zero_mod _).symm
  tail_eq := (Nat.zero_mod _).symm
  inOrder := List.prefix_rfl
  bounded := by simp; omega
  window := window_nil buffer
  producer := trivial
  consumer := trivial

variable {s s' : State T}

theorem Valid.length_le (h : Valid s) : s.popped.length ≤ s.pushed.length := h.inOrder.length_le

/-- The test of `push`: the next tail is at the head exactly if the buffer is full. -/
theorem Valid.next_tail_eq_head_iff (h : Valid s) :
    (s.tail + 1) % s.capacity = s.head ↔ Full s := by
  have hle := h.length_le
  have hpos := h.capacity_pos
  have hbounded := h.bounded
  rw [Full, h.tail_eq, h.head_eq, Nat.mod_add_mod]
  constructor
  · intro heq
    rw [← Nat.add_mod_right s.popped.length] at heq
    have := eq_of_mod_eq (s.popped.length + 1) (by omega) (by omega) (by omega) (by omega) heq
    omega
  · intro hfull
    rw [hfull, ← Nat.add_mod_right s.popped.length]
    congr 1
    omega

/-- The test of `pop`: the head is at the tail exactly if the buffer is empty. -/
theorem Valid.head_eq_tail_iff (h : Valid s) : s.head = s.tail ↔ Empty s := by
  rw [Empty, h.tail_eq, h.head_eq]
  constructor
  · intro heq
    exact (eq_of_mod_eq s.popped.length le_rfl (Nat.lt_add_of_pos_right h.capacity_pos)
      h.length_le h.bounded heq).symm
  · intro heq
    rw [heq]

/-! ### The steps of `push` -/

theorem Valid.push (h : Valid s) (hphase : s.producer = .idle) (item : T) :
    Valid { s with producer := .loadHead item s.tail } := by
  have hwindow := h.window
  rw [written, hphase] at hwindow
  exact { h with window := hwindow, producer := rfl }

theorem Valid.loadHeadFull (h : Valid s) {item : T} {currTail : ℕ}
    (hphase : s.producer = .loadHead item currTail) :
    Valid { s with producer := .idle, failedPushes := s.failedPushes + 1 } := by
  have hwindow := h.window
  rw [written, hphase] at hwindow
  exact { h with window := hwindow, producer := trivial }

/-- The head was not at the next tail, and the consumer only makes more room. -/
theorem Valid.loadHead (h : Valid s) {item : T} {currTail : ℕ}
    (hphase : s.producer = .loadHead item currTail)
    (hroom : (currTail + 1) % s.capacity ≠ s.head) :
    Valid { s with producer := .write item currTail } := by
  have hwindow := h.window
  rw [written, hphase] at hwindow
  have htail := h.producer
  rw [ProducerOk, hphase] at htail
  have hnot : ¬ Full s := by
    rw [← h.next_tail_eq_head_iff]
    exact htail ▸ hroom
  rw [Full] at hnot
  have hle := h.length_le
  have hpos := h.capacity_pos
  have hbounded := h.bounded
  exact { h with window := hwindow, producer := ⟨htail, by dsimp only; omega⟩ }

/-- The slot at the tail is outside the window, so that nothing the consumer may read changes. -/
theorem Valid.write (h : Valid s) {item : T} {currTail : ℕ}
    (hphase : s.producer = .write item currTail) :
    Valid { s with
      buffer := s.buffer.set currTail item, producer := .publish item currTail } := by
  have hwindow := h.window
  rw [written, hphase] at hwindow
  have hproducer := h.producer
  rw [ProducerOk, hphase] at hproducer
  obtain ⟨htail, hroom⟩ := hproducer
  have hslot : currTail = s.pushed.length % s.buffer.length := by
    rw [htail, h.tail_eq, h.length_eq]
  have hlt : s.pushed.length < s.popped.length + s.buffer.length := by
    rw [h.length_eq]
    exact h.bounded
  refine { h with
    length_eq := (List.length_set ..).trans h.length_eq
    window := ?_
    producer := ⟨htail, hroom⟩ }
  rw [hslot]
  exact hwindow.write h.length_le hlt item

/-- What the consumer knows stays true when a value is pushed. -/
theorem ConsumerOk.push (h : ConsumerOk s) {t : State T} (hconsumer : t.consumer = s.consumer)
    (hhead : t.head = s.head) (hpopped : t.popped = s.popped) {item : T}
    (hpushed : t.pushed = s.pushed ++ [item]) : ConsumerOk t := by
  rw [ConsumerOk] at h ⊢
  rw [hconsumer, hhead, hpopped, hpushed]
  cases hphase : s.consumer with
  | idle => trivial
  | loadTail currHead =>
    rw [hphase] at h
    exact h
  | read currHead =>
    rw [hphase] at h
    refine ⟨h.1, ?_⟩
    rw [List.length_append]
    exact Nat.lt_add_right _ h.2
  | publish v currHead =>
    rw [hphase] at h
    obtain ⟨hlt, -⟩ := List.getElem?_eq_some_iff.mp h.2
    exact ⟨h.1, (List.getElem?_append_left hlt).trans h.2⟩

/-- The value becomes visible. -/
theorem Valid.publishTail (h : Valid s) {item : T} {currTail : ℕ}
    (hphase : s.producer = .publish item currTail) :
    Valid { s with
      tail := (currTail + 1) % s.capacity, producer := .idle, pushed := s.pushed ++ [item] } := by
  have hwindow := h.window
  rw [written, hphase] at hwindow
  have hproducer := h.producer
  rw [ProducerOk, hphase] at hproducer
  obtain ⟨htail, hroom⟩ := hproducer
  refine { h with
    tail_eq := ?_
    inOrder := h.inOrder.trans (List.prefix_append ..)
    bounded := ?_
    window := hwindow
    producer := trivial
    consumer := h.consumer.push rfl rfl rfl rfl }
  · rw [htail, h.tail_eq, Nat.mod_add_mod, List.length_append, List.length_singleton]
  · rw [List.length_append, List.length_singleton]
    exact hroom

/-! ### The steps of `pop` -/

theorem Valid.pop (h : Valid s) : Valid { s with consumer := .loadTail s.head } :=
  { h with consumer := rfl }

theorem Valid.loadTailEmpty (h : Valid s) :
    Valid { s with consumer := .idle, failedPops := s.failedPops + 1 } :=
  { h with consumer := trivial }

/-- The tail was not at the head, and the producer only adds values. -/
theorem Valid.loadTail (h : Valid s) {currHead : ℕ} (hphase : s.consumer = .loadTail currHead)
    (hne : currHead ≠ s.tail) : Valid { s with consumer := .read currHead } := by
  have hhead := h.consumer
  rw [ConsumerOk, hphase] at hhead
  have hnot : ¬ Empty s := by
    rw [← h.head_eq_tail_iff]
    exact hhead ▸ hne
  rw [Empty] at hnot
  have hle := h.length_le
  exact { h with consumer := ⟨hhead, by dsimp only; omega⟩ }

theorem Valid.slot_head (h : Valid s) (hlt : s.popped.length < s.pushed.length) :
    s.buffer[s.head]? = s.pushed[s.popped.length]? := by
  have hwindow := h.window
  rw [h.head_eq, ← h.length_eq]
  rw [written] at hwindow
  split at hwindow
  · rw [hwindow.read (by rw [List.length_append]; omega), List.getElem?_append_left hlt]
  · exact hwindow.read hlt

theorem Valid.read (h : Valid s) {currHead : ℕ} (hphase : s.consumer = .read currHead) {item : T}
    (hitem : s.buffer[currHead]? = some item) :
    Valid { s with consumer := .publish item currHead } := by
  have hconsumer := h.consumer
  rw [ConsumerOk, hphase] at hconsumer
  obtain ⟨hhead, hlt⟩ := hconsumer
  refine { h with consumer := ⟨hhead, ?_⟩ }
  dsimp only
  rw [← h.slot_head hlt, ← hhead, hitem]

/-- What the producer knows stays true when a value is popped. -/
theorem ProducerOk.pop (h : ProducerOk s) {t : State T} (hproducer : t.producer = s.producer)
    (htail : t.tail = s.tail) (hpushed : t.pushed = s.pushed) (hcapacity : t.capacity = s.capacity)
    (hpopped : s.popped.length ≤ t.popped.length) : ProducerOk t := by
  rw [ProducerOk] at h ⊢
  rw [hproducer, htail, hpushed, hcapacity]
  cases hphase : s.producer with
  | idle => trivial
  | loadHead item currTail =>
    rw [hphase] at h
    exact h
  | write item currTail =>
    rw [hphase] at h
    exact ⟨h.1, by omega⟩
  | publish item currTail =>
    rw [hphase] at h
    exact ⟨h.1, by omega⟩

theorem prefix_concat {l vs : List T} (h : l <+: vs) {v : T} (hv : vs[l.length]? = some v) :
    l ++ [v] <+: vs := by
  obtain ⟨rest, rfl⟩ := h
  rw [List.getElem?_append_right le_rfl, Nat.sub_self] at hv
  cases rest with
  | nil => cases hv
  | cons w rest =>
    obtain rfl : w = v := Option.some.inj hv
    exact ⟨rest, List.append_assoc ..⟩

/-- The slot is given up. -/
theorem Valid.publishHead (h : Valid s) {item : T} {currHead : ℕ}
    (hphase : s.consumer = .publish item currHead) :
    Valid { s with
      head := (currHead + 1) % s.capacity, consumer := .idle, popped := s.popped ++ [item] } := by
  have hconsumer := h.consumer
  rw [ConsumerOk, hphase] at hconsumer
  obtain ⟨hhead, hnext⟩ := hconsumer
  have hlength : (s.popped ++ [item]).length = s.popped.length + 1 := List.length_append ..
  refine { h with
    head_eq := ?_
    inOrder := prefix_concat h.inOrder hnext
    bounded := ?_
    window := ?_
    producer := h.producer.pop rfl rfl rfl rfl (by rw [hlength]; omega)
    consumer := trivial }
  · rw [hhead, h.head_eq, Nat.mod_add_mod, hlength]
  · rw [hlength]
    have hbounded := h.bounded
    dsimp only
    omega
  · rw [hlength]
    exact h.window.release

/-! ## Every interleaving -/

theorem Valid.step (h : Valid s) {a : Action T} (hstep : step s a = some s') : Valid s' := by
  cases step_spec hstep with
  | push item hphase => exact h.push hphase item
  | loadHeadFull hphase hfull => exact h.loadHeadFull hphase
  | loadHead hphase hroom => exact h.loadHead hphase hroom
  | write hphase hinside => exact h.write hphase
  | publishTail hphase => exact h.publishTail hphase
  | pop hphase => exact h.pop
  | loadTailEmpty hphase hempty => exact h.loadTailEmpty
  | loadTail hphase hne => exact h.loadTail hphase hne
  | read hphase hitem => exact h.read hphase hitem
  | publishHead hphase => exact h.publishHead hphase

/-- A push fails only when its load of the head finds the buffer full. -/
theorem Valid.pushFails (h : Valid s) {a : Action T} (hstep : RingBuffers.step s a = some s')
    (hfails : s'.failedPushes ≠ s.failedPushes) :
    Full s ∧ ∃ item i, a = .producer ∧ s.producer = .loadHead item i := by
  cases step_spec hstep with
  | @loadHeadFull item currTail hphase hfull =>
    have htail := h.producer
    rw [ProducerOk, hphase] at htail
    rw [htail] at hfull
    exact ⟨h.next_tail_eq_head_iff.mp hfull, item, currTail, rfl, hphase⟩
  | _ => exact absurd rfl hfails

/-- A pop fails only when its load of the tail finds the buffer empty. -/
theorem Valid.popFails (h : Valid s) {a : Action T} (hstep : RingBuffers.step s a = some s')
    (hfails : s'.failedPops ≠ s.failedPops) :
    Empty s ∧ ∃ j, a = .consumer ∧ s.consumer = .loadTail j := by
  cases step_spec hstep with
  | @loadTailEmpty currHead hphase hempty =>
    have hhead := h.consumer
    rw [ConsumerOk, hphase] at hhead
    rw [hhead] at hempty
    exact ⟨h.head_eq_tail_iff.mp hempty, currHead, rfl, hphase⟩
  | _ => exact absurd rfl hfails

/-- The distance from head to tail around the ring is the number of items. -/
theorem Valid.occupancy (h : Valid s) :
    (s.tail + s.capacity - s.head) % s.capacity = s.pushed.length - s.popped.length := by
  have hpos := h.capacity_pos
  have hle := h.length_le
  have hbounded := h.bounded
  have hhead : s.head < s.capacity := by
    rw [h.head_eq]
    exact Nat.mod_lt _ hpos
  have hsum : (s.head + (s.tail + s.capacity - s.head)) % s.capacity
      = (s.head + (s.pushed.length - s.popped.length)) % s.capacity := by
    rw [Nat.add_sub_cancel' (by omega), Nat.add_mod_right, h.head_eq, h.tail_eq, Nat.mod_mod,
      Nat.mod_add_mod, Nat.add_sub_cancel' hle]
  have heq : (s.tail + s.capacity - s.head) % s.capacity
      = (s.pushed.length - s.popped.length) % s.capacity := Nat.ModEq.add_left_cancel' s.head hsum
  rw [heq]
  exact Nat.mod_eq_of_lt (by omega)

theorem Valid.apart (h : Valid s) {item : T} {i j : ℕ} (hi : s.producer = .write item i)
    (hj : s.consumer = .read j) : i ≠ j := by
  have hproducer := h.producer
  have hconsumer := h.consumer
  rw [ProducerOk, hi] at hproducer
  rw [ConsumerOk, hj] at hconsumer
  rw [hproducer.1, hconsumer.1]
  intro heq
  have hempty := h.head_eq_tail_iff.mp heq.symm
  rw [Empty] at hempty
  exact absurd hempty hconsumer.2.ne'

/-- The invariant says that the buffer is a bounded queue. -/
theorem Valid.boundedFifo (h : Valid s) : BoundedFifo s where
  inOrder := h.inOrder
  bounded := by
    have hbounded := h.bounded
    omega
  occupancy := h.occupancy
  apart _ _ _ := h.apart
  writeInside item i hi := by
    have hproducer := h.producer
    rw [ProducerOk, hi] at hproducer
    rw [hproducer.1, h.tail_eq, h.length_eq]
    exact Nat.mod_lt _ h.capacity_pos
  readInside j hj := by
    have hconsumer := h.consumer
    rw [ConsumerOk, hj] at hconsumer
    rw [hconsumer.1, h.head_eq, h.length_eq]
    exact Nat.mod_lt _ h.capacity_pos
  pushFails _ _ := h.pushFails
  popFails _ _ := h.popFails

theorem step_capacity {a : Action T} (hstep : step s a = some s') : s'.capacity = s.capacity := by
  cases step_spec hstep <;> rfl

theorem boundedFifo_run {buffer : List T} {capacity : ℕ} (hcapacity : 1 ≤ capacity)
    (hlength : buffer.length = capacity) {schedule : List (Action T)}
    (h : run step { buffer := buffer, capacity := capacity } schedule = some s) :
    s.capacity = capacity ∧ BoundedFifo s := by
  have hvalid : Valid s := run_invariant (fun _ _ _ ht hstep => ht.step hstep)
    (.start hcapacity hlength) h
  have hsame := @run_invariant _ _ step (fun t => t.capacity = capacity)
    (fun t a t' ht hstep => (step_capacity hstep).trans ht) _ _ _ rfl h
  exact ⟨hsame, hvalid.boundedFifo⟩

/-- **The ring buffer is a bounded FIFO queue.**  In every state of every interleaving of one
producer and one consumer, for every capacity: the values popped are a prefix of the values pushed,
at most `capacity - 1` items are in the buffer, the slots about to be written and read differ, and a
call fails only if the buffer was full, or empty, when it read the index of the other thread.  The
same holds for the queue of eight slots. -/
theorem ringBuffer_boundedFifo :
    (∀ [Inhabited T] (size : ℕ), 1 ≤ size → ∀ (schedule : List (Action T)) (s : State T),
      run step (LockfreeRingBuffer.new size) schedule = some s →
        s.capacity = size ∧ BoundedFifo s) ∧
    ∀ (contents : Fin bufferSize → ℤ) (schedule : List (Action ℤ)) (s : State ℤ),
      run step (SPSCQueue.new contents) schedule = some s →
        s.capacity = bufferSize ∧ BoundedFifo s := by
  constructor
  · intro _ size hsize schedule s h
    exact boundedFifo_run hsize (List.length_replicate ..) h
  · intro contents schedule s h
    exact boundedFifo_run (by decide) (List.length_ofFn ..) h

/-- With two slots, the second of two pushes fails and the first value is popped. -/
theorem ringBuffer_boundedFifo_two :
    let s : State ℤ := { buffer := [7, 0], capacity := 2, head := 1, tail := 1, pushed := [7],
                         popped := [7], failedPushes := 1 }
    run step (LockfreeRingBuffer.new 2)
      [.push 7, .producer, .producer, .pop, .producer, .push 8, .consumer, .producer, .consumer,
        .consumer] = some s ∧ BoundedFifo s := by
  have hrun : run step (LockfreeRingBuffer.new 2)
      [.push 7, .producer, .producer, .pop, .producer, .push 8, .consumer, .producer, .consumer,
        .consumer]
      = some ({ buffer := [7, 0], capacity := 2, head := 1, tail := 1, pushed := [7],
                popped := [7], failedPushes := 1 } : State ℤ) := by decide
  exact ⟨hrun, (ringBuffer_boundedFifo.1 2 (by decide) _ _ hrun).2⟩

end RingBuffers
