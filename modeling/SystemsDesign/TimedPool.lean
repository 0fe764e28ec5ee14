/-
# Pools whose items have a due time

The queue of the pool is a heap ordered by due time.  A worker that finds items looks at one that
no other is due before.  If its time has come the worker takes it.  Otherwise the worker sleeps
until that time, in a timed wait whose condition is the stop flag: it is not woken for new items,
and once the flag is set it does not sleep at all but looks again.

Among items that are due at the same time the heap may have any on top, so the position of the top
is left to the schedule.

* `turn` is the turn of a worker, and `Turn` lists what it can be;
* `Punctual` says that no sleeping worker sleeps past the time of an item in the heap.  The turns
  of workers keep it (`Punctual.turn`), and a new item keeps it exactly if no worker sleeps past its
  time (`punctual_push`).
-/
import SystemsDesign.WorkerPool

namespace TimedPool

open ThreadList WorkerPool

variable {ι κ : Type*}

/-- What a worker that does not wait at the top of its loop does: it sleeps, or has work. -/
inductive Timed (κ : Type*) where
  | sleeping (deadline : ℤ)
  | working (k : κ)
  deriving DecidableEq

variable (due : ι → ℤ)

/-- What worker `w` does with the item `x` on top of the heap, at position `i`: it takes it and
goes on to `next x`, or waits for its time. -/
def attend (p : Pool ι (Timed κ)) (clock : ℤ) (w i : ℕ) (next : ι → Worker (Timed κ)) (x : ι) :
    Pool ι (Timed κ) :=
  if clock < due x then
    -- with the flag set the timed wait returns at once, and the loop starts again
    if p.stop then p else p.goto w (.busy (.sleeping (due x)))
  else p.take i w (next x)

/-- The turn of worker `w`, which finds the top of the heap at position `i` and reads the clock at
`clock`. -/
def turn (p : Pool ι (Timed κ)) (clock : ℤ) (w i : ℕ) (next : ι → Worker (Timed κ)) :
    Option (Pool ι (Timed κ)) :=
  match p.workers[w]? with
  | some .waiting =>
    match p.queue[i]? with
    | some x => if ∀ y ∈ p.queue, due x ≤ due y then some (attend due p clock w i next x) else none
    | none => if p.stop ∧ p.queue = [] then some (p.goto w .returned) else none
  | some (.busy (.sleeping deadline)) =>
    if p.stop ∨ deadline ≤ clock then some (p.goto w .waiting) else none
  | _ => none

/-- What a turn can be. -/
inductive Turn (p : Pool ι (Timed κ)) (clock : ℤ) (w i : ℕ) (next : ι → Worker (Timed κ)) :
    Pool ι (Timed κ) → Prop where
  | leave (hw : p.workers[w]? = some .waiting) (hstop : p.stop = true) (hempty : p.queue = []) :
      Turn p clock w i next (p.goto w .returned)
  | again (hw : p.workers[w]? = some .waiting) : Turn p clock w i next p
  | sleep {x : ι} (hw : p.workers[w]? = some .waiting) (hx : p.queue[i]? = some x)
      (htop : ∀ y ∈ p.queue, due x ≤ due y) :
      Turn p clock w i next (p.goto w (.busy (.sleeping (due x))))
  | take {x : ι} (hw : p.workers[w]? = some .waiting) (hx : p.queue[i]? = some x)
      (hdue : due x ≤ clock) : Turn p clock w i next (p.take i w (next x))
  | wake {deadline : ℤ} (hw : p.workers[w]? = some (.busy (.sleeping deadline))) :
      Turn p clock w i next (p.goto w .waiting)

variable {due} {p p' : Pool ι (Timed κ)} {clock : ℤ} {w i : ℕ} {next : ι → Worker (Timed κ)}

theorem attend_spec {x : ι} (hw : p.workers[w]? = some .waiting) (hx : p.queue[i]? = some x)
    (htop : ∀ y ∈ p.queue, due x ≤ due y) :
    Turn due p clock w i next (attend due p clock w i next x) := by
  unfold attend
  split_ifs with hearly hstop
  · exact .again hw
  · exact .sleep hw hx htop
  · exact .take hw hx (not_lt.mp hearly)

theorem turn_spec (h : turn due p clock w i next = some p') : Turn due p clock w i next p' := by
  unfold turn at h
  split at h
  next hw =>
    split at h
    next x hx =>
      split_ifs at h with htop
      obtain rfl := Option.some.inj h
      exact attend_spec hw hx htop
    next =>
      split_ifs at h with hend
      obtain rfl := Option.some.inj h
      exact .leave hw hend.1 hend.2
  next deadline hw =>
    split_ifs at h
    obtain rfl := Option.some.inj h
    exact .wake hw
  next => cases h

theorem Turn.move (h : Turn due p clock w i next p') (hnext : ∀ x, next x ≠ .returned) :
    p.Move p' := by
  cases h with
  | leave hw hstop hempty => exact .leave hstop hempty
  | again hw => exact .stay
  | sleep hw hx htop => exact .goto hw (by simp)
  | take hw hx hdue => exact .take i (hnext _)
  | wake hw => exact .goto hw (by simp)

theorem Turn.stop_eq (h : Turn due p clock w i next p') : p'.stop = p.stop := by
  cases h <;> rfl

/-- A turn in which no item is taken changes nothing in the hands of workers, if nothing is booked
for a sleeping one. -/
theorem Turn.untouched_or_take {μ : Type*} {held : Timed κ → Multiset μ}
    (hheld : ∀ deadline, held (.sleeping deadline) = 0) (h : Turn due p clock w i next p') :
    p'.queue = p.queue ∧
        total (Pool.inHands held) p'.workers = total (Pool.inHands held) p.workers ∨
      ∃ x, p.workers[w]? = some .waiting ∧ p.queue[i]? = some x ∧ p' = p.take i w (next x) := by
  -- a worker that waits, sleeps or has left has nothing in its hands
  have hset : ∀ {b c : Worker (Timed κ)}, p.workers[w]? = some b → Pool.inHands held b = 0 →
      Pool.inHands held c = 0 →
      total (Pool.inHands held) (p.workers.set w c) = total (Pool.inHands held) p.workers := by
    intro b c hw hb hc
    have := total_set (Pool.inHands held) hw c
    rwa [hb, hc, add_zero, add_zero] at this
  cases h with
  | leave hw hstop hempty => exact .inl ⟨rfl, hset hw rfl rfl⟩
  | again hw => exact .inl ⟨rfl, rfl⟩
  | sleep hw hx htop => exact .inl ⟨rfl, hset hw rfl (hheld _)⟩
  | take hw hx hdue => exact .inr ⟨_, hw, hx, rfl⟩
  | wake hw => exact .inl ⟨rfl, hset hw (hheld _) rfl⟩

/-! ## Deadlines -/

variable (due p) in
/-- Until the stop flag is set, no sleeping worker sleeps past the time of an item. -/
def Punctual : Prop :=
  p.stop = false → ∀ deadline, .busy (.sleeping deadline) ∈ p.workers →
    ∀ x ∈ p.queue, deadline ≤ due x

theorem punctual_start (n : ℕ) : Punctual due (Pool.start n : Pool ι (Timed κ)) := by
  intro _ deadline hmem
  simp [Pool.start, List.mem_replicate] at hmem

theorem punctual_halt (p : Pool ι (Timed κ)) : Punctual due p.halt :=
  fun hstop => Bool.noConfusion hstop

theorem Punctual.goto (h : Punctual due p) {c : Worker (Timed κ)}
    (hc : ∀ deadline, c ≠ .busy (.sleeping deadline)) : Punctual due (p.goto w c) :=
  fun hstop deadline hmem => h hstop deadline (mem_of_mem_set hmem (hc deadline).symm)

theorem punctual_goto_iff {b c : Worker (Timed κ)} (hw : p.workers[w]? = some b)
    (hb : ∀ deadline, b ≠ .busy (.sleeping deadline))
    (hc : ∀ deadline, c ≠ .busy (.sleeping deadline)) :
    Punctual due (p.goto w c) ↔ Punctual due p := by
  refine ⟨fun h hstop deadline hmem => ?_, fun h => h.goto hc⟩
  exact h hstop deadline (mem_set_of_mem hw hmem (hb deadline).symm)

/-- **The turns of workers keep a pool punctual.** -/
theorem Punctual.turn (h : Punctual due p)
    (hnext : ∀ x deadline, next x ≠ .busy (.sleeping deadline))
    (ht : Turn due p clock w i next p') : Punctual due p' := by
  cases ht with
  | leave hw hstop hempty => exact h.goto (by simp)
  | again hw => exact h
  | @sleep x hw hx htop =>
    intro hstop deadline hmem y hy
    rcases List.mem_or_eq_of_mem_set hmem with hmem | heq
    · exact h hstop deadline hmem y hy
    · obtain rfl : deadline = due x := by simpa using heq
      exact htop y hy
  | @take x hw hx hdue =>
    intro hstop deadline hmem y hy
    exact h hstop deadline (mem_of_mem_set hmem (hnext x deadline).symm) y
      (List.mem_of_mem_eraseIdx hy)
  | wake hw => exact h.goto (by simp)

variable (due p) in
/-- Until the stop flag is set, no worker sleeps past the time of the item `x`. -/
def NotMissed (x : ι) : Prop :=
  p.stop = false → ∀ deadline, .busy (.sleeping deadline) ∈ p.workers → deadline ≤ due x

/-- **A new item** keeps a pool punctual exactly if no worker sleeps past its time. -/
theorem punctual_push (h : Punctual due p) (x : ι) :
    Punctual due (p.push x) ↔ NotMissed due p x := by
  constructor
  · exact fun hpush hstop deadline hmem => hpush hstop deadline hmem x (by simp [Pool.push])
  · intro hx hstop deadline hmem y hy
    rcases List.mem_append.mp hy with hy | hy
    · exact h hstop deadline hmem y hy
    · rw [List.mem_singleton.mp hy]
      exact hx hstop deadline hmem

variable (due p) in
/-- No worker sleeps past the time of the item that is put into the heap, if there is one. -/
def NoneMissed (new : Option ι) : Prop := ∀ x ∈ new, NotMissed due p x

theorem noneMissed_of_eq_none {new : Option ι} (h : new = none) : NoneMissed due p new := by
  intro x hx
  rw [h] at hx
  cases hx

theorem noneMissed_iff {new : Option ι} {x : ι} (h : new = some x) :
    NoneMissed due p new ↔ NotMissed due p x := by
  simp [NoneMissed, h]

end TimedPool
