/-
# The counter with a compare-and-swap loop

`AtomicCounter_with_CAS.cpp`: threads increment a counter by `compare_exchange_weak` in a loop.
All operations are relaxed, so a load, and an exchange that fails, may read any value the counter
has had; and an exchange may fail although it has read the value it expects.  Only an exchange
that succeeds reads the latest value.  Numbers are unbounded here: the counter stays below the
number of increments asked for.
-/
import SystemsDesign.ThreadList
import SystemsDesign.TransitionSystem

namespace AtomicCounters

open ThreadList TransitionSystem

/-- A thread: the calls of `increment` it has still to finish, and its variable `old`. -/
structure Thread where
  left : ℕ
  old : Option ℕ

/-- The counter and its threads; `log` has each increment with its thread and the value `old`. -/
structure State where
  count : ℕ
  threads : List Thread
  log : List (ℕ × ℕ)

/-- The lambda of `main`, for threads with any numbers of calls. -/
def start (calls : List ℕ) : State := ⟨0, calls.map (⟨·, none⟩), []⟩

/-- What a thread does next in the loop of `increment`. -/
inductive Act where
  /-- The load, or an exchange that fails: thread `i` reads `value` into `old`. -/
  | read (i value : ℕ)
  /-- An exchange that succeeds. -/
  | exchange (i : ℕ)

/-- One load or exchange; `none` for a thread that is not there or has no call left. -/
def step (s : State) : Act → Option State
  | .read i value =>
    match s.threads[i]? with
    | some ⟨left + 1, _⟩ =>
      -- the values the counter has had are those up to the present one
      if value ≤ s.count then some { s with threads := s.threads.set i ⟨left + 1, some value⟩ }
      else none
    | _ => none
  | .exchange i =>
    match s.threads[i]? with
    | some ⟨left + 1, some old⟩ =>
      if s.count = old then
        some ⟨old + 1, s.threads.set i ⟨left, none⟩, s.log ++ [(i, old)]⟩
      else none
    | _ => none

/-- Every increment is counted once, and belongs to a call of its thread. -/
structure Counted (calls : List ℕ) (s : State) : Prop where
  values : s.log.map Prod.snd = List.range s.count
  sum : total Thread.left s.threads + s.count = calls.sum
  each : ∀ i t, s.threads[i]? = some t →
    calls[i]? = some ((ofThread i s.log).length + t.left)

theorem Counted.step {calls : List ℕ} {s s' : State} {a : Act} (hs : Counted calls s)
    (h : step s a = some s') : Counted calls s' := by
  have hsum := hs.sum
  cases a with
  | read i value =>
    simp only [AtomicCounters.step] at h
    split at h <;> [split_ifs at h; cases h]
    rename_i left old hi _
    obtain rfl := Option.some.inj h
    have hset := total_set Thread.left hi ⟨left + 1, some value⟩
    refine ⟨hs.values, ?_, forall_getElem?_set hs.each hi id fun _ _ _ => id⟩
    dsimp only at hset ⊢
    omega
  | exchange i =>
    simp only [AtomicCounters.step] at h
    split at h <;> [split_ifs at h with hcount; cases h]
    rename_i left old hi
    subst hcount
    obtain rfl := Option.some.inj h
    have hset := total_set Thread.left hi ⟨left, none⟩
    refine ⟨by rw [List.map_append, hs.values, List.range_succ]; rfl, ?_,
      forall_getElem?_set hs.each hi (fun hself => ?_) fun j t hij hother => ?_⟩
    · dsimp only at hset ⊢
      omega
    · have hlog : ofThread i (s.log ++ [(i, s.count)]) = ofThread i s.log ++ [s.count] :=
        ofThread_append_self i s.log [s.count]
      rw [hself, hlog, List.length_append, List.length_singleton, Nat.add_assoc, Nat.add_comm 1]
    · have hlog : ofThread j (s.log ++ [(i, s.count)]) = ofThread j s.log :=
        ofThread_append_ne hij s.log [s.count]
      rwa [hlog]

/-- **The counter loses no increment.**  In every interleaving, whatever the loads read and
however often an exchange fails: the increments have read `0, 1, 2, …` in this order, each value
once; every thread has made those of its calls that it has finished; the counter and the calls
that are left add up to all calls; and unless no call is left, two steps of some thread finish
one. -/
theorem increment_spec (calls : List ℕ) (as : List Act) (s : State)
    (hrun : run step (start calls) as = some s) :
    Counted calls s ∧ ((∀ t ∈ s.threads, t.left = 0) ∧ s.count = calls.sum ∨
      ∃ i s', run step s [.read i s.count, .exchange i] = some s' ∧ s'.count = s.count + 1) := by
  have hs : Counted calls s := by
    refine @run_invariant _ _ step (Counted calls) (fun _ _ _ => Counted.step) _ _ _ ?_ hrun
    refine ⟨rfl, ?_, fun i t hi => ?_⟩
    · simp [start, total, Function.comp_def]
    · obtain ⟨n, hn, rfl⟩ := by simpa [start] using hi
      simpa [start, ofThread] using hn
  refine ⟨hs, ?_⟩
  by_cases hdone : ∀ t ∈ s.threads, t.left = 0
  · have hsum := hs.sum
    rw [total_eq_zero _ hdone, Nat.zero_add] at hsum
    exact .inl ⟨hdone, hsum⟩
  · right
    push Not at hdone
    obtain ⟨⟨left, old⟩, ht, hleft⟩ := hdone
    obtain ⟨left, rfl⟩ := Nat.exists_eq_succ_of_ne_zero hleft
    obtain ⟨i, hi⟩ := List.mem_iff_getElem?.mp ht
    have hlt := (List.getElem?_eq_some_iff.mp hi).1
    refine ⟨i, ⟨s.count + 1, s.threads.set i ⟨left, none⟩, s.log ++ [(i, s.count)]⟩, ?_, rfl⟩
    rw [run_cons, step, hi]
    simp [run, step, hlt]

/-- Two threads read `0`; the second exchange fails and is made again. -/
theorem increment_spec_conflict :
    Counted [1, 1] ⟨2, [⟨0, none⟩, ⟨0, none⟩], [(0, 0), (1, 1)]⟩ :=
  (increment_spec [1, 1] [.read 0 0, .read 1 0, .exchange 0, .read 1 1, .exchange 1] _ rfl).1

end AtomicCounters
