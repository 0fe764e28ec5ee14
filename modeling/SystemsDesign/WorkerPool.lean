/-
# Pools of workers on a shared queue

A pool has a queue of items, a flag that asks the workers to stop, and workers that run one loop:
wait under the mutex until the flag is set or the queue has an item, return if the flag is set and
the queue is empty, otherwise take an item and handle it outside the mutex.  A worker that handles
an item may put new ones into the queue.

* `Move` lists what can happen to a pool.  A worker that waits may look at its condition at any
  time, so notifications, lost ones and spurious wake-ups are all covered.
* `Alive` is kept by every move: as long as the queue has items, some worker has not returned.
  So the queue is empty when all have returned (`Alive.drained`).
* `account` books what is in the queue and in the hands of workers, with one lemma for each
  operation; nothing is booked when all workers have returned (`Alive.settled`).
-/
import SystemsDesign.ThreadList

namespace WorkerPool

open ThreadList

variable {ι κ : Type*}

/-- Where a worker is: at the top of its loop, handling something, or gone. -/
inductive Worker (κ : Type*) where
  | waiting
  | busy (k : κ)
  | returned
  deriving DecidableEq

/-- The queue, the stop flag and the workers. -/
structure Pool (ι κ : Type*) where
  queue : List ι
  stop : Bool
  workers : List (Worker κ)
  deriving DecidableEq

namespace Pool

/-! ## Operations -/

/-- A pool of `n` workers, which wait. -/
def start (n : ℕ) : Pool ι κ where
  queue := []
  stop := false
  workers := List.replicate n .waiting

variable (p : Pool ι κ)

/-- An item is put into the queue. -/
def push (x : ι) : Pool ι κ := { p with queue := p.queue ++ [x] }

/-- The stop flag is set. -/
def halt : Pool ι κ := { p with stop := true }

/-- Worker `w` goes on to `c`. -/
def goto (w : ℕ) (c : Worker κ) : Pool ι κ := { p with workers := p.workers.set w c }

/-- Worker `w` takes the item at position `i` out of the queue and goes on to `c`. -/
def take (i w : ℕ) (c : Worker κ) : Pool ι κ :=
  { p with queue := p.queue.eraseIdx i, workers := p.workers.set w c }

/-- The top of the loop, for worker `w` that waits for the first item. -/
def fetch (w : ℕ) (hold : ι → κ) : Option (Pool ι κ) :=
  match p.queue with
  | [] => if p.stop then some (p.goto w .returned) else none
  | x :: _ => some (p.take 0 w (.busy (hold x)))

/-- All workers have returned. -/
def Joined : Prop := ∀ c ∈ p.workers, c = .returned

instance [DecidableEq κ] : Decidable p.Joined :=
  inferInstanceAs (Decidable (∀ c ∈ p.workers, c = .returned))

variable {p} {p' : Pool ι κ} {w : ℕ}

/-- At the top of the loop a worker returns or takes the first item. -/
theorem fetch_spec {hold : ι → κ} (h : p.fetch w hold = some p') :
    p.stop = true ∧ p.queue = [] ∧ p' = p.goto w .returned ∨
      ∃ x, p.queue[0]? = some x ∧ p' = p.take 0 w (.busy (hold x)) := by
  unfold fetch at h
  split at h
  next hqueue =>
    split_ifs at h with hstop
    exact .inl ⟨hstop, hqueue, (Option.some.inj h).symm⟩
  next x rest hqueue =>
    exact .inr ⟨x, by rw [hqueue]; rfl, (Option.some.inj h).symm⟩

/-! ## What can happen to a pool -/

/-- The moves of a pool.  From outside items come only before the stop flag is set. -/
inductive Move (p : Pool ι κ) : Pool ι κ → Prop where
  | stay : Move p p
  | submit (x : ι) (hstop : p.stop = false) : Move p (p.push x)
  | halt : Move p p.halt
  | take (i : ℕ) {w : ℕ} {c : Worker κ} (hc : c ≠ .returned) : Move p (p.take i w c)
  | goto {w : ℕ} {b c : Worker κ} (hw : p.workers[w]? = some b) (hc : c ≠ .returned) :
      Move p (p.goto w c)
  | add {w : ℕ} {b c : Worker κ} (x : ι) (hw : p.workers[w]? = some b) (hb : b ≠ .returned)
      (hc : c ≠ .returned) : Move p ((p.push x).goto w c)
  | leave {w : ℕ} (hstop : p.stop = true) (hempty : p.queue = []) : Move p (p.goto w .returned)

/-- What is between the workers and the end of the pool: no worker returns before the stop flag is
set, and none is missing while the queue has items. -/
structure Alive (p : Pool ι κ) : Prop where
  nonempty : p.workers ≠ []
  early : p.stop = false → .returned ∉ p.workers
  pending : p.queue ≠ [] → ∃ c ∈ p.workers, c ≠ .returned

theorem alive_start {n : ℕ} (hn : 0 < n) : Alive (start n : Pool ι κ) where
  nonempty := by
    intro hnil
    have := congrArg List.length hnil
    simp only [start, List.length_replicate, List.length_nil] at this
    omega
  early _ := by simp [start, List.mem_replicate]
  pending h := absurd rfl h

theorem Alive.exists_working (h : Alive p) (hstop : p.stop = false) :
    ∃ c ∈ p.workers, c ≠ .returned := by
  obtain ⟨c, hc⟩ := List.exists_mem_of_ne_nil _ h.nonempty
  exact ⟨c, hc, fun heq => h.early hstop (heq ▸ hc)⟩

theorem Alive.set (h : Alive p) {c : Worker κ} (hc : c ≠ .returned) {queue : List ι}
    (hqueue : queue ≠ [] → ∃ d ∈ p.workers.set w c, d ≠ .returned) :
    Alive { p with queue := queue, workers := p.workers.set w c } where
  nonempty := fun hnil => h.nonempty (by simpa using hnil)
  early hstop hmem := by
    rcases List.mem_or_eq_of_mem_set hmem with hmem | heq
    · exact h.early hstop hmem
    · exact hc heq.symm
  pending := hqueue

theorem exists_working_set {b c : Worker κ} (hw : p.workers[w]? = some b) (hc : c ≠ .returned) :
    ∃ d ∈ p.workers.set w c, d ≠ .returned :=
  ⟨c, mem_set_self hw, hc⟩

/-- Another worker's turn does not make the last one return. -/
theorem exists_working_of_set {c : Worker κ} (hc : c ≠ .returned)
    (h : ∃ d ∈ p.workers, d ≠ .returned) : ∃ d ∈ p.workers.set w c, d ≠ .returned := by
  obtain ⟨d, hd, hne⟩ := h
  cases hw : p.workers[w]? with
  | none =>
    rw [List.set_eq_of_length_le (List.getElem?_eq_none_iff.mp hw)]
    exact ⟨d, hd, hne⟩
  | some b => exact exists_working_set hw hc

/-- **Every move keeps the pool alive.** -/
theorem Alive.move (h : Alive p) (hm : Move p p') : Alive p' := by
  cases hm with
  | stay => exact h
  | submit x hstop => exact { h with pending := fun _ => h.exists_working hstop }
  | halt => exact { h with early := fun hstop => Bool.noConfusion hstop }
  | take i hc =>
    -- the worker that takes an item is there for the others in the queue
    refine h.set hc fun hne => exists_working_of_set hc (h.pending fun hnil => hne ?_)
    rw [hnil]
    rfl
  | goto hw hc => exact h.set hc fun _ => exists_working_set hw hc
  | add x hw hb hc => exact h.set hc fun _ => exists_working_set hw hc
  | leave hstop hempty =>
    refine ⟨fun hnil => h.nonempty (by simpa [goto] using hnil), fun hfalse => ?_, fun hne => ?_⟩
    · exact absurd (hstop.symm.trans hfalse) Bool.noConfusion
    · exact absurd hempty hne

/-- **When all workers have returned, the queue is empty** and the stop flag is set. -/
theorem Alive.drained (h : Alive p) (hall : p.Joined) : p.queue = [] ∧ p.stop = true := by
  constructor
  · by_contra hne
    obtain ⟨c, hc, hreturned⟩ := h.pending hne
    exact hreturned (hall c hc)
  · by_contra hstop
    obtain ⟨c, hc, hreturned⟩ := h.exists_working (Bool.eq_false_of_not_eq_true hstop)
    exact hreturned (hall c hc)

/-! ## The account of a pool -/

section Account

variable {μ : Type*} (tag : ι → μ) (held : κ → Multiset μ)

/-- What is booked for a worker. -/
def inHands : Worker κ → Multiset μ
  | .busy k => held k
  | _ => 0

variable (p) in
/-- The account: an entry `tag x` for each item in the queue, and what the workers have in their
hands. -/
def account : Multiset μ := (p.queue.map tag : List μ) + total (inHands held) p.workers

@[simp] theorem account_start (n : ℕ) : (start n : Pool ι κ).account tag held = 0 := by
  have hhands : total (inHands held) (List.replicate n (.waiting : Worker κ)) = 0 := by
    apply total_eq_zero _
    intro c hc
    rw [List.eq_of_mem_replicate hc]
    rfl
  simp [account, start, hhands]

@[simp] theorem account_push (p : Pool ι κ) (x : ι) :
    (p.push x).account tag held = p.account tag held + {tag x} := by
  unfold account push
  rw [List.map_append, ← Multiset.coe_add]
  exact add_right_comm ..

@[simp] theorem account_halt (p : Pool ι κ) :
    p.halt.account tag held = p.account tag held := rfl

variable {tag held}

theorem account_congr (hqueue : p'.queue = p.queue)
    (hhands : total (inHands held) p'.workers = total (inHands held) p.workers) :
    p'.account tag held = p.account tag held := by
  unfold account
  rw [hqueue, hhands]

theorem account_goto {b : Worker κ} (hw : p.workers[w]? = some b) (c : Worker κ) :
    (p.goto w c).account tag held + inHands held b = p.account tag held + inHands held c := by
  unfold account goto
  rw [add_assoc, total_set (inHands held) hw c, add_assoc]

/-- An item taken out of the queue goes into the worker's hands or is dropped. -/
theorem account_take {i : ℕ} {x : ι} (hi : p.queue[i]? = some x)
    (hw : p.workers[w]? = some .waiting) (c : Worker κ) :
    (p.take i w c).account tag held + {tag x} = p.account tag held + inHands held c := by
  have hqueue : (((p.queue.eraseIdx i).map tag : List μ) : Multiset μ) + {tag x}
      = (p.queue.map tag : List μ) := by
    have := congrArg (Multiset.map tag) (coe_eraseIdx_add hi)
    rwa [Multiset.map_add, Multiset.map_singleton, Multiset.map_coe, Multiset.map_coe] at this
  have hhands : total (inHands held) (p.workers.set w c)
      = total (inHands held) p.workers + inHands held c := by
    have := total_set (inHands held) hw c
    rwa [show inHands held .waiting = 0 from rfl, add_zero] at this
  unfold account take
  rw [hhands, ← hqueue]
  abel

/-- A worker that takes an item into its hands changes nothing in the account if it is booked in
the same way. -/
theorem account_hold {i : ℕ} {x : ι} {k : κ} (hi : p.queue[i]? = some x)
    (hw : p.workers[w]? = some .waiting) (hk : held k = {tag x}) :
    (p.take i w (.busy k)).account tag held = p.account tag held := by
  have htake : (p.take i w (.busy k)).account tag held + {tag x}
      = p.account tag held + inHands held (.busy k) := account_take hi hw (.busy k)
  rw [show inHands held (.busy k) = {tag x} from hk] at htake
  exact add_right_cancel htake

theorem account_goto_same {b c : Worker κ} (hw : p.workers[w]? = some b)
    (hsame : inHands held c = inHands held b) :
    (p.goto w c).account tag held = p.account tag held := by
  have hgoto : (p.goto w c).account tag held + inHands held b
      = p.account tag held + inHands held c := account_goto hw c
  rw [hsame] at hgoto
  exact add_right_cancel hgoto

theorem account_finish {k : κ} (hw : p.workers[w]? = some (.busy k)) :
    (p.goto w .waiting).account tag held + held k = p.account tag held :=
  (account_goto hw .waiting).trans (add_zero _)

theorem nodup_map_add_singleton {ν : Type*} {key : μ → ν} {rest : Multiset μ} {e : μ} :
    ((rest + {e}).map key).Nodup ↔ (∀ d ∈ rest, key d ≠ key e) ∧ (rest.map key).Nodup := by
  rw [add_comm, Multiset.singleton_add, Multiset.map_cons, Multiset.nodup_cons, Multiset.mem_map]
  push Not
  rfl

/-- **Nothing is booked when all workers have returned.** -/
theorem Alive.settled (h : Alive p) (hall : p.Joined) : p.account tag held = 0 := by
  have hhands : total (inHands held) p.workers = 0 :=
    total_eq_zero _ fun c hc => by rw [hall c hc]; rfl
  rw [account, hhands, (h.drained hall).1]
  rfl

end Account

end Pool

end WorkerPool
