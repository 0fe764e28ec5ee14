/-
# The token-bucket rate limiter

Model of `rate-limiter/RateLimiter_TokenBucket.cpp`, with rational numbers for its `double`s.  The
bucket is refilled late, when a token is asked for: by the rate times the time that has passed since
the last refill, up to the capacity.

The bound for an interval `[s, t]` is a potential argument (`credit`): until `s` the bucket can be
full, from then on a token taken is a token less or a token's worth of time, and after `t` nothing
counts.
-/
import SystemsDesign.Transcripts

namespace TokenBucketLimiter

open Transcripts TransitionSystem

/-! ## The bucket -/

/-- The bucket; times are in seconds. -/
structure Bucket where
  tokens : ℚ
  maxTokens : ℚ
  refillRate : ℚ
  lastRefillTime : ℚ
  deriving DecidableEq, Repr

/-- The constructor `RateLimiter_TokenBucket(capacity, rate)`, called at time `now`. -/
def create (capacity rate now : ℚ) : Bucket where
  tokens := capacity
  maxTokens := capacity
  refillRate := rate
  lastRefillTime := now

/-- `refill()`, at time `now`. -/
def refill (bucket : Bucket) (now : ℚ) : Bucket :=
  let secondsPassed := now - bucket.lastRefillTime
  let newTokens := bucket.refillRate * secondsPassed
  if newTokens ≤ 0 then bucket
  else { bucket with
    tokens := min bucket.maxTokens (bucket.tokens + newTokens)
    lastRefillTime := now }

/-- Refill, and take a token if there is one. -/
def takeToken (bucket : Bucket) (now : ℚ) : Bool × Bucket :=
  let bucket := refill bucket now
  if bucket.tokens ≥ 1 then (true, { bucket with tokens := bucket.tokens - 1 })
  else (false, bucket)

/-- `try_acquire()`. -/
def tryAcquire (bucket : Bucket) (now : ℚ) : Bool × Bucket := takeToken bucket now

/-- One turn of the loop of `acquire()`, which returns if it gets a token, and otherwise waits, with
the lock released, for the next turn. -/
def acquireAttempt (bucket : Bucket) (now : ℚ) : Bool × Bucket := takeToken bucket now

/-- Who asks for a token. -/
inductive Caller where
  | tryAcquire
  | acquire
  deriving DecidableEq, Repr

/-- A token is asked for, at a time. -/
structure Attempt where
  caller : Caller
  now : ℚ
  deriving DecidableEq, Repr

/-- One attempt; the lock makes it one step. -/
def attempt (bucket : Bucket) (a : Attempt) : Bool × Bucket :=
  match a.caller with
  | .tryAcquire => tryAcquire bucket a.now
  | .acquire => acquireAttempt bucket a.now

/-! ## One attempt -/

/-- The bucket has the capacity and the rate it was made with, and no more tokens than that. -/
structure Valid (capacity rate : ℚ) (bucket : Bucket) : Prop where
  maxTokens_eq : bucket.maxTokens = capacity
  refillRate_eq : bucket.refillRate = rate
  tokens_nonneg : 0 ≤ bucket.tokens
  tokens_le : bucket.tokens ≤ capacity

variable {capacity rate : ℚ} {bucket : Bucket} {now : ℚ}

/-- The tokens there are after a refill at time `now`. -/
def refilled (capacity rate : ℚ) (bucket : Bucket) (now : ℚ) : ℚ :=
  min capacity (bucket.tokens + rate * (now - bucket.lastRefillTime))

theorem Valid.refilled_nonneg (h : Valid capacity rate bucket) (hrate : 0 < rate)
    (hnow : bucket.lastRefillTime ≤ now) : 0 ≤ refilled capacity rate bucket now :=
  le_min (h.tokens_nonneg.trans h.tokens_le)
    (add_nonneg h.tokens_nonneg (mul_nonneg hrate.le (sub_nonneg.mpr hnow)))

/-- A refill brings the bucket up to date; one that takes no time has nothing to do. -/
theorem refill_eq (h : Valid capacity rate bucket) (hrate : 0 < rate)
    (hnow : bucket.lastRefillTime ≤ now) :
    refill bucket now
      = { bucket with tokens := refilled capacity rate bucket now, lastRefillTime := now } := by
  rcases hnow.lt_or_eq with hlt | heq
  · have hpos : 0 < bucket.refillRate * (now - bucket.lastRefillTime) :=
      mul_pos (h.refillRate_eq ▸ hrate) (sub_pos.mpr hlt)
    rw [refill, if_neg hpos.not_ge, refilled, h.refillRate_eq, h.maxTokens_eq]
  · subst heq
    have htokens : refilled capacity rate bucket bucket.lastRefillTime = bucket.tokens := by
      rw [refilled, sub_self, mul_zero, add_zero, min_eq_right h.tokens_le]
    rw [refill, htokens, sub_self, mul_zero, if_pos le_rfl]

/-- **One attempt.**  The bucket is brought up to date, and a token is taken from it if the attempt
succeeds. -/
theorem attempt_spec (h : Valid capacity rate bucket) (hrate : 0 < rate) {a : Attempt}
    (hnow : bucket.lastRefillTime ≤ a.now) :
    Valid capacity rate (next attempt bucket a) ∧
      (next attempt bucket a).lastRefillTime = a.now ∧
      (next attempt bucket a).tokens + (if (attempt bucket a).1 then 1 else 0)
        = refilled capacity rate bucket a.now := by
  have heq : attempt bucket a = takeToken bucket a.now := by
    rw [attempt]
    cases a.caller <;> rfl
  have hnonneg := h.refilled_nonneg hrate hnow
  have hle : refilled capacity rate bucket a.now ≤ capacity := min_le_left _ _
  rw [next, heq, takeToken, refill_eq h hrate hnow]
  dsimp only
  by_cases hone : refilled capacity rate bucket a.now ≥ 1
  · rw [if_pos hone]
    refine ⟨⟨h.maxTokens_eq, h.refillRate_eq, sub_nonneg.mpr hone, ?_⟩, rfl, sub_add_cancel _ _⟩
    exact (sub_le_self _ zero_le_one).trans hle
  · rw [if_neg hone]
    exact ⟨⟨h.maxTokens_eq, h.refillRate_eq, hnonneg, hle⟩, rfl, add_zero _⟩

/-! ## Runs -/

/-- The attempt is made on a valid bucket, not before its last refill. -/
def Timely (capacity rate : ℚ) (bucket : Bucket) (a : Attempt) : Prop :=
  Valid capacity rate bucket ∧ bucket.lastRefillTime ≤ a.now

/-- If the clock does not go back, every attempt of a run is timely, and the run ends with a valid
bucket. -/
theorem throughout_timely (hrate : 0 < rate) {attempts : List Attempt}
    (h : Valid capacity rate bucket) (hstart : ∀ a ∈ attempts, bucket.lastRefillTime ≤ a.now)
    (hsorted : attempts.Pairwise fun a b => a.now ≤ b.now) :
    Throughout (next attempt) (Timely capacity rate) bucket attempts ∧
      Valid capacity rate (final attempt bucket attempts) := by
  induction attempts generalizing bucket with
  | nil => exact ⟨throughout_nil _ _ _, h⟩
  | cons a attempts ih =>
    obtain ⟨hfirst, hrest⟩ := List.pairwise_cons.mp hsorted
    have hnow := hstart a List.mem_cons_self
    obtain ⟨hvalid, hlast, -⟩ := attempt_spec h hrate hnow
    obtain ⟨hthroughout, hfinal⟩ := ih hvalid (fun b hb => hlast.le.trans (hfirst b hb)) hrest
    exact ⟨throughout_cons.mpr ⟨⟨h, hnow⟩, hthroughout⟩, hfinal⟩

/-! ## The tokens of an interval -/

/-- What can still be taken in the interval `[s, t]`, less the tokens that the time from `t` back
would bring: before `s` the bucket counts as full, and after `t` nothing can be taken. -/
def credit (capacity rate s t : ℚ) (bucket : Bucket) : ℚ :=
  if bucket.lastRefillTime < s then capacity - rate * s
  else if bucket.lastRefillTime ≤ t then bucket.tokens - rate * bucket.lastRefillTime
  else - (rate * t)

variable {s t : ℚ}

theorem Valid.le_credit (h : Valid capacity rate bucket) (hrate : 0 < rate) (hst : s ≤ t) :
    - (rate * t) ≤ credit capacity rate s t bucket := by
  have hcap : 0 ≤ capacity := h.tokens_nonneg.trans h.tokens_le
  rw [credit]
  split_ifs with hs ht
  · have := mul_le_mul_of_nonneg_left hst hrate.le
    linarith
  · have := mul_le_mul_of_nonneg_left ht hrate.le
    linarith [h.tokens_nonneg]
  · exact le_rfl

theorem Valid.credit_le (h : Valid capacity rate bucket) (hrate : 0 < rate) (hst : s ≤ t) :
    credit capacity rate s t bucket ≤ capacity - rate * s := by
  have hcap : 0 ≤ capacity := h.tokens_nonneg.trans h.tokens_le
  rw [credit]
  split_ifs with hs ht
  · exact le_rfl
  · have := mul_le_mul_of_nonneg_left (not_lt.mp hs) hrate.le
    linarith [h.tokens_le]
  · have := mul_le_mul_of_nonneg_left hst hrate.le
    linarith

/-- What a refill in the interval brings is paid with the time since the last one, or with the start
of the interval. -/
theorem refilled_sub_le_credit (hrate : 0 < rate) (hnow : bucket.lastRefillTime ≤ now)
    (hs : s ≤ now) (ht : now ≤ t) :
    refilled capacity rate bucket now - rate * now ≤ credit capacity rate s t bucket := by
  rw [credit]
  split_ifs with hs' ht'
  · have hle : refilled capacity rate bucket now ≤ capacity := min_le_left _ _
    have := mul_le_mul_of_nonneg_left hs hrate.le
    linarith
  · have hle : refilled capacity rate bucket now
        ≤ bucket.tokens + rate * (now - bucket.lastRefillTime) := min_le_right _ _
    linarith
  · exact absurd (hnow.trans ht) ht'

/-- What a granted attempt costs: a token, if it is made in the interval. -/
def tokenCost (s t : ℚ) (log : Attempt × Bool) : ℚ :=
  if log.2 ∧ s ≤ log.1.now ∧ log.1.now ≤ t then 1 else 0

/-- **An attempt pays for its token from the credit.** -/
theorem credit_next (hrate : 0 < rate) (hst : s ≤ t) {a : Attempt}
    (h : Timely capacity rate bucket a) :
    credit capacity rate s t (next attempt bucket a) + tokenCost s t (a, (attempt bucket a).1)
      ≤ credit capacity rate s t bucket := by
  obtain ⟨hvalid, hnow⟩ := h
  obtain ⟨-, hlast, htokens⟩ := attempt_spec hvalid hrate hnow
  rw [tokenCost, credit, hlast]
  by_cases hs : a.now < s
  · -- before the interval
    have hout : ¬ ((attempt bucket a).1 = true ∧ s ≤ a.now ∧ a.now ≤ t) :=
      fun hin => hs.not_ge hin.2.1
    rw [if_neg hout, if_pos hs, credit, if_pos (hnow.trans_lt hs), add_zero]
  · rw [if_neg hs]
    by_cases ht : a.now ≤ t
    · -- in the interval
      have hcost : (if (attempt bucket a).1 = true ∧ s ≤ a.now ∧ a.now ≤ t then (1 : ℚ) else 0)
          = if (attempt bucket a).1 = true then 1 else 0 :=
        if_congr (and_iff_left ⟨not_lt.mp hs, ht⟩) rfl rfl
      rw [if_pos ht, hcost, sub_add_eq_add_sub, htokens]
      exact refilled_sub_le_credit hrate hnow (not_lt.mp hs) ht
    · -- after the interval
      have hout : ¬ ((attempt bucket a).1 = true ∧ s ≤ a.now ∧ a.now ≤ t) := fun hin => ht hin.2.2
      rw [if_neg ht, if_neg hout, add_zero]
      exact hvalid.le_credit hrate hst

theorem sum_tokenCost (log : List (Attempt × Bool)) :
    (log.map (tokenCost s t)).sum = (granted log).countP fun a => s ≤ a.now ∧ a.now ≤ t := by
  rw [granted, List.countP_map, List.countP_filter]
  refine (sum_map_ite _ log).trans (congrArg Nat.cast (List.countP_congr fun entry _ => ?_))
  simp only [Function.comp_apply, Bool.and_eq_true, decide_eq_true_eq]
  exact and_comm

/-- **The token bucket.**  If the clock does not go back, there are never fewer than no tokens or
more than the capacity, and in an interval of time no more tokens are taken than the capacity and
the rate allow. -/
theorem tokenBucket_bound {capacity rate start : ℚ} (hcapacity : 0 ≤ capacity) (hrate : 0 < rate)
    {attempts : List Attempt} (hstart : ∀ a ∈ attempts, start ≤ a.now)
    (hsorted : attempts.Pairwise fun a b => a.now ≤ b.now) :
    (∀ before after, attempts = before ++ after →
      0 ≤ (final attempt (create capacity rate start) before).tokens ∧
        (final attempt (create capacity rate start) before).tokens ≤ capacity) ∧
    ∀ s t, s ≤ t →
      (((granted (transcript attempt (create capacity rate start) attempts)).countP
        fun a => s ≤ a.now ∧ a.now ≤ t : ℕ) : ℚ) ≤ capacity + rate * (t - s) := by
  have hnew : Valid capacity rate (create capacity rate start) := ⟨rfl, rfl, hcapacity, le_rfl⟩
  constructor
  · intro before after heq
    rw [heq] at hstart hsorted
    have hvalid := (throughout_timely hrate hnew
      (fun a ha => hstart a (List.mem_append_left _ ha)) (List.pairwise_append.mp hsorted).1).2
    exact ⟨hvalid.tokens_nonneg, hvalid.tokens_le⟩
  · intro s t hst
    obtain ⟨htimely, hfinal⟩ := throughout_timely hrate hnew hstart hsorted
    have hpaid := potential_rule (credit capacity rate s t) (tokenCost s t) (fun _ => 0)
      (fun b a h => by simpa using credit_next hrate hst h) htimely
    rw [sum_tokenCost] at hpaid
    have hbefore := hnew.credit_le hrate hst
    have hafter := hfinal.le_credit hrate hst
    simp only [List.map_const', List.sum_replicate, smul_zero, add_zero] at hpaid
    linarith

theorem tokenBucket_bound_burst :
    let attempts : List Attempt :=
      [⟨.tryAcquire, 0⟩, ⟨.acquire, 0⟩, ⟨.tryAcquire, 1 / 2⟩, ⟨.acquire, 1⟩]
    (transcript attempt (create 2 1 0) attempts).map (·.2) = [true, true, false, true] ∧
      (((granted (transcript attempt (create 2 1 0) attempts)).countP
        fun a => 0 ≤ a.now ∧ a.now ≤ 1 : ℕ) : ℚ) ≤ 2 + 1 * (1 - 0) :=
  ⟨by decide +kernel,
    (tokenBucket_bound (by decide) (by decide) (by decide +kernel) (by decide +kernel)).2 0 1
      (by decide)⟩

end TokenBucketLimiter
