/-
# The sliding-window rate limiter

Model of `rate-limiter/RateLimiter_SlidingWindow.cpp`.  The limiter keeps the times of the requests
it has accepted, in one queue for all clients and in one for each, and removes those older than a
second from the front of a queue only when it is used: the queue for all at every request, that of a
client at the client's own.

The queues stay those of the accepted requests but for some that are out of the window (`Tracked`),
so that every answer is exact, and no window of less than a second has more accepted requests than
the limits allow (`allowRequest_exact`).
-/
import SystemsDesign.SlidingWindows
import SystemsDesign.Transcripts

namespace SlidingWindowLimiter

open SlidingWindows Transcripts

variable {Client : Type*} [DecidableEq Client]

/-! ## The limiter -/

/-- The limiter; a client that is not in the map `clientQueues` has an empty queue. -/
structure RateLimiter (Client : Type*) where
  globalLimit : ℕ
  clientLimit : ℕ
  globalQueue : List ℤ := []
  clientQueues : Client → List ℤ := fun _ => []

/-- The window of a second, in milliseconds. -/
def window : ℤ := 1000

/-- `duration_cast<milliseconds>`, of a time in ticks of the clock; `ticks` of them make a
millisecond. -/
def durationCast (ticks : ℕ+) (duration : ℤ) : ℤ := duration.tdiv ticks

/-- `cleanup(dq, now)`. -/
def cleanup (ticks : ℕ+) (now : ℤ) : List ℤ → List ℤ
  | [] => []
  | front :: dq =>
    if durationCast ticks (now - front) ≥ window then cleanup ticks now dq else front :: dq

/-- A call of `allowRequest`, and what the clock shows in it. -/
structure Request (Client : Type*) where
  now : ℤ
  clientId : Client
  deriving DecidableEq

/-- The cleanup of expired requests that a call begins with, in the queue for all and in that of the
client. -/
def cleanupQueues (ticks : ℕ+) (limiter : RateLimiter Client) (request : Request Client) :
    RateLimiter Client :=
  { limiter with
    globalQueue := cleanup ticks request.now limiter.globalQueue
    clientQueues := Function.update limiter.clientQueues request.clientId
      (cleanup ticks request.now (limiter.clientQueues request.clientId)) }

/-- Both `push_back(now)` of an accepted request. -/
def pushRequest (limiter : RateLimiter Client) (request : Request Client) : RateLimiter Client :=
  { limiter with
    globalQueue := limiter.globalQueue ++ [request.now]
    clientQueues := Function.update limiter.clientQueues request.clientId
      (limiter.clientQueues request.clientId ++ [request.now]) }

/-- `allowRequest(clientId)`. -/
def allowRequest (ticks : ℕ+) (limiter : RateLimiter Client) (request : Request Client) :
    Bool × RateLimiter Client :=
  let limiter := cleanupQueues ticks limiter request
  -- check Q limits
  if limiter.globalQueue.length ≥ limiter.globalLimit then (false, limiter)
  else if (limiter.clientQueues request.clientId).length ≥ limiter.clientLimit then (false, limiter)
  -- accept request
  else (true, pushRequest limiter request)

/-- The requests that a new limiter with these limits accepts. -/
def accepted (ticks : ℕ+) (globalLimit clientLimit : ℕ) (requests : List (Request Client)) :
    List (Request Client) :=
  granted (transcript (allowRequest ticks)
    { globalLimit := globalLimit, clientLimit := clientLimit } requests)

/-! ## The queues -/

/-- The window in ticks of the clock. -/
def windowTicks (ticks : ℕ+) : ℤ := window * ticks

variable {ticks : ℕ+}

/-- A time is out of the window exactly if the rounded age says so. -/
theorem window_le_durationCast_iff {now front : ℤ} :
    durationCast ticks (now - front) ≥ window ↔ front + windowTicks ticks ≤ now := by
  have hpos : (0 : ℤ) < ticks := by exact_mod_cast ticks.pos
  have hiff : window ≤ (now - front).tdiv ticks ↔ window * ticks ≤ now - front := by
    rcases le_total 0 (now - front) with hle | hle
    · rw [Int.tdiv_eq_ediv_of_nonneg hle, Int.le_ediv_iff_mul_le hpos]
    · -- the clock cannot run backwards; if it did, the rounded age would not be positive
      refine iff_of_false (fun h => ?_) (fun h => ?_)
      · have hneg : 0 ≤ (-(now - front)).tdiv ticks := Int.tdiv_nonneg (neg_nonneg.mpr hle) hpos.le
        rw [Int.neg_tdiv, neg_nonneg] at hneg
        exact absurd (h.trans hneg) (by decide)
      · have hprod : 0 < window * (ticks : ℤ) := mul_pos (by decide) hpos
        omega
  rw [ge_iff_le, durationCast, hiff, windowTicks]
  constructor <;> intro h <;> linarith

theorem cleanup_eq_expire (now : ℤ) (dq : List ℤ) :
    cleanup ticks now dq = expire (windowTicks ticks) now dq := by
  induction dq with
  | nil => rfl
  | cons front dq ih =>
    rw [cleanup, ih, expire, expire, List.dropWhile_cons]
    simp only [window_le_durationCast_iff, decide_eq_true_eq]

/-- The queues hold the times of the accepted requests, but for some that are out of the window. -/
structure Tracked (ticks : ℕ+) (globalLimit clientLimit : ℕ) (now : ℤ)
    (limiter : RateLimiter Client) (history : List (Request Client)) : Prop where
  globalLimit_eq : limiter.globalLimit = globalLimit
  clientLimit_eq : limiter.clientLimit = clientLimit
  globalQueue : Tracks (windowTicks ticks) now limiter.globalQueue (history.map (·.now))
  clientQueues : ∀ clientId, Tracks (windowTicks ticks) now (limiter.clientQueues clientId)
    ((history.filter (·.clientId = clientId)).map (·.now))

/-- The accepted requests that count for an answer: all of them in the window. -/
def recent (ticks : ℕ+) (now : ℤ) (history : List (Request Client)) : ℕ :=
  history.countP fun r => now - windowTicks ticks < r.now

/-- The accepted requests of the client in the window. -/
def recentOf (ticks : ℕ+) (now : ℤ) (clientId : Client) (history : List (Request Client)) : ℕ :=
  history.countP fun r => r.clientId = clientId ∧ now - windowTicks ticks < r.now

variable {globalLimit clientLimit : ℕ} {limiter : RateLimiter Client}
  {history : List (Request Client)}

theorem Tracked.later {now now' : ℤ}
    (h : Tracked ticks globalLimit clientLimit now limiter history) (hle : now ≤ now') :
    Tracked ticks globalLimit clientLimit now' limiter history :=
  ⟨h.globalLimit_eq, h.clientLimit_eq, h.globalQueue.later hle,
    fun clientId => (h.clientQueues clientId).later hle⟩

/-- Changing the queue of one client changes the queues of the map for that client only. -/
theorem tracks_update {now : ℤ} {queues : Client → List ℤ} {histories : Client → List ℤ}
    {clientId : Client} {queue : List ℤ}
    (h : ∀ c, c ≠ clientId → Tracks (windowTicks ticks) now (queues c) (histories c))
    (hqueue : Tracks (windowTicks ticks) now queue (histories clientId)) (c : Client) :
    Tracks (windowTicks ticks) now (Function.update queues clientId queue c) (histories c) := by
  by_cases hc : c = clientId
  · subst hc
    rwa [Function.update_self]
  · rw [Function.update_of_ne hc]
    exact h c hc

variable {r : Request Client}

theorem Tracked.cleanupQueues (h : Tracked ticks globalLimit clientLimit r.now limiter history) :
    Tracked ticks globalLimit clientLimit r.now (cleanupQueues ticks limiter r) history := by
  refine ⟨h.globalLimit_eq, h.clientLimit_eq, ?_, ?_⟩
  · show Tracks _ _ (cleanup ticks r.now limiter.globalQueue) _
    rw [cleanup_eq_expire]
    exact h.globalQueue.expire
  · refine tracks_update (fun c _ => h.clientQueues c) ?_
    rw [cleanup_eq_expire]
    exact (h.clientQueues r.clientId).expire

/-- The queue for all after the cleanup: the accepted requests in the window. -/
theorem Tracked.length_globalQueue
    (h : Tracked ticks globalLimit clientLimit r.now limiter history) :
    (SlidingWindowLimiter.cleanupQueues ticks limiter r).globalQueue.length
      = recent ticks r.now history := by
  show (cleanup ticks r.now limiter.globalQueue).length = _
  rw [cleanup_eq_expire, h.globalQueue.length_expire, List.countP_map]
  refine List.countP_congr fun a _ => ?_
  simp only [Function.comp_apply, decide_eq_true_eq, sub_lt_iff_lt_add]

/-- The queue of the client after the cleanup: the client's accepted requests in the window. -/
theorem Tracked.length_clientQueue
    (h : Tracked ticks globalLimit clientLimit r.now limiter history) :
    ((SlidingWindowLimiter.cleanupQueues ticks limiter r).clientQueues r.clientId).length
      = recentOf ticks r.now r.clientId history := by
  show (Function.update limiter.clientQueues r.clientId
    (cleanup ticks r.now (limiter.clientQueues r.clientId)) r.clientId).length = _
  rw [Function.update_self, cleanup_eq_expire, (h.clientQueues r.clientId).length_expire,
    List.countP_map, List.countP_filter]
  refine List.countP_congr fun a _ => ?_
  simp only [Function.comp_apply, Bool.and_eq_true, decide_eq_true_eq, sub_lt_iff_lt_add]
  exact and_comm

theorem Tracked.pushRequest (h : Tracked ticks globalLimit clientLimit r.now limiter history) :
    Tracked ticks globalLimit clientLimit r.now (pushRequest limiter r) (history ++ [r]) := by
  refine ⟨h.globalLimit_eq, h.clientLimit_eq, ?_, ?_⟩
  · rw [List.map_append]
    exact h.globalQueue.push
  · refine tracks_update (fun c hc => ?_) ?_
    · rw [List.filter_append, List.filter_cons_of_neg (by simpa using Ne.symm hc), List.filter_nil,
        List.append_nil]
      exact h.clientQueues c
    · rw [List.filter_append, List.filter_cons_of_pos (by simp), List.map_append]
      exact (h.clientQueues r.clientId).push

/-- **One call.**  The answer is exact, and the queues track the accepted requests again. -/
theorem allowRequest_spec (h : Tracked ticks globalLimit clientLimit r.now limiter history) :
    ((allowRequest ticks limiter r).1 = true ↔ recent ticks r.now history < globalLimit ∧
      recentOf ticks r.now r.clientId history < clientLimit) ∧
    Tracked ticks globalLimit clientLimit r.now (next (allowRequest ticks) limiter r)
      (history ++ if (allowRequest ticks limiter r).1 then [r] else []) := by
  have hclean := h.cleanupQueues
  rw [next, allowRequest, h.length_globalQueue, h.length_clientQueue, hclean.globalLimit_eq,
    hclean.clientLimit_eq]
  by_cases hg : recent ticks r.now history ≥ globalLimit
  · rw [if_pos hg]
    refine ⟨iff_of_false Bool.false_ne_true fun hlt => hlt.1.not_ge hg, ?_⟩
    simpa using hclean
  · rw [if_neg hg]
    by_cases hc : recentOf ticks r.now r.clientId history ≥ clientLimit
    · rw [if_pos hc]
      refine ⟨iff_of_false Bool.false_ne_true fun hlt => hlt.2.not_ge hc, ?_⟩
      simpa using hclean
    · rw [if_neg hc]
      exact ⟨iff_of_true rfl ⟨not_le.mp hg, not_le.mp hc⟩, hclean.pushRequest⟩

/-! ## Runs -/

/-- **A run.**  Whenever the clock does not go back, the queues track the accepted requests. -/
theorem tracked_final (ticks : ℕ+) (globalLimit clientLimit : ℕ) {requests : List (Request Client)}
    (hsorted : requests.Pairwise fun r r' => r.now ≤ r'.now) {now : ℤ}
    (hnow : ∀ r ∈ requests, r.now ≤ now) :
    Tracked ticks globalLimit clientLimit now
      (final (allowRequest ticks)
        { globalLimit := globalLimit, clientLimit := clientLimit } requests)
      (accepted ticks globalLimit clientLimit requests) := by
  induction requests using List.reverseRecOn generalizing now with
  | nil => exact ⟨rfl, rfl, Tracks.empty _ _, fun _ => Tracks.empty _ _⟩
  | append_singleton requests r ih =>
    obtain ⟨hbefore, -, hlast⟩ := List.pairwise_append.mp hsorted
    have htracked := ih hbefore fun r' hr' => hlast r' hr' r (List.mem_singleton_self r)
    have hstep := (allowRequest_spec htracked).2
    rw [accepted, granted_snoc, final_append]
    exact hstep.later (hnow r (List.mem_append_right _ (List.mem_singleton_self r)))

theorem allowRequest_final_iff (ticks : ℕ+) (globalLimit clientLimit : ℕ)
    {before after : List (Request Client)} {r : Request Client}
    (hsorted : (before ++ r :: after).Pairwise fun r r' => r.now ≤ r'.now) :
    (allowRequest ticks (final (allowRequest ticks)
        { globalLimit := globalLimit, clientLimit := clientLimit } before) r).1 = true ↔
      recent ticks r.now (accepted ticks globalLimit clientLimit before) < globalLimit ∧
        recentOf ticks r.now r.clientId (accepted ticks globalLimit clientLimit before)
          < clientLimit := by
  obtain ⟨hbefore, -, hlast⟩ := List.pairwise_append.mp hsorted
  exact (allowRequest_spec (tracked_final ticks globalLimit clientLimit hbefore
    fun r' hr' => hlast r' hr' r List.mem_cons_self)).1

theorem recent_lt_of_accepted (ticks : ℕ+) (globalLimit clientLimit : ℕ)
    {requests : List (Request Client)} (hsorted : requests.Pairwise fun r r' => r.now ≤ r'.now)
    {done rest : List (Request Client)} {a : Request Client}
    (h : accepted ticks globalLimit clientLimit requests = done ++ a :: rest) :
    recent ticks a.now done < globalLimit ∧ recentOf ticks a.now a.clientId done < clientLimit := by
  obtain ⟨before, after, rfl, rfl, hgrant⟩ := exists_of_granted_eq h
  exact (allowRequest_final_iff ticks globalLimit clientLimit hsorted).mp hgrant

/-- **The limiter is exact.**  If the clock does not go back, a request is allowed exactly if fewer
than `globalLimit` requests, and fewer than `clientLimit` requests of its client, have been accepted
later than a second ago; and so no window of less than a second has more accepted requests than
these. -/
theorem allowRequest_exact (ticks : ℕ+) (globalLimit clientLimit : ℕ)
    (requests : List (Request Client)) (hsorted : requests.Pairwise fun r r' => r.now ≤ r'.now) :
    (∀ before r after, requests = before ++ r :: after →
      ((allowRequest ticks (final (allowRequest ticks)
          { globalLimit := globalLimit, clientLimit := clientLimit } before) r).1 = true ↔
        (accepted ticks globalLimit clientLimit before).countP
            (fun a => r.now - 1000 * ticks < a.now) < globalLimit ∧
          (accepted ticks globalLimit clientLimit before).countP
            (fun a => a.clientId = r.clientId ∧ r.now - 1000 * ticks < a.now) < clientLimit)) ∧
    ∀ first last : ℤ, last - first < 1000 * ticks →
      (accepted ticks globalLimit clientLimit requests).countP
          (fun a => first ≤ a.now ∧ a.now ≤ last) ≤ globalLimit ∧
        ∀ clientId, (accepted ticks globalLimit clientLimit requests).countP
          (fun a => a.clientId = clientId ∧ first ≤ a.now ∧ a.now ≤ last) ≤ clientLimit := by
  constructor
  · rintro before r after rfl
    exact allowRequest_final_iff ticks globalLimit clientLimit hsorted
  · intro first last hshort
    have hshort : last - first < windowTicks ticks := hshort
    constructor
    · have hwindow := countP_window_le Request.now (p := fun _ => True) (fun done a rest heq _ => by
        simpa [recent, sub_lt_iff_lt_add] using
          (recent_lt_of_accepted ticks globalLimit clientLimit hsorted heq).1) hshort
      simpa using hwindow
    · intro clientId
      refine countP_window_le Request.now (fun done a rest heq hc => ?_) hshort
      subst hc
      simpa [recentOf, sub_lt_iff_lt_add] using
        (recent_lt_of_accepted ticks globalLimit clientLimit hsorted heq).2

/-- Three requests of a client who may make one in a second: the second comes a millisecond too
early. -/
theorem allowRequest_exact_early :
    let requests : List (Request ℕ) := [⟨0, 7⟩, ⟨999, 7⟩, ⟨1000, 7⟩]
    requests.Pairwise (fun r r' => r.now ≤ r'.now) ∧
      accepted 1 5 1 requests = [⟨0, 7⟩, ⟨1000, 7⟩] ∧
      (accepted 1 5 1 requests).countP
        (fun a => a.clientId = 7 ∧ 1 ≤ a.now ∧ a.now ≤ 1000) ≤ 1 :=
  ⟨by decide, by decide,
    ((allowRequest_exact 1 5 1 [⟨0, 7⟩, ⟨999, 7⟩, ⟨1000, 7⟩] (by decide)).2 1 1000 (by decide)).2 7⟩

end SlidingWindowLimiter
