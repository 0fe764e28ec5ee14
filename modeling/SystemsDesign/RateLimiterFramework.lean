/-
# The rate limiter framework

Model of `oop-framework/RateLimiter_Framework.cpp`: a service that asks a strategy, and two
strategies.  The token bucket gives every client a number of tokens and fills them up at every
timer; the leaky bucket counts the pending requests of every client and lets one of them go at every
timer.  A client is entered into the map of a strategy with its first request; the timer goes over
the clients that are there.

Both strategies treat their clients one by one (`PerClient`), and so the answers to one client do
not depend on the others.
-/
import SystemsDesign.Transcripts

namespace RateLimiterFramework

open Transcripts TransitionSystem

variable {Client σ V : Type*} [DecidableEq Client]

/-! ## The framework -/

/-- The interface `RateLimiterStrategy`, for a strategy with state `σ`. -/
structure RateLimiterStrategy (σ Client : Type*) where
  allowRequest : σ → Client → Bool × σ
  onTimer : σ → σ

/-- The calls of a service. -/
inductive Call (Client : Type*) where
  | allowRequest (client : Client)
  | onTimer
  deriving DecidableEq

/-- `RateLimiterService`: a call is passed on to the strategy.  Only `allowRequest` has an
answer. -/
def service (strategy : RateLimiterStrategy σ Client) (s : σ) : Call Client → Option Bool × σ
  | .allowRequest client => ((strategy.allowRequest s client).1, (strategy.allowRequest s client).2)
  | .onTimer => (none, strategy.onTimer s)

/-- `TokenBucket`: the map `tokens`, and the capacity. -/
structure TokenBucket (Client : Type*) where
  tokens : Client → Option ℕ := fun _ => none
  capacity : ℕ

namespace TokenBucket

/-- `TokenBucket::allowRequest(client)`. -/
def allowRequest (bucket : TokenBucket Client) (client : Client) : Bool × TokenBucket Client :=
  -- assign capacity #tokens to the new client
  let tokens := if bucket.tokens client = none
    then Function.update bucket.tokens client (some bucket.capacity) else bucket.tokens
  -- no more requests can be accepted
  if tokens client = some 0 then (false, { bucket with tokens := tokens })
  -- after granting the current request
  else (true, { bucket with
    tokens := Function.update tokens client ((tokens client).map (· - 1)) })

/-- `TokenBucket::onTimer()`. -/
def onTimer (bucket : TokenBucket Client) : TokenBucket Client :=
  { bucket with tokens := fun client => (bucket.tokens client).map fun _ => bucket.capacity }

/-- The strategy. -/
def strategy : RateLimiterStrategy (TokenBucket Client) Client := ⟨allowRequest, onTimer⟩

end TokenBucket

/-- `LeakyBucket`: the map `per_client_queue`, and the capacity. -/
structure LeakyBucket (Client : Type*) where
  perClientQueue : Client → Option ℕ := fun _ => none
  capacity : ℕ

namespace LeakyBucket

/-- `LeakyBucket::allowRequest(client)`; the index operator enters a new client with 0. -/
def allowRequest (bucket : LeakyBucket Client) (client : Client) : Bool × LeakyBucket Client :=
  let pending := (bucket.perClientQueue client).getD 0
  if pending = bucket.capacity then (false, { bucket with
    perClientQueue := Function.update bucket.perClientQueue client (some pending) })
  else (true, { bucket with
    perClientQueue := Function.update bucket.perClientQueue client (some (pending + 1)) })

/-- `LeakyBucket::onTimer()`. -/
def onTimer (bucket : LeakyBucket Client) : LeakyBucket Client :=
  { bucket with
    perClientQueue := fun client => (bucket.perClientQueue client).map fun pending =>
      if pending > 0 then pending - 1 else pending }

/-- The strategy. -/
def strategy : RateLimiterStrategy (LeakyBucket Client) Client := ⟨allowRequest, onTimer⟩

end LeakyBucket

/-! ## What a client sees of a run -/

/-- The calls that matter to the client: its own requests and the timer. -/
def concerns (client : Client) (call : Call Client) : Bool :=
  call = .onTimer ∨ call = .allowRequest client

/-- The answers to the requests of the client. -/
def answersTo (client : Client) (log : List (Call Client × Option Bool)) : List (Option Bool) :=
  (log.filter (·.1 = .allowRequest client)).map (·.2)

/-- The number of requests granted to the client. -/
def grants (client : Client) (log : List (Call Client × Option Bool)) : ℕ :=
  log.countP fun entry => entry = (.allowRequest client, some true)

omit [DecidableEq Client] in
theorem next_allowRequest (strategy : RateLimiterStrategy σ Client) (s : σ) (client : Client) :
    next (service strategy) s (.allowRequest client) = (strategy.allowRequest s client).2 := rfl

omit [DecidableEq Client] in
theorem next_onTimer (strategy : RateLimiterStrategy σ Client) (s : σ) :
    next (service strategy) s .onTimer = strategy.onTimer s := rfl

theorem grants_allowRequest (strategy : RateLimiterStrategy σ Client) (s : σ)
    (client client' : Client) (calls : List (Call Client)) :
    grants client (transcript (service strategy) s (.allowRequest client' :: calls))
      = grants client (transcript (service strategy) (strategy.allowRequest s client').2 calls)
        + if client' = client ∧ (strategy.allowRequest s client').1 then 1 else 0 := by
  rw [transcript_cons, grants, List.countP_cons, ← grants, next_allowRequest]
  simp [service]

/-! ## Isolation -/

/-- The strategy keeps something for each client that alone decides about its requests, and that
only they and the timer change. -/
structure PerClient (strategy : RateLimiterStrategy σ Client) (view : σ → Client → V) : Prop where
  other : ∀ s client client', client' ≠ client →
    view (strategy.allowRequest s client).2 client' = view s client'
  own : ∀ s s' client, view s client = view s' client →
    (strategy.allowRequest s client).1 = (strategy.allowRequest s' client).1 ∧
      view (strategy.allowRequest s client).2 client
        = view (strategy.allowRequest s' client).2 client
  timer : ∀ s s' client, view s client = view s' client →
    view (strategy.onTimer s) client = view (strategy.onTimer s') client

namespace PerClient

variable {strategy : RateLimiterStrategy σ Client} {view : σ → Client → V}

/-- The client's part of a run is the run of the calls that concern the client. -/
theorem transcript_filter (h : PerClient strategy view) (s : σ) (client : Client)
    (calls : List (Call Client)) :
    (transcript (service strategy) s calls).filter (fun entry => concerns client entry.1)
      = transcript (service strategy) s (calls.filter (concerns client)) := by
  refine transcript_filter_of_view (fun s => view s client) ?_ ?_ rfl calls
  · intro s call hcall
    cases call with
    | onTimer => simp [concerns] at hcall
    | allowRequest client' =>
      have hne : client ≠ client' := by
        rintro rfl
        simp [concerns] at hcall
      exact h.other s client' client hne
  · intro s s' call hcall hview
    cases call with
    | onTimer => exact ⟨rfl, h.timer s s' client hview⟩
    | allowRequest client' =>
      have heq : client' = client := by simpa [concerns] using hcall
      subst heq
      obtain ⟨hans, hnext⟩ := h.own s s' client' hview
      exact ⟨congrArg some hans, hnext⟩

/-- The answers to the client are in the client's part of the run. -/
theorem answersTo_filter (client : Client) (log : List (Call Client × Option Bool)) :
    answersTo client (log.filter fun entry => concerns client entry.1) = answersTo client log := by
  rw [answersTo, answersTo, List.filter_filter]
  congr 1
  refine List.filter_congr fun entry _ => ?_
  rw [Bool.eq_iff_iff, Bool.and_eq_true, concerns]
  simp only [decide_eq_true_eq]
  exact ⟨And.left, fun heq => ⟨heq, Or.inr heq⟩⟩

/-- **Isolation.**  Two runs with the same requests of a client among the same timers answer them
the same. -/
theorem isolated (h : PerClient strategy view) (s : σ) (client : Client)
    {calls calls' : List (Call Client)}
    (heq : calls.filter (concerns client) = calls'.filter (concerns client)) :
    answersTo client (transcript (service strategy) s calls)
      = answersTo client (transcript (service strategy) s calls') := by
  rw [← answersTo_filter, h.transcript_filter, heq, ← h.transcript_filter, answersTo_filter]

omit [DecidableEq Client] in
/-- A strategy with a counter for each client: the answer and the next value of the counter are
computed from the counter and the capacity. -/
theorem of_counters {capacity : σ → ℕ} {counter : σ → Client → ℕ} (answer : ℕ → ℕ → Bool)
    (used leaked : ℕ → ℕ → ℕ)
    (hrequest : ∀ s client,
      (strategy.allowRequest s client).1 = answer (capacity s) (counter s client) ∧
      capacity (strategy.allowRequest s client).2 = capacity s ∧
      counter (strategy.allowRequest s client).2 client = used (capacity s) (counter s client) ∧
      ∀ client', client' ≠ client →
        counter (strategy.allowRequest s client).2 client' = counter s client')
    (htimer : ∀ s client, capacity (strategy.onTimer s) = capacity s ∧
      counter (strategy.onTimer s) client = leaked (capacity s) (counter s client)) :
    PerClient strategy fun s client => (capacity s, counter s client) := by
  refine ⟨?_, ?_, ?_⟩
  · intro s client client' hne
    obtain ⟨-, hcap, -, hother⟩ := hrequest s client
    rw [hcap, hother client' hne]
  · intro s s' client heq
    obtain ⟨hans, hcap, hown, -⟩ := hrequest s client
    obtain ⟨hans', hcap', hown', -⟩ := hrequest s' client
    obtain ⟨hc, hn⟩ := Prod.mk.inj heq
    rw [hans, hcap, hown, hans', hcap', hown', hc, hn]
    exact ⟨rfl, rfl⟩
  · intro s s' client heq
    obtain ⟨hc, hn⟩ := Prod.mk.inj heq
    rw [(htimer s client).1, (htimer s client).2, (htimer s' client).1, (htimer s' client).2, hc,
      hn]

end PerClient

/-! ## The token bucket -/

namespace TokenBucket

/-- The tokens of the client; a new client has all of them. -/
def available (bucket : TokenBucket Client) (client : Client) : ℕ :=
  (bucket.tokens client).getD bucket.capacity

/-- **A request.**  It is granted if there is a token, which is taken then; nothing else
changes. -/
theorem allowRequest_spec (bucket : TokenBucket Client) (client : Client) :
    (allowRequest bucket client).1 = decide (available bucket client ≠ 0) ∧
      (allowRequest bucket client).2.capacity = bucket.capacity ∧
      available (allowRequest bucket client).2 client = available bucket client - 1 ∧
      ∀ client', client' ≠ client →
        available (allowRequest bucket client).2 client' = available bucket client' := by
  -- the client is in the map now
  have htokens : ∀ client', (if bucket.tokens client = none
      then Function.update bucket.tokens client (some bucket.capacity) else bucket.tokens) client'
      = if client' = client then some (available bucket client) else bucket.tokens client' := by
    intro client'
    cases hnew : bucket.tokens client with
    | none => simp [Function.update_apply, available, hnew]
    | some n =>
      by_cases hc : client' = client
      · simp [hc, available, hnew]
      · simp [hc]
  rw [allowRequest, htokens, if_pos rfl]
  by_cases hzero : available bucket client = 0
  · rw [hzero, if_pos rfl]
    refine ⟨rfl, rfl, ?_, fun client' hne => ?_⟩
    · simp only [available, htokens]
      exact hzero
    · simp only [available, htokens, if_neg hne]
  · rw [if_neg fun h => hzero (Option.some.inj h)]
    refine ⟨(decide_eq_true hzero).symm, rfl, ?_, fun client' hne => ?_⟩
    · simp only [available, Function.update_self, Option.map_some, Option.getD_some]
    · simp only [available, Function.update_of_ne hne, htokens, if_neg hne]

omit [DecidableEq Client] in
theorem available_onTimer (bucket : TokenBucket Client) (client : Client) :
    available (onTimer bucket) client = bucket.capacity := by
  cases h : bucket.tokens client <;> simp [available, onTimer, h]

theorem perClient : PerClient strategy
    fun (bucket : TokenBucket Client) client => (bucket.capacity, available bucket client) :=
  PerClient.of_counters (fun _ n => n ≠ 0) (fun _ n => n - 1) (fun capacity _ => capacity)
    allowRequest_spec fun bucket client => ⟨rfl, available_onTimer bucket client⟩

/-- **Between timers** a client is granted its requests, as long as there are tokens. -/
theorem grants_of_notMem (bucket : TokenBucket Client) (client : Client)
    {calls : List (Call Client)} (h : .onTimer ∉ calls) :
    grants client (transcript (service strategy) bucket calls)
      = min (available bucket client) (calls.count (.allowRequest client)) := by
  induction calls generalizing bucket with
  | nil => exact (min_eq_right (Nat.zero_le _)).symm
  | cons call calls ih =>
    obtain ⟨hcall, hcalls⟩ := not_or.mp (mt List.mem_cons.mpr h)
    cases call with
    | onTimer => exact absurd rfl hcall
    | allowRequest client' =>
      obtain ⟨hans, -, hown, hother⟩ := allowRequest_spec bucket client'
      rw [grants_allowRequest, ih _ hcalls, List.count_cons]
      show min (available (allowRequest bucket client').2 client) _
        + (if client' = client ∧ (allowRequest bucket client').1 then 1 else 0) = _
      by_cases hc : client' = client
      · subst hc
        rw [hown, hans]
        by_cases hzero : available bucket client' = 0
        · simp [hzero]
        · simp [hzero]
          omega
      · rw [hother client (Ne.symm hc)]
        simp [hc]

/-- A token bucket that is new, or has just been filled up, has all tokens for every client. -/
theorem available_final (capacity : ℕ) (client : Client) {calls : List (Call Client)}
    (h : calls = [] ∨ calls.getLast? = some .onTimer) :
    available
      (final (service strategy) { capacity := capacity } calls) client = capacity := by
  have hcap : ∀ calls : List (Call Client),
      (final (service strategy) { capacity := capacity } calls).capacity = capacity := by
    intro calls
    refine @foldl_invariant _ _ _ (fun bucket : TokenBucket Client => bucket.capacity = capacity)
      ?_ _ rfl calls
    intro bucket call hbucket
    cases call with
    | onTimer => exact hbucket
    | allowRequest client => exact (allowRequest_spec bucket client).2.1.trans hbucket
  rcases h with rfl | h
  · rfl
  · obtain ⟨before, rfl⟩ := List.getLast?_eq_some_iff.mp h
    rw [final_append]
    exact (available_onTimer _ client).trans (hcap before)

end TokenBucket

/-! ## The leaky bucket -/

namespace LeakyBucket

/-- The pending requests of the client. -/
def pending (bucket : LeakyBucket Client) (client : Client) : ℕ :=
  (bucket.perClientQueue client).getD 0

/-- **A request.**  It is granted, and pending, unless the capacity is reached; nothing else
changes. -/
theorem allowRequest_spec (bucket : LeakyBucket Client) (client : Client) :
    (allowRequest bucket client).1 = decide (pending bucket client ≠ bucket.capacity) ∧
      (allowRequest bucket client).2.capacity = bucket.capacity ∧
      pending (allowRequest bucket client).2 client
        = pending bucket client + (if pending bucket client ≠ bucket.capacity then 1 else 0) ∧
      ∀ client', client' ≠ client →
        pending (allowRequest bucket client).2 client' = pending bucket client' := by
  rw [allowRequest, ← pending]
  by_cases hfull : pending bucket client = bucket.capacity
  · rw [if_pos hfull, if_neg (not_not.mpr hfull)]
    refine ⟨(decide_eq_false (not_not.mpr hfull)).symm, rfl, ?_, fun client' hne => ?_⟩
    · simp [pending]
    · simp [pending, Function.update_of_ne hne]
  · rw [if_neg hfull, if_pos hfull]
    refine ⟨(decide_eq_true hfull).symm, rfl, ?_, fun client' hne => ?_⟩
    · simp [pending]
    · simp [pending, Function.update_of_ne hne]

omit [DecidableEq Client] in
theorem pending_onTimer (bucket : LeakyBucket Client) (client : Client) :
    pending (onTimer bucket) client = pending bucket client - 1 := by
  cases h : bucket.perClientQueue client with
  | none => simp [pending, onTimer, h]
  | some n =>
    simp only [pending, onTimer, h, Option.map_some, Option.getD_some]
    split_ifs <;> omega

theorem perClient : PerClient strategy
    fun (bucket : LeakyBucket Client) client => (bucket.capacity, pending bucket client) :=
  PerClient.of_counters (fun capacity n => n ≠ capacity)
    (fun capacity n => n + if n ≠ capacity then 1 else 0) (fun _ n => n - 1)
    allowRequest_spec fun bucket client => ⟨rfl, pending_onTimer bucket client⟩

/-- No client has more pending requests than the capacity. -/
structure Valid (capacity : ℕ) (bucket : LeakyBucket Client) : Prop where
  capacity_eq : bucket.capacity = capacity
  pending_le : ∀ client, pending bucket client ≤ capacity

variable {capacity : ℕ}

theorem Valid.next {bucket : LeakyBucket Client} (h : Valid capacity bucket) (call : Call Client) :
    Valid capacity (next (service strategy) bucket call) := by
  cases call with
  | onTimer =>
    refine ⟨h.capacity_eq, fun client => ?_⟩
    have heq := pending_onTimer bucket client
    exact heq.le.trans ((Nat.sub_le _ _).trans (h.pending_le client))
  | allowRequest client =>
    obtain ⟨-, hcap, hown, hother⟩ := allowRequest_spec bucket client
    refine ⟨hcap.trans h.capacity_eq, fun client' => ?_⟩
    by_cases hc : client' = client
    · subst hc
      refine hown.le.trans ?_
      have hle := h.pending_le client'
      rw [h.capacity_eq]
      split_ifs <;> omega
    · exact (hother client' hc).le.trans (h.pending_le client')

/-- What a call costs the room left for the client: a place, if it is a granted request. -/
def placeCost (client : Client) (entry : Call Client × Option Bool) : ℕ :=
  if entry = (.allowRequest client, some true) then 1 else 0

/-- What a call adds to the room left for a client: a place, if it is the timer. -/
def placeGain (call : Call Client) : ℕ := if call = .onTimer then 1 else 0

theorem placeCost_allowRequest (client client' : Client) (bucket : LeakyBucket Client) :
    placeCost client (.allowRequest client', (service strategy bucket (.allowRequest client')).1)
      = if client' = client ∧ (allowRequest bucket client').1 then 1 else 0 := by
  simp [placeCost, service, strategy]

/-- **A granted request pays with the room that is left.** -/
theorem room_next {bucket : LeakyBucket Client} (h : Valid capacity bucket) (client : Client)
    (call : Call Client) :
    capacity - pending (Transcripts.next (service strategy) bucket call) client
        + placeCost client (call, (service strategy bucket call).1)
      ≤ capacity - pending bucket client + placeGain call := by
  have hle := h.pending_le client
  cases call with
  | onTimer =>
    have hleak := pending_onTimer bucket client
    rw [next_onTimer]
    show capacity - pending (onTimer bucket) client + 0 ≤ _ + 1
    omega
  | allowRequest client' =>
    obtain ⟨hans, -, hown, hother⟩ := allowRequest_spec bucket client'
    rw [placeCost_allowRequest, next_allowRequest]
    show capacity - pending (allowRequest bucket client').2 client + _ ≤ _ + 0
    by_cases hc : client' = client
    · subst hc
      rw [hown, hans, h.capacity_eq]
      by_cases hfull : pending bucket client' = capacity
      · simp [hfull]
      · simp [hfull]
        omega
    · rw [hother client (Ne.symm hc)]
      simp [hc]

/-- **A segment of a run** grants a client no more than the capacity and the timers allow. -/
theorem grants_le {bucket : LeakyBucket Client} (h : Valid capacity bucket) (client : Client)
    (calls : List (Call Client)) :
    grants client (transcript (service strategy) bucket calls)
      ≤ capacity + calls.count .onTimer := by
  have hvalid : Throughout (Transcripts.next (service strategy))
      (fun bucket _ => Valid capacity bucket) bucket calls :=
    fun done _ _ _ =>
      @foldl_invariant _ _ _ (Valid capacity) (fun _ call hb => hb.next call) _ h done
  have hpaid := potential_rule (fun b => capacity - pending b client) (placeCost client) placeGain
    (fun b call hb => room_next hb client call) hvalid
  have hcost : ((transcript (service strategy) bucket calls).map (placeCost client)).sum
      = grants client (transcript (service strategy) bucket calls) := sum_map_ite _ _
  have hgain : (calls.map placeGain).sum = calls.count .onTimer := by
    refine (sum_map_ite _ _).trans (List.countP_congr fun call _ => ?_)
    rw [decide_eq_true_eq, beq_iff_eq]
  rw [hcost, hgain] at hpaid
  omega

end LeakyBucket

/-! ## Both strategies -/

/-- **The limiters of the framework.**  For every capacity and every run of requests and timers,
the leaky bucket grants a client in a segment of the run at most the capacity and one request for
each timer; the token bucket grants a client from one timer to the next, and up to the first,
exactly its requests, up to the capacity; and with both strategies a client gets the same answers
whatever the others do. -/
theorem limiters_bound_and_isolate (capacity : ℕ) (client : Client) :
    (∀ before segment : List (Call Client),
      grants client (transcript (service LeakyBucket.strategy)
        (final (service LeakyBucket.strategy) { capacity := capacity } before) segment)
          ≤ capacity + segment.count .onTimer) ∧
    (∀ before segment : List (Call Client), before = [] ∨ before.getLast? = some .onTimer →
      .onTimer ∉ segment →
      grants client (transcript (service TokenBucket.strategy)
        (final (service TokenBucket.strategy) { capacity := capacity } before) segment)
          = min capacity (segment.count (.allowRequest client))) ∧
    ∀ calls calls' : List (Call Client),
      calls.filter (concerns client) = calls'.filter (concerns client) →
      answersTo client (transcript (service TokenBucket.strategy) { capacity := capacity } calls)
          = answersTo client
            (transcript (service TokenBucket.strategy) { capacity := capacity } calls') ∧
        answersTo client (transcript (service LeakyBucket.strategy) { capacity := capacity } calls)
          = answersTo client
            (transcript (service LeakyBucket.strategy) { capacity := capacity } calls') := by
  refine ⟨fun before segment => ?_, fun before segment hbefore hsegment => ?_,
    fun calls calls' heq => ?_⟩
  · have hnew : LeakyBucket.Valid capacity ({ capacity := capacity } : LeakyBucket Client) :=
      ⟨rfl, fun _ => Nat.zero_le capacity⟩
    have hvalid := @foldl_invariant _ _ _ (LeakyBucket.Valid capacity)
      (fun _ call hb => hb.next call) _ hnew before
    exact LeakyBucket.grants_le hvalid client segment
  · rw [TokenBucket.grants_of_notMem _ client hsegment,
      TokenBucket.available_final capacity client hbefore]
  · exact ⟨TokenBucket.perClient.isolated _ client heq, LeakyBucket.perClient.isolated _ client heq⟩

/-- Three requests and one more behind a timer, with another client's request among them. -/
theorem limiters_bound_and_isolate_two :
    answersTo 1 (transcript (service TokenBucket.strategy) { capacity := 2 }
        [.allowRequest 1, .allowRequest 5, .allowRequest 1, .allowRequest 1, .onTimer,
          .allowRequest 1])
      = [some true, some true, some false, some true] ∧
    grants 1 (transcript (service TokenBucket.strategy)
        (final (service TokenBucket.strategy) { capacity := 2 } [.allowRequest 5, .onTimer])
        [.allowRequest 1, .allowRequest 5, .allowRequest 1, .allowRequest 1])
      = min 2 3 :=
  ⟨by decide,
    (limiters_bound_and_isolate 2 1).2.1 [.allowRequest 5, .onTimer]
      [.allowRequest 1, .allowRequest 5, .allowRequest 1, .allowRequest 1] (by decide) (by decide)⟩

end RateLimiterFramework
