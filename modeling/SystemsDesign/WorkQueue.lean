/-
# Work queues with a graceful shutdown

Threads post jobs to a queue and notify one worker for each; workers wait for jobs or for the stop
flag, take one or more jobs at a time and work on them outside of the lock; the owner waits for the
other threads that post, sets the flag, notifies all workers and waits for their ends.

* `Service` says what a worker does with a batch of jobs: what it puts out, one entry at a time, and
  its new local state;
* `Books` is the invariant of the queue and of the numbers of threads, `Records` that of what each
  thread has posted and put out;
* `Service.conduct` collects the results: the jobs are taken in the order in which they were posted,
  each once; every thread has put out what its batches say; nobody is ever stuck; and in the end
  the queue is empty and everything has been put out.
-/
import SystemsDesign.MonitorPrograms

namespace WorkQueue

open MonitorPrograms ThreadList TransitionSystem

variable {W J E : Type*}

/-! ## The threads -/

/-- What is done with the jobs. -/
structure Service (W J E : Type*) where
  /-- At most so many jobs are taken at once. -/
  batch : ℕ
  batch_pos : 0 < batch
  /-- What a worker puts out for a batch, and its local state behind it. -/
  work : W → List J → List E × W
  /-- What is put out when a job is posted. -/
  announce : J → List E := fun _ => []

/-- What the threads share, with the history of the posts, the batches and the output. -/
structure Shared (J E : Type*) where
  queue : List J := []
  stop : Bool := false
  producing : ℕ
  serving : ℕ
  posted : List (ℕ × J) := []
  taken : List (ℕ × List J) := []
  output : List (ℕ × E) := []
  deriving DecidableEq

/-- A thread posts the jobs of its program, then ends or, if it is the owner, shuts down; or it is
a worker. -/
inductive Role (W J : Type*) where
  | poster (owner : Bool) (program : List J)
  | worker (w : W)
  deriving DecidableEq

/-- Where a thread is. -/
inductive Place (W J E : Type*) where
  /-- It has jobs to post, and maybe a notification to send first. -/
  | poster (id : ℕ) (owner : Bool) (todo : List J) (owes : Bool)
  /-- The owner has set the flag; it has to notify all, and then to wait for the workers. -/
  | closing (notified : Bool)
  /-- A worker with the output that it has still to make for its last batch. -/
  | worker (id : ℕ) (w : W) (pending : List E)
  | ended
  deriving DecidableEq

/-- The first place of a thread. -/
def Role.place (id : ℕ) : Role W J → Place W J E
  | .poster owner program => .poster id owner program false
  | .worker w => .worker id w []

/-- The role is not the owner's, and posts. -/
def Role.produces : Role W J → Bool
  | .poster owner _ => !owner
  | _ => false

/-- The role is the owner's. -/
def Role.owns : Role W J → Bool
  | .poster owner _ => owner
  | _ => false

/-- The role is a worker's. -/
def Role.serves : Role W J → Bool
  | .worker _ => true
  | _ => false

namespace Place

/-- The thread is not the owner, and posts. -/
def produces : Place W J E → Bool
  | poster _ owner _ _ => !owner
  | _ => false

/-- The thread is the owner and has not set the flag. -/
def owns : Place W J E → Bool
  | poster _ owner _ _ => owner
  | _ => false

/-- The thread is a worker. -/
def serves : Place W J E → Bool
  | worker _ _ _ => true
  | _ => false

/-- The thread has to notify one worker. -/
def owes : Place W J E → Bool
  | poster _ _ _ owes => owes
  | _ => false

/-- The thread has to notify all workers. -/
def rings : Place W J E → Bool
  | closing false => true
  | _ => false

end Place

/-- An entry is put out. -/
def Shared.put (x : Shared J E) (id : ℕ) (e : E) : Shared J E :=
  { x with output := x.output ++ [e].map (Prod.mk id) }

namespace Service

variable (S : Service W J E)

/-- A job is posted. -/
def post (x : Shared J E) (id : ℕ) (job : J) : Shared J E :=
  { x with queue := x.queue ++ [job], posted := x.posted ++ [job].map (Prod.mk id)
           output := x.output ++ (S.announce job).map (Prod.mk id) }

/-- A batch is taken. -/
def fetch (x : Shared J E) (id : ℕ) : Shared J E :=
  { x with queue := x.queue.drop S.batch
           taken := x.taken ++ [x.queue.take S.batch].map (Prod.mk id) }

/-- The program of all threads. -/
def program : Program (Shared J E) (Place W J E) Unit where
  finished
    | .ended => true
    | _ => false
  waitsOn
    | .worker _ _ [] => some ()
    | _ => none
  guard
    | .worker _ _ [], x => x.stop || !x.queue.isEmpty
    | .poster _ true [] false, x => x.producing == 0
    | .closing true, x => x.serving == 0
    | _, _ => true
  body
    | .poster id owner todo true, x =>
      { shared := x, place := .poster id owner todo false, signal := .one () }
    | .poster id owner (job :: todo) false, x =>
      { shared := S.post x id job, place := .poster id owner todo true }
    | .poster _ false [] false, x =>
      { shared := { x with producing := x.producing - 1 }, place := .ended }
    | .poster _ true [] false, x => { shared := { x with stop := true }, place := .closing false }
    | .closing false, x => { shared := x, place := .closing true, signal := .all () }
    | .closing true, x => { shared := x, place := .ended }
    | .worker id w (e :: pending), x => { shared := x.put id e, place := .worker id w pending }
    | .worker id w [], x =>
      if x.stop && x.queue.isEmpty then
        { shared := { x with serving := x.serving - 1 }, place := .ended }
      else
        { shared := S.fetch x id
          place := .worker id (S.work w (x.queue.take S.batch)).2
            (S.work w (x.queue.take S.batch)).1 }
    | .ended, x => { shared := x, place := .ended }

/-- The shared state at the start. -/
def fresh (roles : List (Role W J)) : Shared J E where
  producing := roles.countP Role.produces
  serving := roles.countP Role.serves

/-- The places at the start. -/
def places (roles : List (Role W J)) : List (Place W J E) := roles.mapIdx Role.place

/-- All threads at their first places. -/
def start (roles : List (Role W J)) : State (Shared J E) (Place W J E) :=
  MonitorPrograms.start (fresh roles) (places roles)

/-- What a section can be. -/
inductive Section (x : Shared J E) (k : Place W J E) (o : Outcome (Shared J E) (Place W J E) Unit) :
    Prop where
  | notify {id : ℕ} {owner : Bool} {todo : List J} (hk : k = .poster id owner todo true)
      (ho : o = { shared := x, place := .poster id owner todo false, signal := .one () })
  | post {id : ℕ} {owner : Bool} {job : J} {todo : List J}
      (hk : k = .poster id owner (job :: todo) false)
      (ho : o = { shared := S.post x id job, place := .poster id owner todo true })
  | leave {id : ℕ} (hk : k = .poster id false [] false)
      (ho : o = { shared := { x with producing := x.producing - 1 }, place := .ended })
  | close {id : ℕ} (hk : k = .poster id true [] false) (hproducing : x.producing = 0)
      (ho : o = { shared := { x with stop := true }, place := .closing false })
  | ring (hk : k = .closing false)
      (ho : o = { shared := x, place := .closing true, signal := .all () })
  | join (hk : k = .closing true) (hserving : x.serving = 0)
      (ho : o = { shared := x, place := .ended })
  | put {id : ℕ} {w : W} {e : E} {pending : List E} (hk : k = .worker id w (e :: pending))
      (ho : o = { shared := x.put id e, place := .worker id w pending })
  | quit {id : ℕ} {w : W} (hk : k = .worker id w []) (hstop : x.stop = true) (hqueue : x.queue = [])
      (ho : o = { shared := { x with serving := x.serving - 1 }, place := .ended })
  | fetch {id : ℕ} {w : W} (hk : k = .worker id w []) (hqueue : x.queue ≠ [])
      (ho : o = { shared := S.fetch x id
                  place := .worker id (S.work w (x.queue.take S.batch)).2
                    (S.work w (x.queue.take S.batch)).1 })

variable {S}

theorem section_spec {x : Shared J E} {k : Place W J E} (h : S.program.Ready k x) :
    S.Section x k (S.program.body k x) := by
  obtain ⟨hfinished, hguard⟩ := h
  cases k with
  | ended => simp [program] at hfinished
  | closing notified =>
    cases notified with
    | false => exact .ring rfl rfl
    | true => exact .join rfl (by simpa [program] using hguard) rfl
  | poster id owner todo owes =>
    cases owes with
    | true => exact .notify rfl (by cases owner <;> cases todo <;> rfl)
    | false =>
      cases todo with
      | cons job todo => exact .post rfl (by cases owner <;> rfl)
      | nil =>
        cases owner with
        | false => exact .leave rfl rfl
        | true => exact .close rfl (by simpa [program] using hguard) rfl
  | worker id w pending =>
    cases pending with
    | cons e pending => exact .put rfl rfl
    | nil =>
      by_cases hquit : (x.stop && x.queue.isEmpty) = true
      · obtain ⟨hstop, hqueue⟩ := Bool.and_eq_true_iff.mp hquit
        exact .quit rfl hstop (List.isEmpty_iff.mp hqueue) (if_pos hquit)
      · refine .fetch rfl ?_ (if_neg hquit)
        rintro hqueue
        simp_all [program]

/-! ## The queue and the numbers of threads -/

/-- First in, first out, in batches of the right size; the numbers of threads; and once a worker has
ended, the flag is set, nobody posts any more and the queue is empty. -/
structure Books (S : Service W J E) (roles : List (Role W J)) (x : Shared J E)
    (ks : List (Place W J E)) : Prop where
  fifo : x.posted.map Prod.snd = (x.taken.map Prod.snd).flatten ++ x.queue
  batches : ∀ b ∈ x.taken, b.2 ≠ [] ∧ b.2.length ≤ S.batch
  producing : ks.countP Place.produces = x.producing
  serving : ks.countP Place.serves = x.serving
  owner : ks.countP Place.owns = if x.stop then 0 else 1
  posters : x.stop = true → x.producing = 0
  drained : x.serving < roles.countP Role.serves → x.stop = true ∧ x.queue = []

section Books

variable {roles : List (Role W J)} {x : Shared J E} {ks : List (Place W J E)} {i id : ℕ}
  {k : Place W J E} {owner owes : Bool} {todo : List J}

/-- Whoever posts finds the flag down. -/
theorem Books.stop_eq_false (h : S.Books roles x ks)
    (hi : ks[i]? = some (.poster id owner todo owes)) : x.stop = false := by
  by_contra hstop
  have hstop' := Bool.eq_true_of_not_eq_false hstop
  have hmem := List.mem_of_getElem? hi
  cases owner with
  | false =>
    have hpos : 0 < ks.countP Place.produces := List.countP_pos_iff.mpr ⟨_, hmem, rfl⟩
    have hproducing := h.producing
    have hzero := h.posters hstop'
    omega
  | true =>
    have hpos : 0 < ks.countP Place.owns := List.countP_pos_iff.mpr ⟨_, hmem, rfl⟩
    have howner := h.owner
    rw [if_pos hstop'] at howner
    omega

/-- A thread moves to a place of its kind, and only the histories of the output change. -/
theorem Books.goto (h : S.Books roles x ks) (hi : ks[i]? = some k) (k' : Place W J E)
    (hkind : k'.produces = k.produces ∧ k'.serves = k.serves ∧ k'.owns = k.owns)
    (output : List (ℕ × E)) : S.Books roles { x with output } (ks.set i k') := by
  obtain ⟨hproduces, hserves, howns⟩ := hkind
  have hset (Q : Place W J E → Bool) (hQ : Q k' = Q k) : (ks.set i k').countP Q = ks.countP Q := by
    have hcount := countP_set_add Q hi k'
    rw [hQ] at hcount
    exact Nat.add_right_cancel hcount
  exact ⟨h.fifo, h.batches, (hset _ hproduces).trans h.producing, (hset _ hserves).trans h.serving,
    (hset _ howns).trans h.owner, h.posters, h.drained⟩

/-- **Every section keeps the books.** -/
theorem books_keeps (S : Service W J E) (roles : List (Role W J)) :
    S.program.Keeps (S.Books roles) := by
  intro x ks i k h hi hk
  have hproduces := countP_set_add Place.produces hi (S.program.body k x).place
  have hserves := countP_set_add Place.serves hi (S.program.body k x).place
  have howns := countP_set_add Place.owns hi (S.program.body k x).place
  cases section_spec hk with
  | @notify id owner todo hk' ho =>
    subst hk'
    rw [ho]
    exact h.goto hi (.poster id owner todo false) ⟨rfl, rfl, rfl⟩ x.output
  | @post id owner job todo hk' ho =>
    subst hk'
    have hstop := h.stop_eq_false hi
    rw [ho]
    have hgoto := h.goto hi (.poster id owner todo true) ⟨rfl, rfl, rfl⟩ x.output
    refine ⟨?_, h.batches, hgoto.producing, hgoto.serving, hgoto.owner, h.posters, ?_⟩
    · simp [post, h.fifo]
    · intro hlt
      exact absurd ((h.drained hlt).1.symm.trans hstop) (by decide)
  | @leave id hk' ho =>
    subst hk'
    have hstop := h.stop_eq_false hi
    have hproducing := h.producing
    rw [ho] at hproduces hserves howns ⊢
    simp only [Place.produces, Place.serves, Place.owns, Bool.not_false, if_true,
      Bool.false_eq_true, if_false, Nat.add_zero] at hproduces hserves howns
    refine ⟨h.fifo, h.batches, ?_, hserves.trans h.serving, howns.trans h.owner, ?_, h.drained⟩
    · dsimp only
      omega
    · intro htrue
      exact absurd (hstop.symm.trans htrue) (by decide)
  | close hk' hzero ho =>
    subst hk'
    have hstop := h.stop_eq_false hi
    have howner := h.owner
    rw [ho] at hproduces hserves howns ⊢
    simp only [Place.produces, Place.serves, Place.owns, Bool.not_true, if_true,
      Bool.false_eq_true, if_false, Nat.add_zero] at hproduces hserves howns
    rw [hstop, if_neg Bool.false_ne_true] at howner
    refine ⟨h.fifo, h.batches, hproduces.trans h.producing, hserves.trans h.serving, ?_,
      fun _ => hzero, fun hlt => ⟨rfl, (h.drained hlt).2⟩⟩
    dsimp only
    rw [if_pos rfl]
    omega
  | ring hk' ho =>
    subst hk'
    rw [ho]
    exact h.goto hi (.closing true) ⟨rfl, rfl, rfl⟩ x.output
  | join hk' hzero ho =>
    subst hk'
    rw [ho]
    exact h.goto hi .ended ⟨rfl, rfl, rfl⟩ x.output
  | @put id w e pending hk' ho =>
    subst hk'
    rw [ho]
    exact h.goto hi (.worker id w pending) ⟨rfl, rfl, rfl⟩ (x.put id e).output
  | quit hk' hstop hqueue ho =>
    subst hk'
    have hserving := h.serving
    rw [ho] at hproduces hserves howns ⊢
    simp only [Place.produces, Place.serves, Place.owns, if_true, Bool.false_eq_true, if_false,
      Nat.add_zero] at hproduces hserves howns
    refine ⟨h.fifo, h.batches, hproduces.trans h.producing, ?_, howns.trans h.owner, h.posters,
      fun _ => ⟨hstop, hqueue⟩⟩
    dsimp only
    omega
  | @fetch id w hk' hqueue ho =>
    subst hk'
    rw [ho]
    have hgoto := h.goto hi (.worker id (S.work w (x.queue.take S.batch)).2
      (S.work w (x.queue.take S.batch)).1) ⟨rfl, rfl, rfl⟩ x.output
    refine ⟨?_, ?_, hgoto.producing, hgoto.serving, hgoto.owner, h.posters, ?_⟩
    · simp [fetch, h.fifo]
    · intro b hb
      rcases List.mem_append.mp hb with hb | hb
      · exact h.batches b hb
      · obtain rfl : b = (id, x.queue.take S.batch) := by simpa using hb
        refine ⟨?_, List.length_take_le _ _⟩
        simp only [ne_eq, List.take_eq_nil_iff, not_or]
        exact ⟨S.batch_pos.ne', hqueue⟩
    · intro hlt
      exact absurd (h.drained hlt).2 hqueue

theorem countP_places (Q : Place W J E → Bool) (R : Role W J → Bool)
    (hQ : ∀ id r, Q (Role.place id r) = R r) (roles : List (Role W J)) :
    (places roles : List (Place W J E)).countP Q = roles.countP R := by
  induction roles using List.reverseRecOn with
  | nil => rfl
  | append_singleton roles r ih =>
    rw [places, List.mapIdx_concat, List.countP_append, List.countP_append, List.countP_singleton,
      List.countP_singleton, hQ, ← ih]
    rfl

theorem books_start (S : Service W J E) (howner : roles.countP Role.owns = 1) :
    S.Books roles (fresh roles) (places roles) where
  fifo := rfl
  batches := by simp [fresh]
  producing := countP_places _ _ (by rintro id (- | -) <;> rfl) _
  serving := countP_places _ _ (by rintro id (- | -) <;> rfl) _
  owner := by
    rw [countP_places _ Role.owns (by rintro id (- | -) <;> rfl)]
    exact howner
  posters := by simp [fresh]
  drained hlt := absurd hlt (lt_irrefl _)

end Books

/-! ## What each thread has done -/

/-- What a worker puts out for its batches, one after the other, and its local state then. -/
def serve (S : Service W J E) (w : W) (bs : List (List J)) : List E × W :=
  bs.foldl (fun r b => (r.1 ++ (S.work r.2 b).1, (S.work r.2 b).2)) ([], w)

theorem serve_concat (w : W) (bs : List (List J)) (b : List J) :
    S.serve w (bs ++ [b]) = ((S.serve w bs).1 ++ (S.work (S.serve w bs).2 b).1,
      (S.work (S.serve w bs).2 b).2) := by
  rw [serve, List.foldl_append]
  rfl

/-- The batches make no difference to the work: it is done job by job. -/
structure Sequential (S : Service W J E) : Prop where
  nil : ∀ w, S.work w [] = ([], w)
  append : ∀ w b b', S.work w (b ++ b')
    = ((S.work w b).1 ++ (S.work (S.work w b).2 b').1, (S.work (S.work w b).2 b').2)

theorem Sequential.serve_eq (h : S.Sequential) (w : W) (bs : List (List J)) :
    S.serve w bs = S.work w bs.flatten := by
  induction bs using List.reverseRecOn with
  | nil => exact (h.nil w).symm
  | append_singleton bs b ih =>
    rw [serve_concat, ih, List.flatten_append, List.flatten_singleton, h.append]

/-- Workers without local state that take one job at a time. -/
def oneByOne (f : J → List E) : Service Unit J E where
  batch := 1
  batch_pos := Nat.one_pos
  work _ batch := (batch.flatMap f, ())

theorem sequential_oneByOne (f : J → List E) : (oneByOne f).Sequential where
  nil _ := rfl
  append _ b b' := by simp [oneByOne]

/-- Thread `j` has posted its program up to `todo`, and has announced what it has posted. -/
def Posted (S : Service W J E) (x : Shared J E) (j : ℕ) (program todo : List J) : Prop :=
  ofThread j x.posted ++ todo = program ∧
    ofThread j x.output = (ofThread j x.posted).flatMap S.announce

/-- Worker `j` has put out what its batches say, up to `pending`. -/
def Worked (S : Service W J E) (x : Shared J E) (j : ℕ) (w₀ w : W) (pending : List E) : Prop :=
  S.serve w₀ (ofThread j x.taken) = (ofThread j x.output ++ pending, w)

/-- Where a thread is, and what it has done. -/
inductive Record (S : Service W J E) (x : Shared J E) (j : ℕ) : Role W J → Place W J E → Prop where
  | poster {owner owes : Bool} {program todo : List J} (h : S.Posted x j program todo) :
      Record S x j (.poster owner program) (.poster j owner todo owes)
  | closing {notified : Bool} {program : List J} (h : S.Posted x j program []) :
      Record S x j (.poster true program) (.closing notified)
  | left {owner : Bool} {program : List J} (h : S.Posted x j program []) :
      Record S x j (.poster owner program) .ended
  | worker {w₀ w : W} {pending : List E} (h : S.Worked x j w₀ w pending) :
      Record S x j (.worker w₀) (.worker j w pending)
  | quit {w₀ w : W} (h : S.Worked x j w₀ w []) : Record S x j (.worker w₀) .ended

/-- Every thread has done what its place says; only posters post, and only workers take jobs. -/
structure Records (S : Service W J E) (roles : List (Role W J)) (x : Shared J E)
    (ks : List (Place W J E)) : Prop where
  each : ∀ j k, ks[j]? = some k → ∃ r, roles[j]? = some r ∧ S.Record x j r k
  authors : ∀ e ∈ x.posted, ∃ owner program, roles[e.1]? = some (.poster owner program)
  takers : ∀ b ∈ x.taken, ∃ w, roles[b.1]? = some (.worker w)

section Records

variable {roles : List (Role W J)} {x x' : Shared J E} {ks : List (Place W J E)} {i j : ℕ}
  {k k' : Place W J E} {r : Role W J}

/-- A record depends on the thread's own entries only. -/
theorem Record.congr (h : S.Record x j r k) (hposted : ofThread j x'.posted = ofThread j x.posted)
    (htaken : ofThread j x'.taken = ofThread j x.taken)
    (houtput : ofThread j x'.output = ofThread j x.output) : S.Record x' j r k := by
  cases h with
  | poster h => exact .poster (by rwa [Posted, hposted, houtput])
  | closing h => exact .closing (by rwa [Posted, hposted, houtput])
  | left h => exact .left (by rwa [Posted, hposted, houtput])
  | worker h => exact .worker (by rwa [Worked, htaken, houtput])
  | quit h => exact .quit (by rwa [Worked, htaken, houtput])

/-- A section of one thread, which changes the entries of that thread only. -/
theorem Records.set (h : S.Records roles x ks) (hi : ks[i]? = some k)
    (hself : ∀ r, S.Record x i r k → S.Record x' i r k')
    (hother : ∀ j, i ≠ j → ofThread j x'.posted = ofThread j x.posted ∧
      ofThread j x'.taken = ofThread j x.taken ∧ ofThread j x'.output = ofThread j x.output)
    (hauthors : ∀ e ∈ x'.posted, ∃ owner program, roles[e.1]? = some (.poster owner program))
    (htakers : ∀ b ∈ x'.taken, ∃ w, roles[b.1]? = some (.worker w)) :
    S.Records roles x' (ks.set i k') := by
  refine ⟨forall_getElem?_set h.each hi ?_ ?_, hauthors, htakers⟩
  · rintro ⟨r, hr, hrecord⟩
    exact ⟨r, hr, hself r hrecord⟩
  · rintro j l hij ⟨r, hr, hrecord⟩
    obtain ⟨hposted, htaken, houtput⟩ := hother j hij
    exact ⟨r, hr, hrecord.congr hposted htaken houtput⟩

/-- **Every section keeps the records.** -/
theorem records_keeps (S : Service W J E) (roles : List (Role W J)) :
    S.program.Keeps (S.Records roles) := by
  intro x ks i k h hi hk
  obtain ⟨r, hrole, hrecord⟩ := h.each i k hi
  cases section_spec hk with
  | notify hk' ho | leave hk' ho | close hk' hzero ho | ring hk' ho | join hk' hzero ho
  | quit hk' hstop hqueue ho =>
    subst hk'
    rw [ho]
    -- no entry is added, and the record is that of the new place
    refine h.set hi (fun r hr => ?_) (fun _ _ => ⟨rfl, rfl, rfl⟩) h.authors h.takers
    cases hr
    constructor
    assumption
  | @post id owner job todo hk' ho =>
    subst hk'
    rw [ho]
    -- the number in the place is that of the thread
    obtain rfl : id = i := by cases hrecord; rfl
    refine h.set hi (fun r hr => ?_)
      (fun j hij => ⟨ofThread_append_ne hij _ _, rfl, ofThread_append_ne hij _ _⟩) (fun e he => ?_)
      h.takers
    · cases hr with
      | poster hposted =>
        obtain ⟨hprogram, houtput⟩ := hposted
        refine .poster ⟨?_, ?_⟩
        · rw [post, ofThread_append_self, ← hprogram, List.append_assoc]
          rfl
        · rw [post, ofThread_append_self, ofThread_append_self, houtput, List.flatMap_append,
            List.flatMap_singleton]
    · rcases List.mem_append.mp he with he | he
      · exact h.authors e he
      · obtain rfl : e = (id, job) := by simpa using he
        cases hrecord with
        | poster => exact ⟨_, _, hrole⟩
  | @put id w e pending hk' ho =>
    subst hk'
    rw [ho]
    obtain rfl : id = i := by cases hrecord; rfl
    refine h.set hi (fun r hr => ?_) (fun j hij => ⟨rfl, rfl, ofThread_append_ne hij _ _⟩) h.authors
      h.takers
    cases hr with
    | worker hworked =>
      refine .worker ?_
      rw [Worked, Shared.put, ofThread_append_self, List.append_assoc]
      exact hworked
  | @fetch id w hk' hqueue ho =>
    subst hk'
    rw [ho]
    obtain rfl : id = i := by cases hrecord; rfl
    refine h.set hi (fun r hr => ?_) (fun j hij => ⟨rfl, ofThread_append_ne hij _ _, rfl⟩)
      h.authors fun b hb => ?_
    · cases hr with
      | worker hworked =>
        refine .worker ?_
        rw [Worked, List.append_nil] at hworked
        rw [Worked, fetch, ofThread_append_self, serve_concat, hworked]
    · rcases List.mem_append.mp hb with hb | hb
      · exact h.takers b hb
      · obtain rfl : b = (id, x.queue.take S.batch) := by simpa using hb
        cases hrecord with
        | worker => exact ⟨_, hrole⟩

/-- The owner does not end before the workers: the last thing it does is to wait for them. -/
def Joins (roles : List (Role W J)) (x : Shared J E) (ks : List (Place W J E)) : Prop :=
  ∀ (j : ℕ) (program : List J), roles[j]? = some (.poster true program) →
    ks[j]? = some .ended → x.serving = 0

/-- **Every section keeps the owner waiting for the workers.** -/
theorem joins_keeps (S : Service W J E) (roles : List (Role W J)) :
    S.program.Keeps fun x ks => S.Records roles x ks ∧ Joins roles x ks := by
  rintro x ks i k ⟨hrecords, h⟩ hi hk
  refine ⟨records_keeps S roles x ks i k hrecords hi hk, fun j program hj hend => ?_⟩
  obtain ⟨r, hrole, hrecord⟩ := hrecords.each i k hi
  by_cases hij : i = j
  · subst hij
    obtain rfl : r = .poster true program := Option.some.inj (hrole.symm.trans hj)
    rw [List.getElem?_set_self (List.getElem?_eq_some_iff.mp hi).1] at hend
    -- of the sections that lead to an end, only the wait for the workers is the owner's
    cases section_spec hk with
    | join hk' hzero ho => rw [ho]; exact hzero
    | leave hk' ho | quit hk' hstop hqueue ho =>
      subst hk'
      cases hrecord
    | notify hk' ho | post hk' ho | close hk' hzero ho | ring hk' ho | put hk' ho
    | fetch hk' hqueue ho =>
      rw [ho] at hend
      cases hend
  · rw [List.getElem?_set_ne hij] at hend
    have hserving := h j program hj hend
    -- the number of workers never grows
    cases section_spec hk with
    | quit hk' hstop hqueue ho => rw [ho, hserving]
    | notify hk' ho | post hk' ho | leave hk' ho | close hk' hzero ho | ring hk' ho
    | join hk' hzero ho | put hk' ho | fetch hk' hqueue ho =>
      rw [ho]
      exact hserving

theorem records_start (S : Service W J E) (roles : List (Role W J)) :
    S.Records roles (fresh roles) (places roles) := by
  refine ⟨fun j k hj => ?_, by simp [fresh], by simp [fresh]⟩
  rw [places, List.getElem?_mapIdx, Option.map_eq_some_iff] at hj
  obtain ⟨r, hr, rfl⟩ := hj
  refine ⟨r, hr, ?_⟩
  cases r with
  | poster owner program => exact .poster ⟨rfl, rfl⟩
  | worker w => exact .worker rfl

theorem joins_start (roles : List (Role W J)) :
    Joins roles (fresh roles : Shared J E) (places roles) := by
  intro j program hj hend
  rw [places, List.getElem?_mapIdx, hj] at hend
  cases hend

end Records

/-! ## No lost wake-ups -/

section Alert

variable {roles : List (Role W J)} {x : Shared J E} {k : Place W J E} {as : List Act}
  {s : State (Shared J E) (Place W J E)}

/-- Only a worker without pending output waits. -/
theorem waitsOn_eq_some (h : S.program.waitsOn k = some ()) : ∃ id w, k = .worker id w [] := by
  cases k with
  | worker id w pending =>
    cases pending with
    | nil => exact ⟨id, w, rfl⟩
    | cons e pending => simp [program] at h
  | poster | closing | ended => simp [program] at h

/-- A worker goes to sleep when the flag is down and the queue is empty. -/
theorem of_guard_eq_false (hwaits : S.program.waitsOn k = some ())
    (hguard : S.program.guard k x = false) : x.stop = false ∧ x.queue = [] := by
  obtain ⟨id, w, rfl⟩ := waitsOn_eq_some hwaits
  simpa [program] using hguard

theorem owes_eq_true (h : k.owes = true) : ∃ id owner todo, k = .poster id owner todo true := by
  cases k with
  | poster id owner todo owes => exact ⟨id, owner, todo, by rw [show owes = true from h]⟩
  | worker | closing | ended => exact Bool.noConfusion h

/-- Only the owner notifies all. -/
theorem rings_eq_true (h : k.rings = true) : k = .closing false := by
  cases k with
  | closing notified =>
    cases notified with
    | false => rfl
    | true => exact Bool.noConfusion h
  | poster | worker | ended => exact Bool.noConfusion h

/-- A thread that posts can go on, unless it is the owner and waits for the others. -/
theorem ready_poster {id : ℕ} {owner owes : Bool} {todo : List J}
    (h : x.producing = 0 ∨ owner = false ∨ owes = true) :
    S.program.Ready (.poster id owner todo owes) x := by
  refine ⟨rfl, ?_⟩
  cases todo with
  | cons job todo => cases owner <;> cases owes <;> rfl
  | nil => cases owner <;> cases owes <;> simp_all [program]

theorem ready_worker {id : ℕ} {w : W} {pending : List E} (h : x.stop = true) :
    S.program.Ready (.worker id w pending) x := by
  refine ⟨rfl, ?_⟩
  cases pending with
  | nil => simp [program, h]
  | cons e pending => rfl

/-- A job in the queue is announced by the thread that has posted it. -/
theorem supplies (S : Service W J E) (I : Shared J E → List (Place W J E) → Prop) :
    S.program.Supplies I () (fun x => x.queue.length) Place.owes where
  idle k howes := by
    obtain ⟨id, owner, todo, rfl⟩ := owes_eq_true howes
    rfl
  doze k x hwaits hguard := by
    rw [(of_guard_eq_false hwaits hguard).2, List.length_nil]
  booked x ks i k hI hi hk := by
    cases section_spec hk with
    | notify hk' ho | post hk' ho | leave hk' ho | close hk' hzero ho | join hk' hzero ho
    | put hk' ho =>
      subst hk'
      rw [ho]
      exact .inr (.inr (by simp [Program.cover, program, Place.owes, post, Shared.put]))
    | ring hk' ho => exact .inl (by rw [ho])
    | quit hk' hstop hqueue ho => exact .inr (.inl (by rw [ho, hqueue]; rfl))
    | fetch hk' hqueue ho =>
      subst hk'
      have hpos := List.length_pos_iff.mpr hqueue
      have hbatch := S.batch_pos
      rw [ho]
      refine .inr (.inr ?_)
      simp only [Program.cover, program, Place.owes, fetch, List.length_drop, if_true,
        Bool.false_eq_true, if_false, Nat.add_zero]
      omega

theorem summons (S : Service W J E) (I : Shared J E → List (Place W J E) → Prop) :
    S.program.Summons I () (fun _ x => x.stop) Place.rings where
  idle k hrings := by
    rw [rings_eq_true hrings]
    rfl
  doze k x hwaits hguard := (of_guard_eq_false hwaits hguard).1
  announced x ks i k hI hi hk := by
    cases section_spec hk with
    | ring hk' ho => exact .inl (by rw [ho])
    | close hk' hzero ho => exact .inr (.inl (by rw [ho]; rfl))
    | notify hk' ho | post hk' ho | leave hk' ho | join hk' hzero ho | put hk' ho
    | quit hk' hstop hqueue ho | fetch hk' hqueue ho =>
      -- the others leave the flag alone
      refine .inr (.inr ⟨by rw [hk']; rfl, fun _ _ _ hcond => ?_⟩)
      rw [ho] at hcond
      exact hcond

/-- **No wake-up is lost**, neither for a job nor for the flag. -/
theorem alert (hrun : run S.program.step (start roles) as = some s) : S.program.Alert s := by
  intro t ht hasleep hready
  obtain ⟨-, ⟨⟩, hc⟩ := Program.dozing_run hrun t ht hasleep
  have hsleeps : S.program.sleepsOn () t = true := by simp [Program.sleepsOn, hasleep, hc]
  have hrecords := records_start S roles
  have hcovered := (supplies S (S.Records roles)).run (records_keeps S roles) hrecords hrun
  have hexcused := (summons S (S.Records roles)).run (records_keeps S roles) hrecords hrun
  obtain ⟨id, w, hplace⟩ := waitsOn_eq_some hc
  have hguard : s.shared.stop = true ∨ s.shared.queue ≠ [] := by
    have hguard := hready.2
    rw [hplace] at hguard
    simpa [program] using hguard
  rcases hguard with hstop | hqueue
  · obtain ⟨k, hk, hrings⟩ := hexcused t ht hsleeps hstop
    rw [rings_eq_true hrings] at hk
    exact Program.exists_acts_of_mem hk ⟨rfl, rfl⟩
  · refine hcovered.exists_acts ht hsleeps (List.length_pos_iff.mpr hqueue) ?_ ?_
    · intro k hk
      obtain ⟨id, w, rfl⟩ := waitsOn_eq_some hk
      exact ⟨rfl, by simp [program, hqueue]⟩
    · intro k howes
      obtain ⟨id, owner, todo, rfl⟩ := owes_eq_true howes
      exact ready_poster (.inr (.inr rfl))

/-- As long as a thread is not at its end, some condition holds. -/
theorem Books.exists_ready {ks : List (Place W J E)} (h : S.Books roles x ks)
    (hk : k ∈ ks) (hfinished : S.program.finished k = false) :
    ∃ k ∈ ks, S.program.Ready k x := by
  by_contra hnone
  push Not at hnone
  have hproducing : x.producing = 0 := by
    rw [← h.producing, List.countP_eq_zero]
    intro l hl hproduces
    cases l with
    | poster id owner todo owes =>
      have howner : owner = false := by simpa [Place.produces] using hproduces
      exact hnone _ hl (ready_poster (.inr (.inl howner)))
    | closing | worker | ended => exact Bool.noConfusion hproduces
  have hstop : x.stop = true := by
    by_contra hstop
    have howner := h.owner
    rw [if_neg hstop] at howner
    obtain ⟨l, hl, howns⟩ := List.countP_pos_iff.mp (howner.symm ▸ Nat.one_pos)
    cases l with
    | poster id owner todo owes => exact hnone _ hl (ready_poster (.inl hproducing))
    | closing | worker | ended => exact Bool.noConfusion howns
  have hserving : x.serving = 0 := by
    rw [← h.serving, List.countP_eq_zero]
    intro l hl hserves
    cases l with
    | worker id w pending => exact hnone _ hl (ready_worker hstop)
    | poster | closing | ended => exact Bool.noConfusion hserves
  -- what is left is the owner, who waits for workers that are all at their ends
  cases k with
  | poster id owner todo owes => exact hnone _ hk (ready_poster (.inl hproducing))
  | worker id w pending => exact hnone _ hk (ready_worker hstop)
  | ended => exact Bool.noConfusion hfinished
  | closing notified =>
    cases notified with
    | false => exact hnone _ hk ⟨rfl, rfl⟩
    | true => exact hnone _ hk ⟨rfl, by simp [program, hserving]⟩

/-- **Never stuck.** -/
theorem live (howner : roles.countP Role.owns = 1)
    (hrun : run S.program.step (start roles) as = some s) : S.program.Live s := by
  have hbooks := (books_keeps S roles).run (books_start S howner) hrun
  exact (alert hrun).live fun k hk hfinished => hbooks.exists_ready hk hfinished

end Alert

/-! ## All jobs together -/

end Service

/-- The jobs that a thread posts. -/
def Role.program : Role W J → List J
  | .poster _ program => program
  | .worker _ => []

/-- All jobs. -/
def jobs (roles : List (Role W J)) : List J := roles.flatMap Role.program

theorem jobs_cons (r : Role W J) (roles : List (Role W J)) :
    jobs (r :: roles) = r.program ++ jobs roles := List.flatMap_cons

/-- The jobs that a thread has still to post. -/
def Place.todo : Place W J E → List J
  | .poster _ _ todo _ => todo
  | _ => []

/-- The output that a thread has still to make. -/
def Place.pending : Place W J E → List E
  | .worker _ _ pending => pending
  | _ => []

/-- A bound for the sections that a thread executes, without those that put something out. -/
def Place.toDo : Place W J E → ℕ
  | .poster _ owner todo owes => 3 * todo.length + owes.toNat + if owner then 3 else 1
  | .closing notified => if notified then 1 else 2
  | .worker _ _ _ => 1
  | .ended => 0

namespace Service

section Ledger

variable {S : Service W J E} {roles : List (Role W J)} {x : Shared J E} {ks : List (Place W J E)}
  {i : ℕ} {k : Place W J E} {f : J → List E}

/-- The jobs that have been posted and those that have not. -/
def Posts (roles : List (Role W J)) (x : Shared J E) (ks : List (Place W J E)) : Prop :=
  ((x.posted.map Prod.snd : List J) : Multiset J) + total (fun k => (k.todo : Multiset J)) ks
    = (jobs roles : Multiset J)

theorem posts_keeps (S : Service W J E) (roles : List (Role W J)) :
    S.program.Keeps (Posts roles) := by
  intro x ks i k h hi hk
  unfold Posts at h ⊢
  rw [← h]
  cases section_spec hk with
  | @post id owner job todo hk' ho =>
    subst hk'
    rw [ho, ← total_set_of_eq_add (d := ([job] : Multiset J)) (q := .poster id owner todo true) hi
      rfl]
    simp only [post, List.map_append, ← Multiset.coe_add, List.map_map]
    exact (add_assoc _ _ _).trans (congrArg _ (add_comm _ _))
  | notify hk' ho | leave hk' ho | close hk' hzero ho | ring hk' ho | join hk' hzero ho | put hk' ho
  | quit hk' hstop hqueue ho | fetch hk' hqueue ho =>
    subst hk'
    rw [ho]
    exact congrArg _ (add_right_cancel (total_set _ hi _))

/-- What has been put out and what is pending, for workers that treat every job on its own. -/
def Yields (S : Service W J E) (f : J → List E) (x : Shared J E) (ks : List (Place W J E)) :
    Prop :=
  ((x.output.map Prod.snd : List E) : Multiset E) + total (fun k => (k.pending : Multiset E)) ks
    = (((x.posted.map Prod.snd).flatMap S.announce : List E) : Multiset E)
      + (((x.taken.map Prod.snd).flatten.flatMap f : List E) : Multiset E)

theorem yields_keeps (hwork : ∀ w b, S.work w b = (b.flatMap f, w)) :
    S.program.Keeps (S.Yields f) := by
  intro x ks i k h hi hk
  unfold Yields at h ⊢
  cases section_spec hk with
  | @post id owner job todo hk' ho =>
    subst hk'
    have hsame := add_right_cancel (total_set (fun k : Place W J E => (k.pending : Multiset E)) hi
      (.poster id owner todo true))
    rw [ho]
    simp only [post, List.map_append, List.flatMap_append, ← Multiset.coe_add, List.map_map]
    rw [hsame, add_right_comm, h, add_right_comm]
    simp [Function.comp_def]
  | @put id w e pending hk' ho =>
    subst hk'
    rw [← total_set_of_eq_add (d := ([e] : Multiset E)) (q := .worker id w pending) hi rfl] at h
    rw [ho]
    refine Eq.trans ?_ h
    simp only [Shared.put, List.map_append, ← Multiset.coe_add, List.map_map]
    exact (add_assoc _ _ _).trans (congrArg _ (add_comm _ _))
  | @fetch id w hk' hqueue ho =>
    subst hk'
    rw [ho]
    have hset := total_set (fun k : Place W J E => (k.pending : Multiset E)) hi
      (.worker id w ((x.queue.take S.batch).flatMap f))
    have hpending := (add_zero _).symm.trans hset
    dsimp only
    rw [hwork, hpending, ← add_assoc]
    simp only [fetch, List.map_append, List.flatten_append, List.flatMap_append, ← Multiset.coe_add]
    rw [h, add_assoc]
    simp [Place.pending]
  | notify hk' ho | leave hk' ho | close hk' hzero ho | ring hk' ho | join hk' hzero ho
  | quit hk' hstop hqueue ho =>
    subst hk'
    rw [ho, ← h]
    exact congrArg _ (add_right_cancel (total_set _ hi _))

theorem total_places {M : Type*} [AddCommMonoid M] (g : Place W J E → M) (h : Role W J → M)
    (hg : ∀ id r, g (Role.place id r) = h r) (roles : List (Role W J)) :
    total g (places roles) = total h roles := by
  unfold total places
  congr 1
  apply List.ext_getElem?
  intro j
  rw [List.getElem?_map, List.getElem?_map, List.getElem?_mapIdx, Option.map_map]
  exact Option.map_congr fun r _ => hg j r

theorem total_program (roles : List (Role W J)) :
    total (fun r => (r.program : Multiset J)) roles = (jobs roles : Multiset J) := by
  induction roles with
  | nil => rfl
  | cons r roles ih =>
    rw [total_cons, ih, jobs_cons, Multiset.coe_add]

theorem posts_start (roles : List (Role W J)) :
    Posts roles (fresh roles : Shared J E) (places roles) := by
  unfold Posts
  rw [total_places _ (fun r => (r.program : Multiset J)) (by rintro id (- | -) <;> rfl),
    total_program]
  exact zero_add _

theorem yields_start (S : Service W J E) (f : J → List E) (roles : List (Role W J)) :
    S.Yields f (fresh roles) (places roles) := by
  unfold Yields
  rw [total_places _ (fun _ => 0) (by rintro id (- | -) <;> rfl), total_eq_zero _ fun _ _ => rfl]
  rfl

/-! ## How many sections there are -/

/-- Every section is one less to execute, or puts something out. -/
theorem toDo_lt (hi : ks[i]? = some k) (hk : S.program.Ready k x) :
    (S.program.body k x).shared.queue.length
        + total Place.toDo (ks.set i (S.program.body k x).place) + x.output.length
      < x.queue.length + total Place.toDo ks + (S.program.body k x).shared.output.length := by
  have hset := total_set Place.toDo hi (S.program.body k x).place
  cases section_spec hk with
  | notify hk' ho | leave hk' ho | close hk' hzero ho | ring hk' ho | join hk' hzero ho
  | quit hk' hstop hqueue ho =>
    subst hk'
    rw [ho] at hset ⊢
    simp [Place.toDo] at hset ⊢
    omega
  | post hk' ho | put hk' ho =>
    subst hk'
    rw [ho] at hset ⊢
    simp [Place.toDo, post, Shared.put] at hset ⊢
    omega
  | fetch hk' hqueue ho =>
    subst hk'
    have hpos := List.length_pos_iff.mpr hqueue
    have hbatch := S.batch_pos
    rw [ho] at hset ⊢
    simp [Place.toDo, fetch] at hset ⊢
    omega

theorem total_toDo_places (howner : roles.countP Role.owns = 1) :
    total Place.toDo (places roles : List (Place W J E))
      = 3 * (jobs roles).length + roles.length + 2 := by
  have hgeneral : ∀ roles : List (Role W J), total Place.toDo (places roles : List (Place W J E))
      = 3 * (jobs roles).length + roles.length + 2 * roles.countP Role.owns := by
    intro roles
    rw [total_places _ (fun r => 3 * r.program.length + 1 + if r.owns then 2 else 0)]
    · induction roles with
      | nil => rfl
      | cons r roles ih =>
        rw [total_cons, ih, jobs_cons, List.length_append, List.length_cons, List.countP_cons]
        split_ifs <;> omega
    · rintro id (⟨owner, program⟩ | w)
      · cases owner <;> rfl
      · rfl
  rw [hgeneral, howner]

end Ledger

/-! ## The results -/

section Results

variable {S : Service W J E} {roles : List (Role W J)} {as : List Act}
  {s : State (Shared J E) (Place W J E)} {j : ℕ}

/-- What holds at any time. -/
structure Conduct (S : Service W J E) (roles : List (Role W J))
    (s : State (Shared J E) (Place W J E)) : Prop where
  /-- The jobs are taken in the order in which they are posted. -/
  fifo : s.shared.posted.map Prod.snd = (s.shared.taken.map Prod.snd).flatten ++ s.shared.queue
  batches : ∀ b ∈ s.shared.taken, b.2 ≠ [] ∧ b.2.length ≤ S.batch
  authors : ∀ e ∈ s.shared.posted, ∃ owner program, roles[e.1]? = some (.poster owner program)
  takers : ∀ b ∈ s.shared.taken, ∃ w, roles[b.1]? = some (.worker w)
  /-- Every thread posts its program. -/
  posters : ∀ j owner program, roles[j]? = some (.poster owner program) →
    ofThread j s.shared.posted <+: program ∧
      ofThread j s.shared.output = (ofThread j s.shared.posted).flatMap S.announce
  /-- Every worker puts out what its batches say. -/
  workers : ∀ j w, roles[j]? = some (.worker w) →
    ofThread j s.shared.output <+: (S.serve w (ofThread j s.shared.taken)).1

/-- What holds when all threads are at their ends. -/
structure Completed (S : Service W J E) (roles : List (Role W J))
    (s : State (Shared J E) (Place W J E)) : Prop where
  posted : List.Perm (s.shared.posted.map Prod.snd) (jobs roles)
  posters : ∀ j owner program, roles[j]? = some (.poster owner program) →
    ofThread j s.shared.posted = program
  workers : ∀ j w, roles[j]? = some (.worker w) →
    ofThread j s.shared.output = (S.serve w (ofThread j s.shared.taken)).1
  /-- With a worker, no job is left. -/
  queue : 0 < roles.countP Role.serves → s.shared.queue = []

theorem exists_record (hrun : run S.program.step (start roles) as = some s) {r : Role W J}
    (hr : roles[j]? = some r) : ∃ k ∈ s.places, S.Record s.shared j r k := by
  have hrecords := (records_keeps S roles).run (records_start S roles) hrun
  have hlength := Program.length_places hrun
  rw [places, List.length_mapIdx] at hlength
  have hlt : j < s.places.length := by
    rw [hlength]
    exact (List.getElem?_eq_some_iff.mp hr).1
  obtain ⟨r', hr', hrecord⟩ := hrecords.each j _ (List.getElem?_eq_getElem hlt)
  obtain rfl : r' = r := Option.some.inj (hr'.symm.trans hr)
  exact ⟨_, List.getElem_mem hlt, hrecord⟩

/-- **The conduct of a work queue**, in every interleaving. -/
theorem conduct (howner : roles.countP Role.owns = 1)
    (hrun : run S.program.step (start roles) as = some s) : S.Conduct roles s := by
  have hbooks := (books_keeps S roles).run (books_start S howner) hrun
  have hrecords := (records_keeps S roles).run (records_start S roles) hrun
  refine ⟨hbooks.fifo, hbooks.batches, hrecords.authors, hrecords.takers,
    fun j owner program hr => ?_, fun j w hr => ?_⟩
  · obtain ⟨k, -, hrecord⟩ := exists_record hrun hr
    have hposted : ∃ todo, S.Posted s.shared j program todo := by
      cases hrecord with
      | poster h => exact ⟨_, h⟩
      | closing h => exact ⟨_, h⟩
      | left h => exact ⟨_, h⟩
    obtain ⟨todo, rfl, houtput⟩ := hposted
    exact ⟨List.prefix_append _ _, houtput⟩
  · obtain ⟨k, -, hrecord⟩ := exists_record hrun hr
    have hworked : ∃ w' pending, S.Worked s.shared j w w' pending := by
      cases hrecord with
      | worker h => exact ⟨_, _, h⟩
      | quit h => exact ⟨_, _, h⟩
    obtain ⟨w', pending, hworked⟩ := hworked
    rw [hworked]
    exact List.prefix_append _ _

/-- With one thread that posts, the jobs are posted in the order of its program. -/
theorem Conduct.posted_isPrefix (h : S.Conduct roles s) {owner : Bool} {program : List J}
    (hj : roles[j]? = some (.poster owner program))
    (hsole : ∀ i owner program, roles[i]? = some (.poster owner program) → i = j) :
    s.shared.posted.map Prod.snd <+: program := by
  have hposted := (h.posters j owner program hj).1
  rwa [ofThread_eq_map] at hposted
  intro e he
  obtain ⟨owner', program', hrole⟩ := h.authors e he
  exact hsole _ _ _ hrole

theorem Conduct.ofThread_taken (h : S.Conduct roles s)
    (hsole : ∀ i w, roles[i]? = some (.worker w) → i = j) :
    ofThread j s.shared.taken = s.shared.taken.map Prod.snd := by
  apply ofThread_eq_map
  intro b hb
  obtain ⟨w, hrole⟩ := h.takers b hb
  exact hsole _ _ hrole

theorem Conduct.taken_eq_nil (h : S.Conduct roles s) (hnone : roles.countP Role.serves = 0) :
    s.shared.taken = [] := by
  apply List.eq_nil_iff_forall_not_mem.mpr
  intro b hb
  obtain ⟨w, hrole⟩ := h.takers b hb
  exact List.countP_eq_zero.mp hnone _ (List.mem_of_getElem? hrole) rfl

theorem eq_ended (hdone : S.program.Done s) {k : Place W J E} (hk : k ∈ s.places) : k = .ended := by
  have hfinished := hdone k hk
  cases k with
  | ended => rfl
  | poster | closing | worker => exact Bool.noConfusion hfinished

/-- The thread has returned. -/
def Ended (s : State (Shared J E) (Place W J E)) (j : ℕ) : Prop := s.places[j]? = some .ended

theorem eq_of_owner (howner : roles.countP Role.owns = 1) {i : ℕ} {program program' : List J}
    (hi : roles[i]? = some (.poster true program))
    (hj : roles[j]? = some (.poster true program')) : i = j := by
  by_contra hij
  have hset := countP_set_add Role.owns hj (.poster false [])
  have hmem : Role.poster true program ∈ roles.set j (.poster false []) :=
    List.mem_of_getElem? ((List.getElem?_set_ne (Ne.symm hij)).trans hi)
  have hpos : 0 < (roles.set j (.poster false [])).countP Role.owns :=
    List.countP_pos_iff.mpr ⟨_, hmem, rfl⟩
  simp only [Role.owns, if_true, Bool.false_eq_true, if_false] at hset
  omega

/-- The owner does not return before it has stopped the service. -/
theorem stop_of_ended {x : Shared J E} {ks : List (Place W J E)} (hbooks : S.Books roles x ks)
    (hrecords : S.Records roles x ks) (hended : ∀ (i : ℕ) k program, ks[i]? = some k →
      roles[i]? = some (.poster true program) → k = .ended) : x.stop = true := by
  by_contra hstop
  have hcount := hbooks.owner
  rw [if_neg hstop] at hcount
  obtain ⟨k, hk, howns⟩ := List.countP_pos_iff.mp (hcount.symm ▸ Nat.one_pos)
  obtain ⟨i, hi⟩ := List.mem_iff_getElem?.mp hk
  obtain ⟨r, hrole, hrecord⟩ := hrecords.each i k hi
  cases hrecord with
  | @poster owner owes program todo =>
    obtain rfl : owner = true := howns
    exact absurd (hended i _ program hi hrole) (by simp)
  | closing | left | worker | quit => exact Bool.noConfusion howns

/-- **The owner is the last to return.** -/
theorem done_of_ended (howner : roles.countP Role.owns = 1)
    (hrun : run S.program.step (start roles) as = some s) {program : List J}
    (hj : roles[j]? = some (.poster true program)) (hend : Ended s j) : S.program.Done s := by
  have hbooks := (books_keeps S roles).run (books_start S howner) hrun
  obtain ⟨hrecords, hjoins⟩ :=
    (joins_keeps S roles).run ⟨records_start S roles, joins_start roles⟩ hrun
  have hserving := hjoins j program hj hend
  -- nobody else is the owner, and the owner is at its end
  have hother : ∀ (i : ℕ) k program', s.places[i]? = some k →
      roles[i]? = some (.poster true program') → k = .ended := by
    intro i k program' hi hrole
    obtain rfl := eq_of_owner howner hrole hj
    exact Option.some.inj (hi.symm.trans hend)
  have hstop := stop_of_ended hbooks hrecords hother
  intro k hk
  obtain ⟨i, hi⟩ := List.mem_iff_getElem?.mp hk
  cases k with
  | ended => rfl
  | poster id owner todo owes =>
    exact absurd (hstop.symm.trans (hbooks.stop_eq_false hi)) (by decide)
  | worker id w pending =>
    have hpos : 0 < s.places.countP Place.serves := List.countP_pos_iff.mpr ⟨_, hk, rfl⟩
    have hcount := hbooks.serving
    omega
  | closing notified =>
    obtain ⟨r, hrole, hrecord⟩ := hrecords.each i _ hi
    cases hrecord with
    | closing => exact absurd (hother i _ _ hi hrole) (by simp)

/-- **The end**: every job has been posted, taken and worked on. -/
theorem completed (howner : roles.countP Role.owns = 1)
    (hrun : run S.program.step (start roles) as = some s) (hdone : S.program.Done s) :
    S.Completed roles s := by
  have hbooks := (books_keeps S roles).run (books_start S howner) hrun
  have hposts := (posts_keeps S roles).run (posts_start roles) hrun
  refine ⟨?_, fun j owner program hr => ?_, fun j w hr => ?_, fun hworkers => ?_⟩
  · have hzero : total (fun k : Place W J E => (k.todo : Multiset J)) s.places = 0 := by
      apply total_eq_zero
      intro k hk
      rw [eq_ended hdone hk]
      rfl
    rw [Posts, hzero, add_zero] at hposts
    exact Multiset.coe_eq_coe.mp hposts
  · obtain ⟨k, hk, hrecord⟩ := exists_record hrun hr
    rw [eq_ended hdone hk] at hrecord
    cases hrecord with
    | left h => exact (List.append_nil _).symm.trans h.1
  · obtain ⟨k, hk, hrecord⟩ := exists_record hrun hr
    rw [eq_ended hdone hk] at hrecord
    cases hrecord with
    | quit h => rw [h, List.append_nil]
  · have hserving : s.shared.serving = 0 := by
      rw [← hbooks.serving, List.countP_eq_zero]
      intro k hk
      rw [eq_ended hdone hk]
      exact Bool.false_ne_true
    exact (hbooks.drained (hserving ▸ hworkers)).2

/-- Where the workers treat every job on its own, the output at any time, up to its order. -/
theorem output_subperm {f : J → List E} (hwork : ∀ w b, S.work w b = (b.flatMap f, w))
    (hrun : run S.program.step (start roles) as = some s) :
    (s.shared.output.map Prod.snd).Subperm ((s.shared.posted.map Prod.snd).flatMap S.announce
      ++ (s.shared.taken.map Prod.snd).flatten.flatMap f) := by
  have hyields := (yields_keeps hwork).run (yields_start S f roles) hrun
  rw [Yields, Multiset.coe_add] at hyields
  rw [← Multiset.coe_le, ← hyields]
  exact Multiset.le_add_right _ _

/-- Where the workers treat every job on its own, the output in the end, up to its order. -/
theorem output_perm {f : J → List E} (hwork : ∀ w b, S.work w b = (b.flatMap f, w))
    (howner : roles.countP Role.owns = 1) (hworkers : 0 < roles.countP Role.serves)
    (hrun : run S.program.step (start roles) as = some s) (hdone : S.program.Done s) :
    (s.shared.output.map Prod.snd).Perm
      ((jobs roles).flatMap S.announce ++ (jobs roles).flatMap f) := by
  have hbooks := (books_keeps S roles).run (books_start S howner) hrun
  have hyields := (yields_keeps hwork).run (yields_start S f roles) hrun
  have hcompleted := completed howner hrun hdone
  have hzero : total (fun k : Place W J E => (k.pending : Multiset E)) s.places = 0 := by
    apply total_eq_zero
    intro k hk
    rw [eq_ended hdone hk]
    rfl
  have hfifo := hbooks.fifo
  rw [hcompleted.queue hworkers, List.append_nil] at hfifo
  rw [Yields, hzero, add_zero, ← hfifo, Multiset.coe_add, Multiset.coe_eq_coe] at hyields
  exact hyields.trans ((hcompleted.posted.flatMap_right _).append
    (hcompleted.posted.flatMap_right _))

/-- At most three sections are executed for a job, and one for each entry that is put out. -/
theorem effort_le (howner : roles.countP Role.owns = 1)
    (hrun : run S.program.step (start roles) as = some s) :
    S.program.effort (start roles) as
      ≤ 3 * (jobs roles).length + roles.length + 2 + s.shared.output.length := by
  have heffort := Program.effort_le
    (μ := fun x ks => x.queue.length + total Place.toDo ks) (ν := fun x => x.output.length)
    (books_keeps S roles) (fun _ _ _ _ _ hi hk => toDo_lt hi hk)
    (by rw [start, Program.places_start]; exact books_start S howner) hrun
  rw [start, Program.places_start] at heffort
  have hstart := total_toDo_places (E := E) howner
  simp only [MonitorPrograms.start, fresh, List.length_nil] at heffort
  unfold start
  simp only [MonitorPrograms.start, fresh]
  omega

end Results

end Service

end WorkQueue
