/-
# The cloud backup pipeline

Model of `multi-stage-pipeline/Cloud_Backup_Pipeline.cpp`.  Workers take jobs from a queue and run
five stages on each; a job that fails is put back into the queue until it has been retried three
times.  The destructor sets `stopped` and joins the workers, which return when the queue is empty.

The result of every stage call is left to the schedule, and so is the interleaving of the critical
sections.  A job that a client submits gets a number, and the log says when an attempt on it was
started and how it ended; what is written to the console is left out.

Result: when the workers have been joined, the queue is empty and every job was attempted until it
succeeded or its retries were used up.
-/
import SystemsDesign.EventLog
import SystemsDesign.WorkerPool

namespace CloudBackups

open EventLog TransitionSystem WorkerPool

/-! ## Jobs -/

/-- `Status`. -/
inductive Status where
  | pending
  | running
  | success
  | failed
  deriving DecidableEq

/-- `BackupJob`. -/
structure BackupJob where
  jobId : ℤ
  fileName : String
  retryCount : ℤ := 0
  status : Status := .pending
  deriving DecidableEq

/-- What the five stage calls return. -/
structure Stages where
  read : Bool
  chunk : Bool
  compress : Bool
  encrypt : Bool
  upload : Bool
  deriving DecidableEq

/-- `process_backup` up to the stages. -/
def beginBackup (job : BackupJob) : BackupJob := { job with status := .running }

/-- `process_backup` from the stages on. -/
def processBackup (stages : Stages) (job : BackupJob) : BackupJob :=
  if !stages.read || !stages.chunk || !stages.compress || !stages.encrypt || !stages.upload then
    { job with status := .failed }
  else { job with status := .success }

/-! ## The pipeline -/

/-- A job and the number of its submission. -/
structure Ticket where
  number : ℕ
  job : BackupJob
  deriving DecidableEq

/-- What a worker does with a job: it has taken it, runs the stages, or has run them. -/
inductive Work where
  | taken (t : Ticket)
  | running (t : Ticket)
  | processed (t : Ticket)
  deriving DecidableEq

/-- What the log says about a job. -/
inductive Mark where
  | started
  | ended (ok : Bool)
  deriving DecidableEq

/-- The queue with `stopped` and the workers, how many jobs have been submitted, and the log. -/
structure State where
  pool : Pool Ticket Work
  submitted : ℕ
  log : List (ℕ × Mark)
  deriving DecidableEq

/-- The constructor. -/
def start (numThreads : ℕ) : State where
  pool := .start numThreads
  submitted := 0
  log := []

/-- The call of a client, the destructor up to the joins, and the turn of worker `w`, with what the
stages return if it runs them. -/
inductive Act where
  | submitJob (job : BackupJob)
  | destroy
  | work (w : ℕ) (stages : Stages)
  deriving DecidableEq

/-- The turn of a worker that has a job. -/
def handle (s : State) (w : ℕ) (stages : Stages) : Work → State
  | .taken t =>
    { s with
      pool := s.pool.goto w (.busy (.running { t with job := beginBackup t.job }))
      log := s.log ++ [(t.number, .started)] }
  | .running t =>
    let job := processBackup stages t.job
    { s with
      pool := s.pool.goto w (.busy (.processed { t with job }))
      log := s.log ++ [(t.number, .ended (job.status = .success))] }
  | .processed t =>
    if t.job.status = .failed ∧ t.job.retryCount < 3 then
      let job := { t.job with retryCount := t.job.retryCount + 1 }
      { s with pool := (s.pool.push { t with job }).goto w .waiting }
    else { s with pool := s.pool.goto w .waiting }

/-- One turn. -/
def step (s : State) : Act → Option State
  | .submitJob job =>
    some { s with
      pool := s.pool.push ⟨s.submitted, job⟩
      submitted := s.submitted + 1 }
  | .destroy => some { s with pool := s.pool.halt }
  | .work w stages =>
    match s.pool.workers[w]? with
    | some .waiting => (s.pool.fetch w .taken).map fun pool => { s with pool }
    | some (.busy k) => some (handle s w stages k)
    | _ => none

/-- Clients submit jobs before the destructor starts. -/
def SubmitsBefore (s : State) : Act → Prop
  | .submitJob _ => s.pool.stop = false
  | _ => True

instance (s : State) (a : Act) : Decidable (SubmitsBefore s a) := by
  cases a <;> unfold SubmitsBefore <;> infer_instance

/-- What a turn can be. -/
inductive Step (s : State) : Act → State → Prop where
  | submitJob (job : BackupJob) : Step s (.submitJob job)
      { s with pool := s.pool.push ⟨s.submitted, job⟩, submitted := s.submitted + 1 }
  | destroy : Step s .destroy { s with pool := s.pool.halt }
  | take {w : ℕ} {stages : Stages} {t : Ticket} (hw : s.pool.workers[w]? = some .waiting)
      (ht : s.pool.queue[0]? = some t) :
      Step s (.work w stages) { s with pool := s.pool.take 0 w (.busy (.taken t)) }
  | leave {w : ℕ} {stages : Stages} (hstop : s.pool.stop = true) (hempty : s.pool.queue = [])
      (hw : s.pool.workers[w]? = some .waiting) :
      Step s (.work w stages) { s with pool := s.pool.goto w .returned }
  | handle {w : ℕ} {stages : Stages} {k : Work} (hw : s.pool.workers[w]? = some (.busy k)) :
      Step s (.work w stages) (handle s w stages k)

/-- Every enabled turn is one of these. -/
theorem step_spec {s s' : State} {a : Act} (h : step s a = some s') : Step s a s' := by
  cases a with
  | submitJob job =>
    obtain rfl := Option.some.inj h
    exact .submitJob job
  | destroy =>
    obtain rfl := Option.some.inj h
    exact .destroy
  | work w stages =>
    simp only [step] at h
    split at h
    next hw =>
      obtain ⟨pool, hpool, rfl⟩ := Option.map_eq_some_iff.mp h
      rcases Pool.fetch_spec hpool with ⟨hstop, hempty, rfl⟩ | ⟨t, ht, rfl⟩
      · exact .leave hstop hempty hw
      · exact .take hw ht
    next k hw =>
      obtain rfl := Option.some.inj h
      exact .handle hw
    next => cases h

/-! ## Histories -/

/-- What the log says about the job with this number. -/
def history (log : List (ℕ × Mark)) (number : ℕ) : List Mark :=
  (log.filter fun e => e.1 = number).map Prod.snd

/-- `k` failed attempts. -/
def failures (k : ℕ) : List Mark := (List.replicate k [.started, .ended false]).flatten

theorem failures_succ (k : ℕ) : failures (k + 1) = failures k ++ [.started, .ended false] := by
  unfold failures
  rw [List.replicate_succ', List.flatten_concat]

theorem count_started_failures (k : ℕ) : (failures k).count .started = k := by
  induction k with
  | zero => rfl
  | succ k ih =>
    rw [failures_succ, List.count_append, ih]
    rfl

theorem history_concat_self (log : List (ℕ × Mark)) (number : ℕ) (m : Mark) :
    history (log ++ [(number, m)]) number = history log number ++ [m] := by
  simp [history]

theorem history_concat_of_ne (log : List (ℕ × Mark)) {number other : ℕ} (hne : other ≠ number)
    (m : Mark) : history (log ++ [(number, m)]) other = history log other := by
  simp [history, hne.symm]

theorem mem_log_concat {log : List (ℕ × Mark)} {number : ℕ} {m : Mark} {d : ℕ × Mark}
    (hd : d ∈ log ++ [(number, m)]) : d ∈ log ∨ d.1 = number := by
  rcases List.mem_append.mp hd with hd | hd
  · exact .inl hd
  · exact .inr (by rw [List.mem_singleton.mp hd])

theorem history_eq_nil {log : List (ℕ × Mark)} {number : ℕ} (h : ∀ e ∈ log, e.1 ≠ number) :
    history log number = [] := by
  simpa [history] using h

/-- A job with `retryCount` on submission is done: it succeeded after some failures, or failed as
often as it could be tried. -/
def Finished (retryCount : ℤ) (marks : List Mark) : Prop :=
  ∃ k ok, marks = failures k ++ [.started, .ended ok] ∧ k ≤ (3 - retryCount).toNat ∧
    (ok = true ∨ k = (3 - retryCount).toNat)

/-! ## The invariant -/

/-- A job on its way, and the part of its history that belongs to where it is. -/
abbrev Entry := Ticket × List Mark

/-- The entry of a job in the queue. -/
def queued (t : Ticket) : Entry := (t, [])

/-- The entry of a job that a worker has. -/
def inWork : Work → Multiset Entry
  | .taken t => {(t, [])}
  | .running t => {(t, [.started])}
  | .processed t => {(t, [.started, .ended (t.job.status = .success)])}

/-- The entries of a state. -/
def entries (s : State) : Multiset Entry := s.pool.account queued inWork

/-- The jobs that clients have submitted. -/
def jobsOf (as : List Act) : List BackupJob :=
  as.filterMap fun | .submitJob job => some job | _ => none

/-- What is known about a job on its way: how often it has failed, and how it has just ended. -/
structure Valid (jobs : List BackupJob) (log : List (ℕ × Mark)) (e : Entry) (job : BackupJob)
    (k : ℕ) : Prop where
  submitted : jobs[e.1.number]? = some job
  retries : e.1.job.retryCount = job.retryCount + k
  bound : k ≤ (3 - job.retryCount).toNat
  history : history log e.1.number = failures k ++ e.2
  status : ∀ ok, e.2 = [.started, .ended ok] → e.1.job.status = if ok then .success else .failed

/-- The invariant, for the calls made so far: jobs on their way have different numbers and a valid
history, and the others are done. -/
structure Inv (done : List Act) (s : State) : Prop where
  alive : s.pool.Alive
  count : s.submitted = (jobsOf done).length
  nodup : ((entries s).map fun e => e.1.number).Nodup
  valid : ∀ e ∈ entries s, ∃ job k, Valid (jobsOf done) s.log e job k
  logged : ∀ e ∈ s.log, e.1 < s.submitted
  settled : ∀ number job, (jobsOf done)[number]? = some job →
    (∃ e ∈ entries s, e.1.number = number) ∨ Finished job.retryCount (history s.log number)

section Steps

variable {done : List Act} {s s' : State} {a : Act} {e e' : Entry} {rest : Multiset Entry}

/-- Only a client's call makes a job. -/
theorem jobsOf_concat_of_ne (ha : ∀ job, a ≠ .submitJob job) :
    jobsOf (done ++ [a]) = jobsOf done := by
  unfold jobsOf
  rw [List.filterMap_append]
  cases a with
  | submitJob job => exact absurd rfl (ha job)
  | destroy => simp
  | work w stages => simp

/-- A turn that leaves the jobs where they are. -/
theorem Inv.same (h : Inv done s) (ha : ∀ job, a ≠ .submitJob job) {pool : Pool Ticket Work}
    (hmove : s.pool.Move pool) (hentries : entries { s with pool } = entries s) :
    Inv (done ++ [a]) { s with pool } := by
  refine ⟨h.alive.move hmove, ?_, ?_, ?_, h.logged, ?_⟩
  · rw [jobsOf_concat_of_ne ha]
    exact h.count
  · rw [hentries]
    exact h.nodup
  · rw [hentries, jobsOf_concat_of_ne ha]
    exact h.valid
  · rw [hentries, jobsOf_concat_of_ne ha]
    exact h.settled

theorem Inv.submitJob (h : Inv done s) (hstop : s.pool.stop = false) (job : BackupJob) :
    Inv (done ++ [.submitJob job])
      { s with pool := s.pool.push ⟨s.submitted, job⟩, submitted := s.submitted + 1 } := by
  have hjobs : jobsOf (done ++ [.submitJob job]) = jobsOf done ++ [job] := by
    simp [jobsOf]
  have hentries : entries ⟨s.pool.push ⟨s.submitted, job⟩, s.submitted + 1, s.log⟩
      = entries s + {queued ⟨s.submitted, job⟩} := Pool.account_push _ _ _ _
  have hlt (e : Entry) (he : e ∈ entries s) : e.1.number < s.submitted := by
    obtain ⟨job', k, hvalid⟩ := h.valid e he
    rw [h.count]
    exact (List.getElem?_eq_some_iff.mp hvalid.submitted).1
  refine ⟨h.alive.move (.submit _ hstop), ?_, ?_, ?_, ?_, ?_⟩
  · rw [hjobs, List.length_append, ← h.count]
    rfl
  · -- the new number is larger than all others
    rw [hentries, Pool.nodup_map_add_singleton]
    exact ⟨fun e he => Nat.ne_of_lt (hlt e he), h.nodup⟩
  · intro e he
    rw [hentries, Multiset.mem_add, Multiset.mem_singleton] at he
    rw [hjobs]
    rcases he with he | rfl
    · obtain ⟨job', k, hvalid⟩ := h.valid e he
      refine ⟨job', k, { hvalid with submitted := ?_ }⟩
      rw [List.getElem?_append_left (h.count ▸ hlt e he)]
      exact hvalid.submitted
    · refine ⟨job, 0, ?_, by simp [queued], Nat.zero_le _, ?_, by simp [queued]⟩
      · show (jobsOf done ++ [job])[s.submitted]? = some job
        rw [h.count]
        exact List.getElem?_concat_length
      · exact history_eq_nil fun e he => Nat.ne_of_lt (h.logged e he)
  · exact fun e he => Nat.lt_succ_of_lt (h.logged e he)
  · intro number job' hnumber
    rw [hjobs] at hnumber
    rw [hentries]
    rcases Nat.lt_or_ge number (jobsOf done).length with hlt' | hge
    · rw [List.getElem?_append_left hlt'] at hnumber
      apply (h.settled number job' hnumber).imp_left
      rintro ⟨e, he, heq⟩
      exact ⟨e, Multiset.mem_add.mpr (.inl he), heq⟩
    · have hlast : number = s.submitted := by
        have := (List.getElem?_eq_some_iff.mp hnumber).1
        rw [List.length_append, List.length_singleton] at this
        rw [h.count]
        omega
      exact .inl ⟨_, Multiset.mem_add.mpr (.inr (Multiset.mem_singleton_self _)), hlast.symm⟩

theorem Inv.ne_of_mem_rest (h : Inv done s) (hs : entries s = rest + {e}) {d : Entry}
    (hd : d ∈ rest) : d.1.number ≠ e.1.number := by
  have hnodup := h.nodup
  rw [hs, Pool.nodup_map_add_singleton] at hnodup
  exact hnodup.1 d hd

/-- **The turn of a worker.**  The job goes on to another place, and the log with what happened to
it. -/
theorem Inv.exchange (h : Inv done s) (ha : ∀ job, a ≠ .submitJob job)
    (hmove : s.pool.Move s'.pool) (hsubmitted : s'.submitted = s.submitted)
    (hs : entries s = rest + {e}) (hs' : entries s' = rest + {e'})
    (hnumber : e'.1.number = e.1.number)
    (hothers : ∀ number ≠ e.1.number, history s'.log number = history s.log number)
    (hlogged : ∀ d ∈ s'.log, d ∈ s.log ∨ d.1 = e.1.number)
    (hvalid : ∀ job k, Valid (jobsOf done) s.log e job k →
      ∃ k, Valid (jobsOf done) s'.log e' job k) : Inv (done ++ [a]) s' := by
  obtain ⟨job, k, he⟩ := h.valid e (by rw [hs]; simp)
  refine ⟨h.alive.move hmove, ?_, ?_, fun d hd => ?_, fun d hd => ?_, fun number job' hjob => ?_⟩
  · rw [jobsOf_concat_of_ne ha, hsubmitted]
    exact h.count
  · have hnodup := h.nodup
    rw [hs, Pool.nodup_map_add_singleton, ← hnumber] at hnodup
    rw [hs', Pool.nodup_map_add_singleton]
    exact hnodup
  · rw [jobsOf_concat_of_ne ha]
    rw [hs', Multiset.mem_add, Multiset.mem_singleton] at hd
    rcases hd with hd | rfl
    · obtain ⟨job', k', hd'⟩ := h.valid d (by rw [hs]; exact Multiset.mem_add.mpr (.inl hd))
      refine ⟨job', k', { hd' with history := ?_ }⟩
      rw [hothers _ (h.ne_of_mem_rest hs hd)]
      exact hd'.history
    · exact ⟨job, hvalid job k he⟩
  · rw [hsubmitted]
    rcases hlogged d hd with hd | heq
    · exact h.logged d hd
    · rw [heq, h.count]
      exact (List.getElem?_eq_some_iff.mp he.submitted).1
  · rw [jobsOf_concat_of_ne ha] at hjob
    by_cases heq : number = e.1.number
    · exact .inl ⟨e', by rw [hs']; simp, hnumber.trans heq.symm⟩
    · rw [hothers number heq]
      apply (h.settled number job' hjob).imp_left
      rintro ⟨d, hd, hdn⟩
      rw [hs, Multiset.mem_add, Multiset.mem_singleton] at hd
      refine ⟨d, ?_, hdn⟩
      rw [hs', Multiset.mem_add]
      exact .inl (hd.resolve_right fun hde => heq (hdn.symm.trans (by rw [hde])))

/-- A job that is not retried is done. -/
theorem Inv.drop (h : Inv done s) (ha : ∀ job, a ≠ .submitJob job) {pool : Pool Ticket Work}
    (hmove : s.pool.Move pool) (hs : entries s = rest + {e})
    (hs' : entries { s with pool } = rest)
    (hfinished : ∀ job k, Valid (jobsOf done) s.log e job k →
      Finished job.retryCount (history s.log e.1.number)) : Inv (done ++ [a]) { s with pool } := by
  obtain ⟨job, k, he⟩ := h.valid e (by rw [hs]; simp)
  have hsub : ∀ d ∈ rest, d ∈ entries s := fun d hd => by
    rw [hs]
    exact Multiset.mem_add.mpr (.inl hd)
  refine ⟨h.alive.move hmove, ?_, ?_, fun d hd => ?_, h.logged, fun number job' hjob => ?_⟩
  · rw [jobsOf_concat_of_ne ha]
    exact h.count
  · have hnodup := h.nodup
    rw [hs, Pool.nodup_map_add_singleton] at hnodup
    rw [hs']
    exact hnodup.2
  · rw [jobsOf_concat_of_ne ha]
    exact h.valid d (hsub d (hs' ▸ hd))
  · rw [jobsOf_concat_of_ne ha] at hjob
    rw [hs']
    by_cases heq : number = e.1.number
    · right
      rw [heq] at hjob ⊢
      obtain rfl : job = job' := Option.some.inj (he.submitted.symm.trans hjob)
      exact hfinished job k he
    · apply (h.settled number job' hjob).imp_left
      rintro ⟨d, hd, hdn⟩
      rw [hs, Multiset.mem_add, Multiset.mem_singleton] at hd
      exact ⟨d, hd.resolve_right fun hde => heq (hdn.symm.trans (by rw [hde])), hdn⟩

/-! ### The places of a job -/

/-- Entries of a state in which worker `w` has a job: those of the others, and its own. -/
theorem entries_of_busy {w : ℕ} {k : Work} (hw : s.pool.workers[w]? = some (.busy k)) :
    entries s = entries { s with pool := s.pool.goto w .waiting } + inWork k :=
  (Pool.account_finish hw).symm

theorem entries_goto_busy {w : ℕ} {k k' : Work} (hw : s.pool.workers[w]? = some (.busy k)) :
    entries { s with pool := s.pool.goto w (.busy k') }
      = entries { s with pool := s.pool.goto w .waiting } + inWork k' := by
  have hgoto : entries { s with pool := s.pool.goto w (.busy k') } + inWork k
      = entries s + inWork k' := Pool.account_goto hw (.busy k')
  rw [entries_of_busy hw, add_right_comm] at hgoto
  exact add_right_cancel hgoto

theorem entries_push_goto (w : ℕ) (t : Ticket) :
    entries { s with pool := (s.pool.push t).goto w .waiting }
      = entries { s with pool := s.pool.goto w .waiting } + {queued t} :=
  Pool.account_push queued inWork (s.pool.goto w .waiting) t

variable {w : ℕ} {stages : Stages} {t : Ticket}

theorem Inv.taken (h : Inv done s) (hw : s.pool.workers[w]? = some (.busy (.taken t))) :
    Inv (done ++ [.work w stages]) (handle s w stages (.taken t)) := by
  refine h.exchange (by simp) (.goto hw (by simp)) rfl (entries_of_busy hw) (entries_goto_busy hw)
    rfl (fun number hne => history_concat_of_ne _ hne _) (fun d hd => mem_log_concat hd)
    fun job k hvalid => ?_
  refine ⟨k, { hvalid with history := ?_, status := by simp }⟩
  show history (s.log ++ [(t.number, .started)]) t.number = _
  rw [history_concat_self, show history s.log t.number = _ from hvalid.history,
    List.append_nil]

theorem Inv.running (h : Inv done s) (hw : s.pool.workers[w]? = some (.busy (.running t))) :
    Inv (done ++ [.work w stages]) (handle s w stages (.running t)) := by
  refine h.exchange (by simp) (.goto hw (by simp)) rfl (entries_of_busy hw) (entries_goto_busy hw)
    rfl (fun number hne => history_concat_of_ne _ hne _) (fun d hd => mem_log_concat hd)
    fun job k hvalid => ?_
  refine ⟨k, hvalid.submitted, ?_, hvalid.bound, ?_, ?_⟩
  · rw [← hvalid.retries]
    show (processBackup stages t.job).retryCount = t.job.retryCount
    unfold processBackup
    split_ifs <;> rfl
  · show history (s.log ++ [(t.number, .ended _)]) t.number = _
    rw [history_concat_self, show history s.log t.number = _ from hvalid.history,
      List.append_assoc]
    rfl
  · intro ok hok
    have hstatus : decide ((processBackup stages t.job).status = .success) = ok := by
      simpa using hok
    show (processBackup stages t.job).status = _
    rw [← hstatus]
    unfold processBackup
    split_ifs <;> simp_all

/-- A failed job is put back, or the job is done. -/
theorem Inv.processed (h : Inv done s) (hw : s.pool.workers[w]? = some (.busy (.processed t))) :
    Inv (done ++ [.work w stages]) (handle s w stages (.processed t)) := by
  simp only [handle]
  split_ifs with hretry
  · -- one failed attempt more, and one retry less
    obtain ⟨hfailed, hcount⟩ := hretry
    refine h.exchange (by simp) (.add _ hw (by simp) (by simp)) rfl (entries_of_busy hw)
      (entries_push_goto w _) rfl (fun _ _ => rfl) (fun d hd => .inl hd) fun job k hvalid => ?_
    have hretries : t.job.retryCount = job.retryCount + k := hvalid.retries
    refine ⟨k + 1, hvalid.submitted, ?_, ?_, ?_, by simp [queued]⟩
    · show t.job.retryCount + 1 = job.retryCount + ((k + 1 : ℕ) : ℤ)
      push_cast
      omega
    · omega
    · show history s.log t.number = failures (k + 1) ++ []
      have hhistory : history s.log t.number = failures k ++ _ := hvalid.history
      rw [hhistory, failures_succ, List.append_nil]
      simp [hfailed]
  · apply h.drop (by simp) (.goto hw (by simp)) (entries_of_busy hw) rfl
    intro job k hvalid
    refine ⟨k, _, hvalid.history, hvalid.bound, ?_⟩
    have hretries : t.job.retryCount = job.retryCount + k := hvalid.retries
    have hbound := hvalid.bound
    have hstatus := hvalid.status _ rfl
    by_cases hsuccess : t.job.status = .success
    · exact .inl (decide_eq_true hsuccess)
    · right
      have hfailed : t.job.status = .failed := by
        simpa [hsuccess] using hstatus
      have hcount : ¬ t.job.retryCount < 3 := fun hlt => hretry ⟨hfailed, hlt⟩
      omega

/-- **Every turn keeps the invariant.** -/
theorem Inv.step (h : Inv done s) (hsubmits : SubmitsBefore s a) (hs : Step s a s') :
    Inv (done ++ [a]) s' := by
  cases hs with
  | submitJob job => exact h.submitJob hsubmits job
  | destroy => exact h.same (by simp) .halt (Pool.account_halt _ _ _)
  | take hw ht => exact h.same (by simp) (.take 0 (by simp)) (Pool.account_hold ht hw rfl)
  | leave hstop hempty hw =>
    exact h.same (by simp) (.leave hstop hempty) (Pool.account_goto_same hw rfl)
  | @handle w stages k hw =>
    cases k with
    | taken t => exact h.taken hw
    | running t => exact h.running hw
    | processed t => exact h.processed hw

end Steps

theorem inv_start {n : ℕ} (hn : 0 < n) : Inv [] (start n) where
  alive := Pool.alive_start hn
  count := rfl
  nodup := by simp [entries, start]
  valid := by simp [entries, start]
  logged := by simp [start]
  settled := by simp [jobsOf]

/-! ## Result -/

/-- The number of attempts that a history tells of. -/
def attempts (marks : List Mark) : ℕ := marks.count .started

/-- **The pipeline completes every job.**  For every number of workers, all results of the stages
and every run in which jobs are submitted before the destructor starts: when all workers have
returned, the queue is empty, and every job submitted was attempted again only after failures and
ended with a success or when its retries were used up.  For a job submitted with the default
`retry_count`, that is one to four attempts, and four if the last one failed. -/
theorem backup_complete (n : ℕ) (hn : 0 < n) (as : List Act) (s : State)
    (hrun : run step (start n) as = some s) (hsubmits : Along step SubmitsBefore (start n) as)
    (hjoined : s.pool.Joined) :
    s.pool.queue = [] ∧
    ∀ number job, (jobsOf as)[number]? = some job →
      ∃ k ok, history s.log number = failures k ++ [.started, .ended ok] ∧
        attempts (history s.log number) = k + 1 ∧
        k ≤ (3 - job.retryCount).toNat ∧ (ok = true ∨ k = (3 - job.retryCount).toNat) ∧
        (job.retryCount = 0 → k + 1 ≤ 4 ∧ (ok = true ∨ k + 1 = 4)) := by
  have hinv : Inv as s :=
    run_history (fun _ _ _ _ hs hP hst => hs.step hP (step_spec hst)) (inv_start hn) hsubmits hrun
  refine ⟨(hinv.alive.drained hjoined).1, fun number job hjob => ?_⟩
  have hnone : entries s = 0 := hinv.alive.settled hjoined
  rcases hinv.settled number job hjob with ⟨e, he, -⟩ | ⟨k, ok, hmarks, hbound, hend⟩
  · rw [hnone] at he
    exact absurd he (Multiset.notMem_zero _)
  · refine ⟨k, ok, hmarks, ?_, hbound, hend, fun hzero => ?_⟩
    · rw [attempts, hmarks, List.count_append, count_started_failures]
      rfl
    · have hthree : (3 - job.retryCount).toNat = 3 := by rw [hzero]; rfl
      rw [hthree] at hbound hend
      exact ⟨Nat.succ_le_succ hbound, hend.imp_right (congrArg Nat.succ)⟩

/-- All stages succeed. -/
def succeed : Stages := ⟨true, true, true, true, true⟩

/-- The upload fails. -/
def noUpload : Stages := ⟨true, true, true, true, false⟩

/-- A job that fails once and then succeeds, with one worker. -/
def retryOnce : List Act :=
  [.submitJob { jobId := 1, fileName := "database.db" }, .work 0 succeed, .work 0 succeed,
    .work 0 noUpload, .destroy, .work 0 succeed, .work 0 succeed, .work 0 succeed,
    .work 0 succeed, .work 0 succeed, .work 0 succeed]

theorem backup_complete_retryOnce : ∃ s,
    run step (start 1) retryOnce = some s ∧
    s.log = [(0, .started), (0, .ended false), (0, .started), (0, .ended true)] ∧
    s.pool.queue = [] :=
  ⟨_, rfl, rfl, (backup_complete 1 (by decide) retryOnce _ rfl (by decide) (by decide)).1⟩

/-- A job that is submitted with three retries on its account, and fails. -/
def noRetry : List Act :=
  [.submitJob { jobId := 1, fileName := "database.db", retryCount := 3 }, .work 0 noUpload,
    .work 0 noUpload, .work 0 noUpload, .work 0 noUpload, .destroy, .work 0 noUpload]

/-- It is given up after one failed attempt. -/
theorem given_up_after_one_attempt : ∃ s,
    run step (start 1) noRetry = some s ∧ s.pool.Joined ∧
    history s.log 0 = [.started, .ended false] ∧ attempts (history s.log 0) = 1 :=
  ⟨_, rfl, by decide, rfl, rfl⟩

end CloudBackups
