/-
# Background workers

Four components in which any number of threads post jobs to one background thread, which is shut
down in the destructor after the others have been joined.

* `distributed/asyncLogger_Kafka.cpp`: messages are appended to a file;
* `multi-stage-pipeline/LogIngestion_ProcessingPipeline.cpp`: logs are written to a sink in batches;
* `multi-stage-pipeline/YoutubeVideoProcessingPipeline.cpp`: a video goes through three stages;
* `simulations/ElevatorSystem_multiThreaded.cpp`: a lift that serves one request after the other.

In all four the work is done in the order in which the jobs were posted, nothing is lost at the
shutdown, and nobody is ever stuck; the results say what that means for the file, the batches, the
stages and the ride.
-/
import SystemsDesign.RecordStreams
import SystemsDesign.WorkQueue

namespace BackgroundWorkers

open MonitorPrograms RecordStreams ThreadList TransitionSystem WhitespaceTokens WorkQueue

variable {W J E : Type*}

/-! ## One worker -/

/-- The worker, the owner, who posts nothing, and the threads that post. -/
def oneWorker (w : W) (programs : List (List J)) : List (Role W J) :=
  .worker w :: .poster true [] :: programs.map (.poster false)

section OneWorker

variable {w : W} {programs : List (List J)} {S : Service W J E} {as : List Act}
  {s : State (Shared J E) (Place W J E)}

theorem countP_owns_oneWorker : (oneWorker w programs).countP Role.owns = 1 := by
  have hnone : (programs.map (Role.poster (W := W) false)).countP Role.owns = 0 := by
    rw [List.countP_eq_zero]
    intro r hr
    obtain ⟨program, -, rfl⟩ := List.mem_map.mp hr
    exact Bool.false_ne_true
  rw [oneWorker, List.countP_cons, List.countP_cons, hnone]
  rfl

theorem countP_serves_oneWorker : 0 < (oneWorker w programs).countP Role.serves :=
  List.countP_pos_iff.mpr ⟨.worker w, List.mem_cons_self, rfl⟩

theorem jobs_oneWorker : jobs (oneWorker w programs) = programs.flatten := by
  rw [oneWorker, jobs_cons, jobs_cons, jobs, List.flatMap_map]
  exact List.flatMap_id

/-- The first thread is the only worker. -/
theorem eq_zero_of_worker {i : ℕ} {w' : W} (h : (oneWorker w programs)[i]? = some (.worker w')) :
    i = 0 := by
  cases i with
  | zero => rfl
  | succ i =>
    cases i with
    | zero => exact absurd (Option.some.inj h) (by simp)
    | succ i =>
      obtain ⟨program, -, hrole⟩ := List.mem_map.mp
        (List.mem_of_getElem? (l := programs.map (Role.poster (W := W) false)) h)
      exact absurd hrole (by simp)

theorem getElem?_oneWorker {j : ℕ} {program : List J} (h : programs[j]? = some program) :
    (oneWorker w programs)[j + 2]? = some (.poster false program) := by
  rw [oneWorker, List.getElem?_cons_succ, List.getElem?_cons_succ, List.getElem?_map, h]
  rfl

theorem done_of_returned
    (hrun : run S.program.step (Service.start (oneWorker w programs)) as = some s)
    (hend : Service.Ended s 1) : S.program.Done s :=
  Service.done_of_ended countP_owns_oneWorker hrun rfl hend

/-- What has been posted is an interleaving of the programs: each of them is posted in its order,
and everything in the end. -/
structure Interleaved (programs : List (List J)) (posted : List (ℕ × J)) (complete : Prop) :
    Prop where
  ordered : ∀ j program, programs[j]? = some program → ofThread (j + 2) posted <+: program
  all : complete → (posted.map Prod.snd).Perm programs.flatten ∧
    ∀ j program, programs[j]? = some program → ofThread (j + 2) posted = program

theorem interleaved (hrun : run S.program.step (Service.start (oneWorker w programs)) as = some s) :
    Interleaved programs s.shared.posted (Service.Ended s 1) where
  ordered j program hj := by
    have hconduct := Service.conduct countP_owns_oneWorker hrun
    exact (hconduct.posters (j + 2) false program (getElem?_oneWorker hj)).1
  all hend := by
    have hcompleted := Service.completed countP_owns_oneWorker hrun (done_of_returned hrun hend)
    have hposted := hcompleted.posted
    rw [jobs_oneWorker] at hposted
    exact ⟨hposted, fun j program hj => hcompleted.posters (j + 2) false program
      (getElem?_oneWorker hj)⟩

/-- Nobody is stuck, and apart from what has been put out boundedly many sections have been
executed. -/
structure Proceeds (S : Service W J E) (roles : List (Role W J)) (as : List Act)
    (s : State (Shared J E) (Place W J E)) : Prop where
  live : S.program.Live s
  effort : S.program.effort (Service.start roles) as
    ≤ 3 * (jobs roles).length + roles.length + 2 + s.shared.output.length

theorem proceeds (hrun : run S.program.step (Service.start (oneWorker w programs)) as = some s) :
    Proceeds S (oneWorker w programs) as s :=
  ⟨Service.live countP_owns_oneWorker hrun, Service.effort_le countP_owns_oneWorker hrun⟩

theorem output_isPrefix_serve
    (hrun : run S.program.step (Service.start (oneWorker w programs)) as = some s) :
    ofThread 0 s.shared.output <+: (S.serve w (s.shared.taken.map Prod.snd)).1 := by
  have hconduct := Service.conduct countP_owns_oneWorker hrun
  have hworker := hconduct.workers 0 w rfl
  rwa [hconduct.ofThread_taken fun _ _ h => eq_zero_of_worker h] at hworker

/-- What the worker has put out when the owner has returned. -/
theorem output_eq_serve
    (hrun : run S.program.step (Service.start (oneWorker w programs)) as = some s)
    (hend : Service.Ended s 1) :
    ofThread 0 s.shared.output = (S.serve w (s.shared.taken.map Prod.snd)).1 ∧
    (s.shared.taken.map Prod.snd).flatten = s.shared.posted.map Prod.snd := by
  have hconduct := Service.conduct countP_owns_oneWorker hrun
  have hcompleted := Service.completed countP_owns_oneWorker hrun (done_of_returned hrun hend)
  have hworker := hcompleted.workers 0 w rfl
  have hfifo := hconduct.fifo
  rw [hcompleted.queue countP_serves_oneWorker, List.append_nil] at hfifo
  rw [hconduct.ofThread_taken fun _ _ h => eq_zero_of_worker h] at hworker
  exact ⟨hworker, hfifo.symm⟩

/-- Job by job, the worker follows the posts. -/
theorem output_isPrefix_work (hS : S.Sequential)
    (hrun : run S.program.step (Service.start (oneWorker w programs)) as = some s) :
    ofThread 0 s.shared.output <+: (S.work w (s.shared.posted.map Prod.snd)).1 := by
  have hserve := output_isPrefix_serve hrun
  rw [hS.serve_eq] at hserve
  rw [(Service.conduct countP_owns_oneWorker hrun).fifo, hS.append]
  exact hserve.trans (List.prefix_append _ _)

/-- Job by job, the worker has done all posts when the owner has returned. -/
theorem output_eq_work (hS : S.Sequential)
    (hrun : run S.program.step (Service.start (oneWorker w programs)) as = some s)
    (hend : Service.Ended s 1) :
    ofThread 0 s.shared.output = (S.work w (s.shared.posted.map Prod.snd)).1 := by
  obtain ⟨hserve, hflatten⟩ := output_eq_serve hrun hend
  rwa [hS.serve_eq, hflatten] at hserve

end OneWorker

/-- A thread posts one job, the worker does it with a number of entries, the owner shuts down. -/
def oneJob (puts : ℕ) : List Act :=
  [.move 2 0, .move 2 0, .move 2 0, .move 0 0] ++ List.replicate puts (.move 0 0)
    ++ [.move 1 0, .move 1 0, .move 0 0, .move 1 0]

/-- The end of that schedule. -/
def oneJobDone (W : Type*) (job : J) (output : List (ℕ × E)) :
    State (Shared J E) (Place W J E) where
  shared := { stop := true, producing := 0, serving := 0, posted := [(2, job)]
              taken := [(0, [job])], output }
  threads := [⟨.ended, false⟩, ⟨.ended, false⟩, ⟨.ended, false⟩]

/-! ## The logger -/

/-- Where a text goes. -/
inductive Write where
  | file (text : Text)
  | console (text : Text)
  deriving DecidableEq

/-- `process_logs` of `AsyncLogger`, for one message. -/
def logMessage (msg : Text) : List Write :=
  [.file (msg ++ ['\n']), .console ("Logged msg : ".toList ++ msg ++ ['\n'])]

/-- The background thread of `AsyncLogger`. -/
def asyncLogger : Service Unit Text Write := .oneByOne logMessage

/-- What goes to the file. -/
def Write.toFile : Write → Option Text
  | .file text => some text
  | .console _ => none

/-- What the writes append to the file. -/
def fileText (writes : List Write) : Text := (writes.filterMap Write.toFile).flatten

theorem fileText_logMessage (msgs : List Text) :
    fileText (msgs.flatMap logMessage) = unlines msgs := by
  induction msgs with
  | nil => rfl
  | cons msg msgs ih =>
    rw [List.flatMap_cons, unlines, List.flatMap_cons, ← unlines, ← ih]
    simp [fileText, logMessage, Write.toFile, List.filterMap_cons]

theorem fileText_isPrefix {writes writes' : List Write} (h : writes <+: writes') :
    fileText writes <+: fileText writes' := by
  obtain ⟨rest, rfl⟩ := h
  rw [fileText, fileText, List.filterMap_append, List.flatten_append]
  exact List.prefix_append _ _

/-- **The asynchronous logger.**  For any threads that log, in every interleaving: what has been
appended to the file is a prefix of the lines in the order in which the messages were pushed, an
order that keeps that of every thread; nobody is ever stuck; and when the destructor has returned
the file holds all messages, and can be read back line by line if they contain no line ends. -/
theorem asyncLogger_spec (programs : List (List Text)) (as : List Act)
    (s : State (Shared Text Write) (Place Unit Text Write))
    (hrun : run asyncLogger.program.step (Service.start (oneWorker () programs)) as = some s) :
    fileText (ofThread 0 s.shared.output) <+: unlines (s.shared.posted.map Prod.snd) ∧
    Interleaved programs s.shared.posted (Service.Ended s 1) ∧
    Proceeds asyncLogger (oneWorker () programs) as s ∧
    (Service.Ended s 1 →
      fileText (ofThread 0 s.shared.output) = unlines (s.shared.posted.map Prod.snd) ∧
      ((∀ program ∈ programs, ∀ msg ∈ program, '\n' ∉ msg) →
        lineReader.all (fileText (ofThread 0 s.shared.output))
          = s.shared.posted.map Prod.snd)) := by
  have hsequential := Service.sequential_oneByOne logMessage
  refine ⟨?_, interleaved hrun, proceeds hrun, fun hend => ?_⟩
  · rw [← fileText_logMessage]
    exact fileText_isPrefix (output_isPrefix_work hsequential hrun)
  · have htext : fileText (ofThread 0 s.shared.output)
        = unlines (s.shared.posted.map Prod.snd) := by
      rw [← fileText_logMessage]
      exact congrArg fileText (output_eq_work hsequential hrun hend)
    refine ⟨htext, fun hlines => ?_⟩
    rw [htext]
    apply lineReader_all_unlines
    intro msg hmsg
    have hflatten := ((interleaved hrun).all hend).1.mem_iff.mp hmsg
    obtain ⟨program, hprogram, hmem⟩ := List.mem_flatten.mp hflatten
    exact hlines program hprogram msg hmem

/-- The file after one message and the shutdown. -/
theorem asyncLogger_spec_oneJob :
    run asyncLogger.program.step (Service.start (oneWorker () [["hi".toList]])) (oneJob 2)
      = some (oneJobDone Unit "hi".toList ((logMessage "hi".toList).map (Prod.mk 0))) ∧
    fileText (ofThread 0 ((logMessage "hi".toList).map (Prod.mk 0))) = unlines ["hi".toList] ∧
    lineReader.all (fileText (ofThread 0 ((logMessage "hi".toList).map (Prod.mk 0))))
      = ["hi".toList] := by
  have hrun : run asyncLogger.program.step (Service.start (oneWorker () [["hi".toList]])) (oneJob 2)
      = some (oneJobDone Unit "hi".toList ((logMessage "hi".toList).map (Prod.mk 0))) := by decide
  obtain ⟨htext, hlines⟩ := (asyncLogger_spec [["hi".toList]] (oneJob 2) _ hrun).2.2.2 rfl
  exact ⟨hrun, htext, hlines (by decide)⟩

/-! ## The log pipeline -/

/-- `ConsoleSink::write`. -/
def consoleSinkWrite (logs : List Text) : Text :=
  "Processing Batch : (".toList ++ decimal logs.length ++ "Logs) \n".toList ++ unlines logs

/-- The worker of `LogPipeline`, with any sink. -/
def logPipeline (write : List Text → E) : Service Unit Text E where
  batch := 3
  batch_pos := by decide
  work _ batch := ([write batch], ())

theorem serve_logPipeline (write : List Text → E) (bs : List (List Text)) :
    (logPipeline write).serve () bs = (bs.map write, ()) := by
  induction bs using List.reverseRecOn with
  | nil => rfl
  | append_singleton bs b ih =>
    rw [Service.serve_concat, ih, List.map_append]
    rfl

/-- **The log pipeline.**  For any threads and any sink, in every interleaving: the batches have one
to three logs and follow the order of `ingest`; the sink has been given them one after the other;
nobody is ever stuck; and when the destructor has returned every log has been written once. -/
theorem logPipeline_spec (write : List Text → E) (programs : List (List Text)) (as : List Act)
    (s : State (Shared Text E) (Place Unit Text E))
    (hrun : run (logPipeline write).program.step (Service.start (oneWorker () programs)) as
      = some s) :
    (∀ b ∈ s.shared.taken.map Prod.snd, 1 ≤ b.length ∧ b.length ≤ 3) ∧
    (s.shared.taken.map Prod.snd).flatten <+: s.shared.posted.map Prod.snd ∧
    ofThread 0 s.shared.output <+: (s.shared.taken.map Prod.snd).map write ∧
    Interleaved programs s.shared.posted (Service.Ended s 1) ∧
    Proceeds (logPipeline write) (oneWorker () programs) as s ∧
    (Service.Ended s 1 →
      ofThread 0 s.shared.output = (s.shared.taken.map Prod.snd).map write ∧
      (s.shared.taken.map Prod.snd).flatten = s.shared.posted.map Prod.snd) := by
  have hconduct := Service.conduct countP_owns_oneWorker hrun
  refine ⟨fun b hb => ?_, ?_, ?_, interleaved hrun, proceeds hrun, fun hend => ?_⟩
  · obtain ⟨e, he, rfl⟩ := List.mem_map.mp hb
    obtain ⟨hne, hle⟩ := hconduct.batches e he
    exact ⟨List.length_pos_iff.mpr hne, hle⟩
  · rw [hconduct.fifo]
    exact List.prefix_append _ _
  · have hserve := output_isPrefix_serve hrun
    rwa [serve_logPipeline] at hserve
  · obtain ⟨hserve, hflatten⟩ := output_eq_serve hrun hend
    rw [serve_logPipeline] at hserve
    exact ⟨hserve, hflatten⟩

theorem logPipeline_spec_oneJob :
    run (logPipeline consoleSinkWrite).program.step (Service.start (oneWorker () [["hi".toList]]))
        (oneJob 1)
      = some (oneJobDone Unit "hi".toList [(0, consoleSinkWrite ["hi".toList])]) ∧
    ofThread 0 [(0, consoleSinkWrite ["hi".toList])] = [["hi".toList]].map consoleSinkWrite :=
  ⟨by decide, ((logPipeline_spec consoleSinkWrite [["hi".toList]] (oneJob 1)
    (oneJobDone Unit "hi".toList [(0, consoleSinkWrite ["hi".toList])]) (by decide)).2.2.2.2.2
      rfl).1⟩

/-! ## The video pipeline -/

/-- An uploaded video. -/
structure Video where
  id : ℤ
  title : Text
  deriving DecidableEq

/-- `transcode`, `generate_thumbnail` and `publish`. -/
def processVideo (video : Video) : List Text :=
  ["Transcoding : ".toList ++ video.title, "Generating Thumbnail : ".toList ++ video.title,
    "Publishing : ".toList ++ video.title]

/-- The worker of `VideoPipeline`. -/
def videoPipeline : Service Unit Video Text := .oneByOne processVideo

/-- **The video pipeline**: the videos go through their stages one after the other, in the order of
their uploads, and all of them before the destructor returns. -/
theorem videoPipeline_spec (programs : List (List Video)) (as : List Act)
    (s : State (Shared Video Text) (Place Unit Video Text))
    (hrun : run videoPipeline.program.step (Service.start (oneWorker () programs)) as = some s) :
    ofThread 0 s.shared.output <+: (s.shared.posted.map Prod.snd).flatMap processVideo ∧
    Interleaved programs s.shared.posted (Service.Ended s 1) ∧
    Proceeds videoPipeline (oneWorker () programs) as s ∧
    (Service.Ended s 1 →
      ofThread 0 s.shared.output = (s.shared.posted.map Prod.snd).flatMap processVideo) :=
  have hsequential := Service.sequential_oneByOne processVideo
  ⟨output_isPrefix_work hsequential hrun, interleaved hrun, proceeds hrun,
    output_eq_work hsequential hrun⟩

theorem videoPipeline_spec_oneJob :
    run videoPipeline.program.step (Service.start (oneWorker () [[⟨1, []⟩]])) (oneJob 3)
      = some (oneJobDone Unit ⟨1, []⟩ ((processVideo ⟨1, []⟩).map (Prod.mk 0))) ∧
    ofThread 0 ((processVideo ⟨1, []⟩).map (Prod.mk 0)) = processVideo ⟨1, []⟩ :=
  ⟨by decide, (videoPipeline_spec [[⟨1, []⟩]] (oneJob 3)
    (oneJobDone Unit ⟨1, []⟩ ((processVideo ⟨1, []⟩).map (Prod.mk 0))) (by decide)).2.2.2 rfl⟩

/-! ## The lift -/

/-- The lines that are printed. -/
inductive Event where
  | requested (person source destination : ℤ)
  | reached (floor : ℤ)
  | picked (person floor : ℤ)
  | dropped (person floor : ℤ)
  deriving DecidableEq

/-- `ElevatorRequest`. -/
structure Request where
  person : ℤ
  source : ℤ
  destination : ℤ
  deriving DecidableEq

/-- The loop of `moveToFloor`, and where the lift is behind it. -/
def moveLoop (target : ℤ) : ℕ → ℤ → List Event × ℤ
  | 0, current => ([], current)
  | fuel + 1, current =>
    if current = target then ([], current)
    else
      let next := if target < current then current - 1 else current + 1
      (.reached next :: (moveLoop target fuel next).1, (moveLoop target fuel next).2)

/-- `moveToFloor`; every turn brings the lift one floor nearer. -/
def moveToFloor (current target : ℤ) : List Event × ℤ :=
  moveLoop target (target - current).natAbs current

/-- The body of `run` for requests one after the other, from a floor. -/
def ride : ℤ → List Request → List Event × ℤ
  | floor, [] => ([], floor)
  | floor, req :: reqs =>
    let toSource := moveToFloor floor req.source
    let toDestination := moveToFloor toSource.2 req.destination
    let rest := ride toDestination.2 reqs
    (toSource.1 ++ .picked req.person req.source :: toDestination.1
      ++ .dropped req.person req.destination :: rest.1, rest.2)

/-- The lift, whose local state is `current_floor`. -/
def elevator : Service ℤ Request Event where
  batch := 1
  batch_pos := Nat.one_pos
  work := ride
  announce req := [.requested req.person req.source req.destination]

/-- What a lift may do from a floor: move by one floor, and let people in and out where it is. -/
def Travels : ℤ → List Event → Prop
  | _, [] => True
  | floor, .reached next :: rest => (next = floor + 1 ∨ next = floor - 1) ∧ Travels next rest
  | floor, .picked _ stop :: rest => stop = floor ∧ Travels floor rest
  | floor, .dropped _ stop :: rest => stop = floor ∧ Travels floor rest
  | _, .requested _ _ _ :: _ => False

/-- Where the lift is after some events. -/
def position : ℤ → List Event → ℤ
  | floor, [] => floor
  | _, .reached next :: rest => position next rest
  | floor, _ :: rest => position floor rest

/-- People who get in or out. -/
def Event.isStop : Event → Bool
  | .picked _ _ => true
  | .dropped _ _ => true
  | _ => false

theorem travels_append {floor : ℤ} {es es' : List Event} :
    Travels floor (es ++ es') ↔ Travels floor es ∧ Travels (position floor es) es' := by
  induction es generalizing floor with
  | nil => simp [Travels, position]
  | cons e es ih => cases e <;> simp [Travels, position, ih, and_assoc]

/-- **The loop of `moveToFloor`**: with enough turns it ends at the target, by way of unit steps and
as few as possible. -/
theorem moveLoop_spec {target : ℤ} {fuel : ℕ} {current : ℤ}
    (hfuel : (target - current).natAbs ≤ fuel) :
    (moveLoop target fuel current).2 = target ∧
    Travels current (moveLoop target fuel current).1 ∧
    position current (moveLoop target fuel current).1 = target ∧
    (moveLoop target fuel current).1.length = (target - current).natAbs ∧
    (moveLoop target fuel current).1.filter Event.isStop = [] := by
  induction fuel generalizing current with
  | zero =>
    have heq : current = target := by omega
    subst heq
    simp [moveLoop, Travels, position]
  | succ fuel ih =>
    by_cases heq : current = target
    · subst heq
      simp [moveLoop, Travels, position]
    · rw [moveLoop, if_neg heq]
      set next := if target < current then current - 1 else current + 1 with hnext
      have hmove : next = current + 1 ∨ next = current - 1 := by grind
      have hnear : (target - next).natAbs + 1 = (target - current).natAbs := by grind
      have hle : (target - next).natAbs ≤ fuel := by omega
      obtain ⟨hend, htravels, hposition, hlength, hstops⟩ := ih hle
      refine ⟨hend, ⟨hmove, htravels⟩, hposition, ?_, hstops⟩
      rw [List.length_cons, hlength, hnear]

/-- The floors that lie on the way. -/
def distance : ℤ → List Request → ℕ
  | _, [] => 0
  | floor, req :: reqs =>
    (req.source - floor).natAbs + (req.destination - req.source).natAbs
      + distance req.destination reqs

/-- The stops that the requests ask for. -/
def stops (reqs : List Request) : List Event :=
  reqs.flatMap fun req => [.picked req.person req.source, .dropped req.person req.destination]

theorem sequential_elevator : elevator.Sequential where
  nil _ := rfl
  append floor reqs reqs' := by
    show ride floor (reqs ++ reqs') = ((ride floor reqs).1 ++ (ride (ride floor reqs).2 reqs').1,
      (ride (ride floor reqs).2 reqs').2)
    induction reqs generalizing floor with
    | nil => rfl
    | cons req reqs ih =>
      rw [List.cons_append, ride, ride, ih]
      simp

/-- **A ride**: the lift moves floor by floor and stops where it is; it stops for one request after
the other, and goes no further than it must. -/
theorem ride_spec (floor : ℤ) (reqs : List Request) :
    Travels floor (ride floor reqs).1 ∧ (ride floor reqs).1.filter Event.isStop = stops reqs ∧
      (ride floor reqs).1.length = distance floor reqs + 2 * reqs.length := by
  induction reqs generalizing floor with
  | nil => exact ⟨trivial, rfl, rfl⟩
  | cons req reqs ih =>
    obtain ⟨hend, htravels, hposition, hlength, hstops⟩ :=
      moveLoop_spec (le_refl (req.source - floor).natAbs)
    obtain ⟨hend', htravels', hposition', hlength', hstops'⟩ :=
      moveLoop_spec (le_refl (req.destination - req.source).natAbs)
    obtain ⟨hrest, hreststops, hrestlength⟩ := ih req.destination
    rw [← moveToFloor] at hend htravels hposition hlength hstops
    rw [← moveToFloor] at hend' htravels' hposition' hlength' hstops'
    simp only [ride, hend, hend', List.append_assoc, List.cons_append]
    refine ⟨?_, ?_, ?_⟩
    · rw [travels_append, hposition]
      refine ⟨htravels, rfl, ?_⟩
      rw [travels_append, hposition']
      exact ⟨htravels', rfl, hrest⟩
    · simp [List.filter_append, List.filter_cons, Event.isStop, hstops, hstops', hreststops, stops]
    · simp only [List.length_append, List.length_cons, hlength, hlength', hrestlength, distance]
      omega

/-- **The lift.**  For any passengers, in every interleaving: the lift moves floor by floor from the
ground floor and lets people in and out where it is; it serves the requests in the order in which
they were made; nobody is ever stuck; and when the lift has been shut down every request has been
served, and the lift has passed no more floors than that order asks for. -/
theorem elevator_spec (programs : List (List Request)) (as : List Act)
    (s : State (Shared Request Event) (Place ℤ Request Event))
    (hrun : run elevator.program.step (Service.start (oneWorker 0 programs)) as = some s) :
    Travels 0 (ofThread 0 s.shared.output) ∧
    (ofThread 0 s.shared.output).filter Event.isStop <+: stops (s.shared.posted.map Prod.snd) ∧
    Interleaved programs s.shared.posted (Service.Ended s 1) ∧
    Proceeds elevator (oneWorker 0 programs) as s ∧
    (Service.Ended s 1 →
      (ofThread 0 s.shared.output).filter Event.isStop = stops (s.shared.posted.map Prod.snd) ∧
      (ofThread 0 s.shared.output).length = distance 0 (s.shared.posted.map Prod.snd)
        + 2 * s.shared.posted.length) := by
  obtain ⟨htravels, hstops, hlength⟩ := ride_spec 0 (s.shared.posted.map Prod.snd)
  have hprefix : ofThread 0 s.shared.output <+: (ride 0 (s.shared.posted.map Prod.snd)).1 :=
    output_isPrefix_work sequential_elevator hrun
  refine ⟨?_, ?_, interleaved hrun, proceeds hrun, fun hend => ?_⟩
  · obtain ⟨rest, hrest⟩ := hprefix
    rw [← hrest, travels_append] at htravels
    exact htravels.1
  · rw [← hstops]
    exact hprefix.filter _
  · have houtput : ofThread 0 s.shared.output = (ride 0 (s.shared.posted.map Prod.snd)).1 :=
      output_eq_work sequential_elevator hrun hend
    rw [houtput, hstops, hlength, List.length_map]
    exact ⟨rfl, rfl⟩

/-- The lines that are printed for one passenger. -/
def onePassenger : List (ℕ × Event) :=
  [(2, .requested 1 0 1), (0, .picked 1 0), (0, .reached 1), (0, .dropped 1 1)]

/-- One passenger from the ground floor to the first. -/
theorem elevator_spec_oneJob :
    run elevator.program.step (Service.start (oneWorker 0 [[⟨1, 0, 1⟩]])) (oneJob 3)
      = some (oneJobDone ℤ ⟨1, 0, 1⟩ onePassenger) ∧
    Travels 0 (ofThread 0 onePassenger) ∧
    (ofThread 0 onePassenger).filter Event.isStop = stops [⟨1, 0, 1⟩] := by
  have hspec := elevator_spec [[⟨1, 0, 1⟩]] (oneJob 3) (oneJobDone ℤ ⟨1, 0, 1⟩ onePassenger)
    (by decide)
  exact ⟨by decide, hspec.1, (hspec.2.2.2.2 rfl).1⟩

end BackgroundWorkers
