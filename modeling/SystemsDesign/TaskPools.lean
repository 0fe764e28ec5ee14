/-
# Pools of workers

Two components whose owner posts jobs to a fixed number of workers and then shuts the pool down.

* `concurrency/ThreadPool_TaskExecution.cpp`: tasks are started in the order of `submit`, none is
  executed twice, and the destructor returns only after all have been executed;
* `storage/Parallel_FileSearch.cpp`: the files of a directory tree are searched in parallel, and in
  the end the lines are those that a search of one file after the other prints.

In both a pool without workers does nothing and its destructor returns all the same.
-/
import SystemsDesign.RecordStreams
import SystemsDesign.WorkQueue

namespace TaskPools

open MonitorPrograms RecordStreams TransitionSystem WhitespaceTokens WorkQueue

variable {J E : Type*}

/-! ## An owner and workers -/

/-- The owner posts the jobs, and the workers have no local state. -/
def pool (jobs : List J) (numThreads : ℤ) : List (Role Unit J) :=
  .poster true jobs :: List.replicate numThreads.toNat (.worker ())

section Pool

variable (jobs : List J) (numThreads : ℤ)

theorem countP_owns_pool : (pool jobs numThreads).countP Role.owns = 1 := by
  rw [pool, List.countP_cons, List.countP_replicate]
  rfl

theorem countP_serves_pool : (pool jobs numThreads).countP Role.serves = numThreads.toNat := by
  rw [pool, List.countP_cons, List.countP_replicate]
  rfl

theorem jobs_pool : WorkQueue.jobs (pool jobs numThreads) = jobs := by
  simp [WorkQueue.jobs, pool, Role.program]

theorem length_pool : (pool jobs numThreads).length = numThreads.toNat + 1 := by
  rw [pool, List.length_cons, List.length_replicate]

theorem eq_zero_of_poster {i : ℕ} {owner : Bool} {program : List J}
    (h : (pool jobs numThreads)[i]? = some (.poster owner program)) : i = 0 := by
  cases i with
  | zero => rfl
  | succ i =>
    have hmem := List.mem_of_getElem? (l := List.replicate numThreads.toNat (Role.worker ())) h
    exact absurd (List.eq_of_mem_replicate hmem) (by simp)

end Pool

section OneByOne

open Service

variable {f : J → List E} {jobs : List J} {numThreads : ℤ} {as : List Act}
  {s : State (Shared J E) (Place Unit J E)}

/-- The jobs are taken in the order in which the owner posts them. -/
theorem taken_isPrefix
    (hrun : run (oneByOne f).program.step (start (pool jobs numThreads)) as = some s) :
    (s.shared.taken.map Prod.snd).flatten <+: jobs := by
  have hconduct := Service.conduct (countP_owns_pool jobs numThreads) hrun
  have hposted := hconduct.posted_isPrefix (j := 0) rfl
    fun _ _ _ h => eq_zero_of_poster jobs numThreads h
  rw [hconduct.fifo] at hposted
  exact (List.prefix_append _ _).trans hposted

/-- What has been put out belongs to jobs that have been taken. -/
theorem output_subperm
    (hrun : run (oneByOne f).program.step (start (pool jobs numThreads)) as = some s) :
    (s.shared.output.map Prod.snd).Subperm ((s.shared.taken.map Prod.snd).flatten.flatMap f) := by
  have hsubperm := Service.output_subperm (f := f) (fun _ _ => rfl) hrun
  have hquiet : (s.shared.posted.map Prod.snd).flatMap (oneByOne f).announce = [] := by
    simp [oneByOne]
  rwa [hquiet, List.nil_append] at hsubperm

/-- When the owner has returned everything has been put out, if there is a worker. -/
theorem output_perm (hthreads : 1 ≤ numThreads)
    (hrun : run (oneByOne f).program.step (start (pool jobs numThreads)) as = some s)
    (hend : Ended s 0) : (s.shared.output.map Prod.snd).Perm (jobs.flatMap f) := by
  have hdone := done_of_ended (countP_owns_pool jobs numThreads) hrun rfl hend
  have hworkers : 0 < (pool jobs numThreads).countP Role.serves := by
    rw [countP_serves_pool]
    omega
  have hperm := Service.output_perm (f := f) (fun _ _ => rfl) (countP_owns_pool jobs numThreads)
    hworkers hrun hdone
  have hquiet : jobs.flatMap (oneByOne f).announce = [] := by simp [oneByOne]
  rwa [jobs_pool, hquiet, List.nil_append] at hperm

/-- Without workers nothing is put out. -/
theorem output_eq_nil (hthreads : numThreads ≤ 0)
    (hrun : run (oneByOne f).program.step (start (pool jobs numThreads)) as = some s) :
    s.shared.output = [] := by
  have hconduct := Service.conduct (countP_owns_pool jobs numThreads) hrun
  have hnone : (pool jobs numThreads).countP Role.serves = 0 := by
    rw [countP_serves_pool]
    omega
  have hsubperm := output_subperm hrun
  rw [hconduct.taken_eq_nil hnone] at hsubperm
  exact List.map_eq_nil_iff.mp (List.subperm_nil.mp hsubperm)

theorem effort_le
    (hrun : run (oneByOne f).program.step (start (pool jobs numThreads)) as = some s) :
    (oneByOne f).program.effort (start (pool jobs numThreads)) as
      ≤ 3 * jobs.length + (jobs.flatMap f).length + numThreads.toNat + 3 := by
  have heffort := Service.effort_le (countP_owns_pool jobs numThreads) hrun
  rw [jobs_pool, length_pool] at heffort
  have hlength := (output_subperm hrun).length_le
  rw [List.length_map] at hlength
  obtain ⟨rest, hrest⟩ := taken_isPrefix hrun
  have hall : ((s.shared.taken.map Prod.snd).flatten.flatMap f).length
      ≤ (jobs.flatMap f).length := by
    rw [← hrest, List.flatMap_append, List.length_append]
    exact Nat.le_add_right _ _
  omega

end OneByOne

/-! ## The thread pool -/

/-- What the workers of `ThreadPool` do with a task: they execute it. -/
def threadPool (J : Type*) : Service Unit J J := .oneByOne fun task => [task]

/-- **The thread pool.**  For any tasks and any number of threads, in every interleaving: tasks are
started in the order in which they are submitted; what has been executed are started tasks, each
once; nobody is ever stuck, and only boundedly many sections are executed; when the destructor has
returned, every task has been executed once, if there is a worker; and without workers no task ever
is. -/
theorem threadPool_spec (tasks : List J) (numThreads : ℤ) (as : List Act)
    (s : State (Shared J J) (Place Unit J J))
    (hrun : run (threadPool J).program.step (Service.start (pool tasks numThreads)) as = some s) :
    (s.shared.taken.map Prod.snd).flatten <+: tasks ∧
    (s.shared.output.map Prod.snd).Subperm (s.shared.taken.map Prod.snd).flatten ∧
    (threadPool J).program.Live s ∧
    (threadPool J).program.effort (Service.start (pool tasks numThreads)) as
      ≤ 4 * tasks.length + numThreads.toNat + 3 ∧
    (1 ≤ numThreads → Service.Ended s 0 → (s.shared.output.map Prod.snd).Perm tasks) ∧
    (numThreads ≤ 0 → s.shared.output = []) := by
  have hself : ∀ l : List J, l.flatMap (fun task => [task]) = l := List.flatMap_singleton'
  refine ⟨taken_isPrefix hrun, ?_, Service.live (countP_owns_pool _ _) hrun, ?_,
    fun hthreads hend => ?_, fun hthreads => output_eq_nil hthreads hrun⟩
  · have hsubperm := output_subperm hrun
    rwa [hself] at hsubperm
  · have heffort := effort_le hrun
    rw [hself] at heffort
    unfold threadPool
    omega
  · have hperm := output_perm hthreads hrun hend
    rwa [hself] at hperm

/-- The worker sleeps, is woken for the task, executes it and sleeps again; the owner shuts down. -/
def oneTask : List Act :=
  [.move 1 0, .move 0 0, .move 0 1, .move 1 0, .move 1 0, .move 1 0, .move 0 0, .move 0 0,
    .move 1 0, .move 0 0]

/-- The pool after its only task. -/
def oneTaskDone : State (Shared ℕ ℕ) (Place Unit ℕ ℕ) where
  shared := { stop := true, producing := 0, serving := 0, posted := [(0, 7)], taken := [(1, [7])]
              output := [(1, 7)] }
  threads := [⟨.ended, false⟩, ⟨.ended, false⟩]

theorem threadPool_spec_oneTask :
    run (threadPool ℕ).program.step (Service.start (pool [7] 1)) oneTask = some oneTaskDone ∧
    (oneTaskDone.shared.output.map Prod.snd).Perm [7] :=
  ⟨by decide, (threadPool_spec [7] 1 oneTask oneTaskDone (by decide)).2.2.2.2.1 (by decide) rfl⟩

/-! ## The file search -/

/-- `line.find(pattern) != string::npos`. -/
def contains (pattern : Text) : Text → Bool
  | [] => pattern.isEmpty
  | c :: line => pattern.isPrefixOf (c :: line) || contains pattern line

theorem contains_iff (pattern line : Text) : contains pattern line = true ↔ pattern <:+: line := by
  induction line with
  | nil => rw [contains, List.isEmpty_iff, List.infix_nil]
  | cons c line ih =>
    rw [contains, Bool.or_eq_true, List.isPrefixOf_iff_prefix, ih, List.infix_cons_iff]

/-- The text that is printed for a line. -/
def hit (fileName : Text) (lineNumber : ℕ) (line : Text) : Text :=
  '[' :: fileName ++ ':' :: decimal lineNumber ++ "] ".toList ++ line

/-- The loop of `grep_file` over the lines, from `line_number` on. -/
def grepLines (pattern fileName : Text) : ℕ → List Text → List Text
  | _, [] => []
  | lineNumber, line :: lines =>
    if contains pattern line then
      hit fileName lineNumber line :: grepLines pattern fileName (lineNumber + 1) lines
    else grepLines pattern fileName (lineNumber + 1) lines

/-- `grep_file`; `none` is a file that cannot be opened. -/
def grepFile (files : Text → Option Text) (pattern fileName : Text) : List Text :=
  match files fileName with
  | none => []
  | some content => grepLines pattern fileName 1 (lineReader.all content)

/-- What is printed are the lines that contain the pattern, with their numbers. -/
theorem mem_grepLines {pattern fileName text : Text} {lineNumber : ℕ} {lines : List Text} :
    text ∈ grepLines pattern fileName lineNumber lines ↔
      ∃ (i : ℕ) (line : Text), lines[i]? = some line ∧ pattern <:+: line ∧
        text = hit fileName (lineNumber + i) line := by
  induction lines generalizing lineNumber with
  | nil => simp [grepLines]
  | cons line lines ih =>
    have hrest : text ∈ grepLines pattern fileName (lineNumber + 1) lines ↔
        ∃ (i : ℕ) (l : Text), (line :: lines)[i + 1]? = some l ∧ pattern <:+: l ∧
          text = hit fileName (lineNumber + (i + 1)) l := by
      rw [ih]
      simp only [List.getElem?_cons_succ, Nat.add_assoc, Nat.add_comm 1]
    rw [grepLines]
    split_ifs with hcontains
    · rw [List.mem_cons, hrest]
      constructor
      · rintro (rfl | ⟨i, l, h⟩)
        · exact ⟨0, line, rfl, (contains_iff _ _).mp hcontains, rfl⟩
        · exact ⟨i + 1, l, h⟩
      · rintro ⟨i, l, hl, hinfix, htext⟩
        cases i with
        | zero =>
          obtain rfl : line = l := Option.some.inj hl
          exact .inl htext
        | succ i => exact .inr ⟨i, l, hl, hinfix, htext⟩
    · rw [hrest]
      constructor
      · rintro ⟨i, l, h⟩
        exact ⟨i + 1, l, h⟩
      · rintro ⟨i, l, hl, hinfix, htext⟩
        cases i with
        | zero =>
          obtain rfl : line = l := Option.some.inj hl
          exact absurd ((contains_iff _ _).mpr hinfix) hcontains
        | succ i => exact ⟨i, l, hl, hinfix, htext⟩

/-- An entry of `filesystem::recursive_directory_iterator`. -/
structure Entry where
  path : Text
  isRegularFile : Bool
  deriving DecidableEq

/-- `path.filename()`: what stands behind the last slash. -/
def filename (path : Text) : Text := (path.reverse.takeWhile (· ≠ '/')).reverse

/-- `path.extension()`: the last dot of the file name and what stands behind it, unless the dot is
the first character or the name is `..`. -/
def extension (path : Text) : Text :=
  let name := filename path
  let tail := (name.reverse.takeWhile (· ≠ '.')).reverse
  if name = "..".toList ∨ name.length ≤ tail.length + 1 then [] else '.' :: tail

/-- The loop of `search_directory`: the files that are put into the queue. -/
def searchDirectory (entries : List Entry) : List Text :=
  (entries.filter fun entry => entry.isRegularFile && extension entry.path = ".cpp".toList).map
    Entry.path

/-- The workers of `ParallelFileSearch`. -/
def parallelFileSearch (files : Text → Option Text) (pattern : Text) : Service Unit Text Text :=
  .oneByOne (grepFile files pattern)

/-- **The parallel search.**  In every interleaving: what has been printed belongs to files that
have been taken, and these are taken in the order of the directory; nobody is ever stuck, and only
boundedly many sections are executed; and when the destructor has returned, if there is a worker,
the lines printed are those that a search of one file after the other prints: the lines of the
regular `.cpp` files that contain the pattern. -/
theorem parallelFileSearch_spec (files : Text → Option Text) (pattern : Text)
    (entries : List Entry) (numThreads : ℤ) (as : List Act)
    (s : State (Shared Text Text) (Place Unit Text Text))
    (hrun : run (parallelFileSearch files pattern).program.step
      (Service.start (pool (searchDirectory entries) numThreads)) as = some s) :
    (s.shared.taken.map Prod.snd).flatten <+: searchDirectory entries ∧
    (s.shared.output.map Prod.snd).Subperm
      ((s.shared.taken.map Prod.snd).flatten.flatMap (grepFile files pattern)) ∧
    (parallelFileSearch files pattern).program.Live s ∧
    (parallelFileSearch files pattern).program.effort
        (Service.start (pool (searchDirectory entries) numThreads)) as
      ≤ 3 * (searchDirectory entries).length
        + ((searchDirectory entries).flatMap (grepFile files pattern)).length
        + numThreads.toNat + 3 ∧
    (1 ≤ numThreads → Service.Ended s 0 →
      (s.shared.output.map Prod.snd).Perm
        ((searchDirectory entries).flatMap (grepFile files pattern)) ∧
      ∀ text, text ∈ s.shared.output.map Prod.snd ↔
        ∃ entry ∈ entries, entry.isRegularFile = true ∧ extension entry.path = ".cpp".toList ∧
          ∃ content, files entry.path = some content ∧
            ∃ (i : ℕ) (line : Text), (lineReader.all content)[i]? = some line ∧
              pattern <:+: line ∧ text = hit entry.path (1 + i) line) := by
  refine ⟨taken_isPrefix hrun, output_subperm hrun,
    Service.live (countP_owns_pool _ _) hrun, effort_le hrun, fun hthreads hend => ?_⟩
  have hperm := output_perm hthreads hrun hend
  refine ⟨hperm, fun text => ?_⟩
  rw [hperm.mem_iff, List.mem_flatMap]
  constructor
  · rintro ⟨path, hpath, htext⟩
    obtain ⟨entry, hentry, rfl⟩ := List.mem_map.mp hpath
    obtain ⟨hmem, hkind⟩ := List.mem_filter.mp hentry
    rw [Bool.and_eq_true, decide_eq_true_eq] at hkind
    refine ⟨entry, hmem, hkind.1, hkind.2, ?_⟩
    unfold grepFile at htext
    split at htext
    next => exact absurd htext List.not_mem_nil
    next content hcontent => exact ⟨content, hcontent, mem_grepLines.mp htext⟩
  · rintro ⟨entry, hmem, hregular, hextension, content, hcontent, hline⟩
    refine ⟨entry.path, List.mem_map_of_mem (List.mem_filter.mpr ⟨hmem, ?_⟩), ?_⟩
    · rw [hregular, hextension]
      rfl
    · rw [grepFile, hcontent]
      exact mem_grepLines.mpr hline

/-- A directory with a source file and its object file. -/
def twoEntries : List Entry := [⟨"./a.cpp".toList, true⟩, ⟨"./a.o".toList, true⟩]

/-- The source file, with one line. -/
def oneFile (path : Text) : Option Text :=
  if path = "./a.cpp".toList then some (unlines ["// TODO".toList]) else none

theorem grepFile_oneFile : grepFile oneFile "TODO".toList "./a.cpp".toList
    = [hit "./a.cpp".toList 1 "// TODO".toList] := by
  have hread : lineReader.all (unlines ["// TODO".toList]) = ["// TODO".toList] :=
    lineReader_all_unlines (by decide)
  rw [grepFile, oneFile, if_pos rfl]
  dsimp only
  rw [hread]
  decide

/-- The worker sleeps, is woken for the file and takes it. -/
def takeFile : List Act := [.move 1 0, .move 0 0, .move 0 1, .move 1 0]

/-- The worker has searched the file, and has still to print what it has `found`. -/
def fileTaken (found : List Text) : State (Shared Text Text) (Place Unit Text Text) where
  shared := { producing := 0, serving := 1, posted := [(0, "./a.cpp".toList)]
              taken := [(1, ["./a.cpp".toList])] }
  threads := [⟨.poster 0 true [] false, false⟩, ⟨.worker 1 () found, false⟩]

/-- It prints one line and sleeps; the owner shuts down. -/
def printFile : List Act :=
  [.move 1 0, .move 1 0, .move 0 0, .move 0 0, .move 1 0, .move 0 0]

/-- The file has been searched, and everybody has returned. -/
def fileSearched : State (Shared Text Text) (Place Unit Text Text) where
  shared := { stop := true, producing := 0, serving := 0, posted := [(0, "./a.cpp".toList)]
              taken := [(1, ["./a.cpp".toList])]
              output := [(1, hit "./a.cpp".toList 1 "// TODO".toList)] }
  threads := [⟨.ended, false⟩, ⟨.ended, false⟩]

theorem run_fileSearched : run (parallelFileSearch oneFile "TODO".toList).program.step
    (Service.start (pool (searchDirectory twoEntries) 1)) (takeFile ++ printFile)
      = some fileSearched := by
  have htake : run (parallelFileSearch oneFile "TODO".toList).program.step
      (Service.start (pool (searchDirectory twoEntries) 1)) takeFile
        = some (fileTaken (grepFile oneFile "TODO".toList "./a.cpp".toList ++ [])) := rfl
  rw [run_append, htake, grepFile_oneFile]
  rfl

theorem parallelFileSearch_spec_oneFile :
    run (parallelFileSearch oneFile "TODO".toList).program.step
      (Service.start (pool (searchDirectory twoEntries) 1)) (takeFile ++ printFile)
        = some fileSearched ∧
    (fileSearched.shared.output.map Prod.snd).Perm
      ((searchDirectory twoEntries).flatMap (grepFile oneFile "TODO".toList)) :=
  ⟨run_fileSearched, ((parallelFileSearch_spec oneFile "TODO".toList twoEntries 1
    (takeFile ++ printFile) fileSearched run_fileSearched).2.2.2.2 (by decide) rfl).1⟩

end TaskPools
