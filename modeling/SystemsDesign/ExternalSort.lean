/-
# External sort

Model of `large-scale-processing/sort_1TB_file_with_1GB_RAM.cpp`.  The first phase reads the input
line by line into a chunk and writes every full chunk, sorted, to a file of its own (a run); the
rest of the input makes a shorter run.  The second phase merges the runs into the output.

The input stream is read as the file is when it is opened, so that the model is about an input that
is not one of the run files.  `Written` is the invariant of the first phase: the lines read so far
are those in the run files and those in the chunk.
-/
import SystemsDesign.MergeSortedFiles

namespace ExternalSort

open ComparatorAlgorithms RecordStreams SortedFiles WhitespaceTokens

/-! ## The first phase -/

/-- `"run_" + to_string(run_id) + ".txt"`. -/
def runFile (runId : ℕ) : Text := "run_".toList ++ (decimal runId ++ ".txt".toList)

/-- The variables of `create_sorted_runs`, and the files. -/
structure Runs where
  files : Files
  runFiles : List Text := []
  chunk : List Text := []
  runId : ℕ := 0

/-- The chunk is sorted and written to the next run file. -/
def Runs.writeRun (S : Sorter fun a b : Text => a < b) (r : Runs) : Runs :=
  { r with
    chunk := S.sort r.chunk
    runFiles := r.runFiles ++ [runFile r.runId]
    runId := r.runId + 1
    files := Function.update r.files (runFile r.runId) (unlines (S.sort r.chunk)) }

/-- The body of the loop: a line is added to the chunk, and a full chunk is written. -/
def Runs.addLine (S : Sorter fun a b : Text => a < b) (chunkSize : ℕ) (r : Runs) (line : Text) :
    Runs :=
  let r := { r with chunk := r.chunk ++ [line] }
  if chunkSize ≤ r.chunk.length then { r.writeRun S with chunk := [] } else r

/-- `create_sorted_runs(input_file)`: the names of the runs and the files afterwards. -/
def createSortedRuns (S : Sorter fun a b : Text => a < b) (chunkSize : ℕ) (inputFile : Text)
    (files : Files) : List Text × Files :=
  let r := (lineReader.all (files inputFile)).foldl (Runs.addLine S chunkSize) { files := files }
  -- leftover chunk
  let r := if r.chunk = [] then r else r.writeRun S
  (r.runFiles, r.files)

/-- `main`: the files after both phases. -/
def externalSort (S : Sorter fun a b : Text => a < b) (P : PriorityQueue Compare) (chunkSize : ℕ)
    (inputFile outputFile : Text) (files : Files) : Files :=
  let runs := createSortedRuns S chunkSize inputFile files
  mergeKSortedFiles lineReader P runs.1 outputFile runs.2

/-! ## The run files -/

theorem runFile_injective : Function.Injective runFile :=
  numbered_injective "run_".toList (by decide) "txt".toList

/-- The lines of some files. -/
def linesOf (files : Files) (names : List Text) : List Text :=
  names.flatMap fun name => lineReader.all (files name)

/-- What the first phase keeps up: the lines read so far are those in the run files, each of which
is sorted, and those in the chunk. -/
structure Written (done : List Text) (r : Runs) : Prop where
  runFiles_eq : r.runFiles = (List.range r.runId).map runFile
  sorted : ∀ name ∈ r.runFiles, (lineReader.all (r.files name)).Pairwise (· ≤ ·)
  perm : (linesOf r.files r.runFiles ++ r.chunk).Perm done
  clean : ∀ line ∈ r.chunk, '\n' ∉ line

variable {S : Sorter fun a b : Text => a < b} {r : Runs} {done : List Text}

theorem Written.runFile_notMem (h : Written done r) : runFile r.runId ∉ r.runFiles := by
  rw [h.runFiles_eq]
  intro hmem
  obtain ⟨i, hi, heq⟩ := List.mem_map.mp hmem
  exact (List.mem_range.mp hi).ne (runFile_injective heq)

/-- The lines of a run are the sorted chunk. -/
theorem Written.all_writeRun (h : Written done r) (S : Sorter fun a b : Text => a < b) :
    lineReader.all ((r.writeRun S).files (runFile r.runId)) = S.sort r.chunk := by
  show lineReader.all (Function.update r.files (runFile r.runId) _ (runFile r.runId)) = _
  rw [Function.update_self]
  exact lineReader_all_unlines fun line hline => h.clean line ((S.perm r.chunk).mem_iff.mp hline)

theorem Written.files_writeRun (h : Written done r) (S : Sorter fun a b : Text => a < b)
    {name : Text} (hname : name ∈ r.runFiles) : (r.writeRun S).files name = r.files name := by
  refine Function.update_of_ne ?_ _ _
  rintro rfl
  exact h.runFile_notMem hname

/-- A chunk moves into a run of its own. -/
theorem Written.writeRun (h : Written done r) (S : Sorter fun a b : Text => a < b) :
    Written done { r.writeRun S with chunk := [] } where
  runFiles_eq := by
    show r.runFiles ++ [runFile r.runId] = _
    rw [h.runFiles_eq]
    exact (List.range_succ ▸ List.map_append).symm
  sorted name hname := by
    rcases List.mem_append.mp hname with hname | hname
    · show (lineReader.all ((r.writeRun S).files name)).Pairwise _
      rw [h.files_writeRun S hname]
      exact h.sorted name hname
    · obtain rfl := List.mem_singleton.mp hname
      show (lineReader.all ((r.writeRun S).files _)).Pairwise _
      rw [h.all_writeRun S]
      exact (S.sorted r.chunk).imp not_lt.mp
  perm := by
    have hold : linesOf (r.writeRun S).files r.runFiles = linesOf r.files r.runFiles :=
      List.flatMap_congr fun name hname => by rw [h.files_writeRun S hname]
    have hnew : linesOf (r.writeRun S).files [runFile r.runId] = S.sort r.chunk := by
      rw [linesOf, List.flatMap_singleton, h.all_writeRun S]
    have hall : linesOf (r.writeRun S).files (r.runFiles ++ [runFile r.runId])
        = linesOf r.files r.runFiles ++ S.sort r.chunk := by
      rw [← hold, ← hnew]
      exact List.flatMap_append
    show (linesOf (r.writeRun S).files (r.runFiles ++ [runFile r.runId]) ++ []).Perm done
    rw [hall, List.append_nil]
    exact ((S.perm r.chunk).append_left _).trans h.perm
  clean := by simp

theorem Written.addLine (h : Written done r) (S : Sorter fun a b : Text => a < b) (chunkSize : ℕ)
    {line : Text} (hline : '\n' ∉ line) :
    Written (done ++ [line]) (r.addLine S chunkSize line) := by
  have hadd : Written (done ++ [line]) { r with chunk := r.chunk ++ [line] } :=
    { runFiles_eq := h.runFiles_eq
      sorted := h.sorted
      perm := by
        show (linesOf r.files r.runFiles ++ (r.chunk ++ [line])).Perm _
        rw [← List.append_assoc]
        exact h.perm.append_right _
      clean := by
        intro l hl
        rcases List.mem_append.mp hl with hl | hl
        · exact h.clean l hl
        · rwa [List.mem_singleton.mp hl] }
  unfold Runs.addLine
  dsimp only
  split_ifs
  · exact hadd.writeRun S
  · exact hadd

/-- **The first phase loses nothing.**  The run files are sorted, are files of runs, and have the
lines of the input. -/
theorem createSortedRuns_spec (S : Sorter fun a b : Text => a < b) (chunkSize : ℕ)
    (inputFile : Text) (files : Files) :
    let runs := createSortedRuns S chunkSize inputFile files
    (∀ name ∈ runs.1, ∃ i, name = runFile i) ∧
      (∀ name ∈ runs.1, (lineReader.all (runs.2 name)).Pairwise (· ≤ ·)) ∧
      (linesOf runs.2 runs.1).Perm (lineReader.all (files inputFile)) := by
  have hloop : ∀ ls : List Text, (∀ line ∈ ls, '\n' ∉ line) →
      Written ls (ls.foldl (Runs.addLine S chunkSize) { files := files }) := by
    intro ls hls
    induction ls using List.reverseRecOn with
    | nil => exact ⟨rfl, by simp, by simp [linesOf], by simp⟩
    | append_singleton ls line ih =>
      rw [List.foldl_concat]
      exact (ih fun l hl => hls l (List.mem_append_left _ hl)).addLine S chunkSize
        (hls line (by simp))
  have hread := hloop (lineReader.all (files inputFile)) fun line => newline_notMem_of_mem_all
  have hnames : ∀ {r : Runs} {ls}, Written ls r → ∀ name ∈ r.runFiles, ∃ i, name = runFile i := by
    intro r ls h name hname
    rw [h.runFiles_eq] at hname
    obtain ⟨i, -, hi⟩ := List.mem_map.mp hname
    exact ⟨i, hi.symm⟩
  unfold createSortedRuns
  dsimp only
  split_ifs with hchunk
  · have hperm := hread.perm
    rw [hchunk, List.append_nil] at hperm
    exact ⟨hnames hread, hread.sorted, hperm⟩
  · have hlast := hread.writeRun S
    have hlastNames := hnames hlast
    have hperm := hlast.perm
    rw [List.append_nil] at hperm
    exact ⟨hlastNames, hlast.sorted, hperm⟩

/-! ## Result -/

/-- The run files are neither the input nor the output. -/
structure Apart (inputFile outputFile : Text) : Prop where
  input : ∀ i, inputFile ≠ runFile i
  output : ∀ i, outputFile ≠ runFile i

/-- **External sort.**  For every chunk size, sorting algorithm and priority queue, the output has
the lines of the input, as often as the input has them, in lexicographic order, each with a line
end. -/
theorem externalSort_correct (S : Sorter fun a b : Text => a < b) (P : PriorityQueue Compare)
    (chunkSize : ℕ) (inputFile outputFile : Text) (h : Apart inputFile outputFile)
    (files : Files) :
    let output := externalSort S P chunkSize inputFile outputFile files outputFile
    (lineReader.all output).Perm (lineReader.all (files inputFile)) ∧
      (lineReader.all output).Pairwise (· ≤ ·) ∧ output = unlines (lineReader.all output) := by
  obtain ⟨hnames, hsorted, hlines⟩ := createSortedRuns_spec S chunkSize inputFile files
  have hout : outputFile ∉ (createSortedRuns S chunkSize inputFile files).1 := by
    intro hmem
    obtain ⟨i, hi⟩ := hnames _ hmem
    exact h.output i hi
  obtain ⟨values, hmerge, hperm, hordered⟩ := mergeKSortedFiles_spec P hout hsorted
  have hvalues : values.Perm (lineReader.all (files inputFile)) := hperm.trans hlines
  have hclean : ∀ line ∈ values, '\n' ∉ line := fun line hline =>
    newline_notMem_of_mem_all (hvalues.mem_iff.mp hline)
  have hfile : externalSort S P chunkSize inputFile outputFile files outputFile
      = unlines values := by
    rw [externalSort, hmerge, Function.update_self]
  dsimp only
  rw [hfile, lineReader_all_unlines hclean]
  exact ⟨hvalues, hordered, rfl⟩

theorem externalSort_correct_huge :
    Apart "huge.txt".toList "sorted_huge.txt".toList ∧
      (lineReader.all (externalSort (.byKey id) (.byKey Entry.value) 2 "huge.txt".toList
        "sorted_huge.txt".toList (fun _ => "c\nb\na".toList) "sorted_huge.txt".toList)).Pairwise
          (· ≤ ·) := by
  have hapart : Apart "huge.txt".toList "sorted_huge.txt".toList :=
    ⟨fun i hi => absurd (congrArg List.head? hi) (by simp [runFile]),
      fun i hi => absurd (congrArg List.head? hi) (by simp [runFile])⟩
  exact ⟨hapart, (externalSort_correct _ _ 2 _ _ hapart _).2.1⟩

end ExternalSort
