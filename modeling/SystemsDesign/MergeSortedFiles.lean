/-
# Merging sorted files

Model of `merge_K_sorted_files`, which `large-scale-processing/merge_k_sorted_files.cpp` has for
words and `large-scale-processing/sort_1TB_file_with_1GB_RAM.cpp` for lines.  The two functions
differ in how they read a value from a stream, so the model has the reader as an argument.  The
priority queue is an arbitrary one: which of two files with equal values comes first is left open.

The invariant of the loop is `Ready`: the streams are sorted, the queue has a value of every stream
that is not at its end, and no value in the queue is above what is left of its stream.  Then the
value on top is below everything that is left, in the queue and in the streams.
-/
import SystemsDesign.ComparatorAlgorithms
import SystemsDesign.RecordStreams

namespace SortedFiles

open ComparatorAlgorithms RecordStreams WhitespaceTokens

/-! ## The merge -/

/-- A value in the queue, and the file it is from. -/
structure Entry where
  value : Text
  fileIndex : ℕ
  deriving DecidableEq, Repr

/-- `Compare`: the greater value is below the smaller one. -/
def Compare (a b : Entry) : Prop := b.value < a.value

section Merge

variable (R : Reader) (P : PriorityQueue Compare)

/-- `if (getline(inputs[i], line)) pq.push({line, i})`, on the queue and what is left of the
inputs. -/
def pullFrom (i : ℕ) (st : P.Queue × List Text) : P.Queue × List Text :=
  match st.2[i]?.bind R.read with
  | none => st
  | some (value, rest) => (P.push st.1 ⟨value, i⟩, st.2.set i rest)

/-- The first value of each file. -/
def openInputs (inputs : List Text) : P.Queue × List Text :=
  (List.range inputs.length).foldl (fun st i => pullFrom R P i st) (P.empty, inputs)

/-- The values in the queue and the characters left in the inputs. -/
def work (st : P.Queue × List Text) : ℕ := (P.elems st.1).card + (st.2.map List.length).sum

variable {R P}

theorem pullFrom_of_some {i : ℕ} {pq : P.Queue} {as bs : List Text} {s value rest : Text}
    (hi : as.length = i) (h : R.read s = some (value, rest)) :
    pullFrom R P i (pq, as ++ s :: bs) = (P.push pq ⟨value, i⟩, as ++ rest :: bs) := by
  subst hi
  simp [pullFrom, h]

/-- Either nothing is read, or the stream at the index is shortened by a value. -/
theorem pullFrom_cases (R : Reader) (P : PriorityQueue Compare) (i : ℕ) (pq : P.Queue)
    (inputs : List Text) :
    (∀ s, inputs[i]? = some s → R.read s = none) ∧ pullFrom R P i (pq, inputs) = (pq, inputs) ∨
      ∃ as s bs value rest, inputs = as ++ s :: bs ∧ as.length = i ∧
        R.read s = some (value, rest) ∧
        pullFrom R P i (pq, inputs) = (P.push pq ⟨value, i⟩, as ++ rest :: bs) := by
  cases hs : inputs[i]? with
  | none =>
    refine Or.inl ⟨by simp, ?_⟩
    simp [pullFrom, hs]
  | some s =>
    cases hread : R.read s with
    | none =>
      refine Or.inl ⟨fun s' hs' => ?_, ?_⟩
      · rw [← Option.some.inj hs']
        exact hread
      · simp [pullFrom, hs, hread]
    | some p =>
      obtain ⟨hlt, hget⟩ := List.getElem?_eq_some_iff.mp hs
      have hsplit : inputs = inputs.take i ++ s :: inputs.drop (i + 1) := by
        rw [← hget, List.getElem_cons_drop, List.take_append_drop]
      have hlen : (inputs.take i).length = i := List.length_take_of_le hlt.le
      refine Or.inr ⟨_, s, _, p.1, p.2, hsplit, hlen, hread, ?_⟩
      conv_lhs => rw [hsplit]
      exact pullFrom_of_some hlen hread

theorem work_pullFrom_le (i : ℕ) (pq : P.Queue) (inputs : List Text) :
    work P (pullFrom R P i (pq, inputs)) ≤ work P (pq, inputs) := by
  rcases pullFrom_cases R P i pq inputs with ⟨-, heq⟩ | ⟨as, s, bs, value, rest, rfl, -, hr, heq⟩
  · rw [heq]
  · have hlt := R.shorter s value rest hr
    rw [heq, work, work, P.elems_push, Multiset.card_cons]
    simp only [List.map_append, List.map_cons, List.sum_append, List.sum_cons]
    omega

theorem work_round_lt {pq : P.Queue} {entry : Entry} (h : P.top pq = some entry)
    (inputs : List Text) :
    work P (pullFrom R P entry.fileIndex (P.pop pq, inputs)) < work P (pq, inputs) := by
  refine (work_pullFrom_le _ _ _).trans_lt ?_
  rw [work, work, P.card_of_top h]
  exact Nat.add_lt_add_right (Nat.lt_succ_self _) _

variable (R P)

/-- The loop `while (!pq.empty())`: the values in the order in which they are written. -/
def mergeLoop (st : P.Queue × List Text) : List Text :=
  match h : P.top st.1 with
  | none => []
  | some entry =>
    have : work P (pullFrom R P entry.fileIndex (P.pop st.1, st.2)) < work P st :=
      work_round_lt h st.2
    entry.value :: mergeLoop (pullFrom R P entry.fileIndex (P.pop st.1, st.2))
termination_by work P st

/-- `merge_K_sorted_files(in_files, out_file)`: the output file is truncated when it is opened. -/
def mergeKSortedFiles (inFiles : List Text) (outFile : Text) (files : Files) : Files :=
  let opened := Function.update files outFile []
  let inputs := inFiles.map opened
  Function.update opened outFile (unlines (mergeLoop R P (openInputs R P inputs)))

variable {R P}

theorem mergeLoop_of_none {st : P.Queue × List Text} (h : P.top st.1 = none) :
    mergeLoop R P st = [] := by
  rw [mergeLoop]
  split
  · rfl
  · rename_i entry hsome
    rw [h] at hsome
    cases hsome

theorem mergeLoop_of_some {st : P.Queue × List Text} {entry : Entry}
    (h : P.top st.1 = some entry) :
    mergeLoop R P st
      = entry.value :: mergeLoop R P (pullFrom R P entry.fileIndex (P.pop st.1, st.2)) := by
  rw [mergeLoop]
  split
  · rename_i hnone
    rw [h] at hnone
    cases hnone
  · rename_i entry' hsome
    obtain rfl := Option.some.inj (h.symm.trans hsome)
    rfl

/-! ## What is left -/

variable (R P)

/-- The values that are still to be written: those in the queue and those left in the inputs. -/
def pending (st : P.Queue × List Text) : Multiset Text :=
  (P.elems st.1).map Entry.value + (st.2.flatMap R.all : List Text)

variable {R P}

/-- Reading moves a value from its stream into the queue. -/
theorem pending_pullFrom (i : ℕ) (pq : P.Queue) (inputs : List Text) :
    pending R P (pullFrom R P i (pq, inputs)) = pending R P (pq, inputs) := by
  rcases pullFrom_cases R P i pq inputs with ⟨-, heq⟩ | ⟨as, s, bs, value, rest, rfl, -, hr, heq⟩
  · rw [heq]
  · rw [heq, pending, pending, P.elems_push, Multiset.map_cons]
    simp only [List.flatMap_append, List.flatMap_cons, Reader.all_of_some hr, List.cons_append,
      ← Multiset.coe_add, ← Multiset.cons_coe, ← Multiset.singleton_add]
    abel

/-- What every round needs: the streams are sorted, a value in the queue is not above what is left
of its stream, and the streams in `filled` have a value in the queue if they are not at their
end. -/
structure Ready (R : Reader) (queued : Multiset Entry) (inputs : List Text) (filled : Set ℕ) :
    Prop where
  sorted : ∀ s ∈ inputs, (R.all s).Pairwise (· ≤ ·)
  le_rest : ∀ e ∈ queued, ∀ s, inputs[e.fileIndex]? = some s → ∀ v ∈ R.all s, e.value ≤ v
  queued : ∀ i ∈ filled, ∀ s, inputs[i]? = some s → R.all s ≠ [] → ∃ e ∈ queued, e.fileIndex = i

variable {queued : Multiset Entry} {inputs : List Text} {filled : Set ℕ}

theorem Ready.pullFrom {pq : P.Queue} (h : Ready R (P.elems pq) inputs filled) (i : ℕ) :
    Ready R (P.elems (pullFrom R P i (pq, inputs)).1) (pullFrom R P i (pq, inputs)).2
      (insert i filled) := by
  rcases pullFrom_cases R P i pq inputs with
    ⟨hend, heq⟩ | ⟨as, s, bs, value, rest, rfl, hi, hr, heq⟩
  · -- the stream is at its end
    rw [heq]
    refine ⟨h.sorted, h.le_rest, fun j hj s hs hne => ?_⟩
    rcases Set.mem_insert_iff.mp hj with rfl | hj
    · exact absurd (Reader.all_of_none (hend s hs)) hne
    · exact h.queued j hj s hs hne
  · rw [heq, P.elems_push]
    have hsorted := h.sorted s (by simp)
    rw [Reader.all_of_some hr, List.pairwise_cons] at hsorted
    have hat : (as ++ rest :: bs)[i]? = some rest := by simp [← hi]
    have hother : ∀ j, j ≠ i → (as ++ rest :: bs)[j]? = (as ++ s :: bs)[j]? := by
      intro j hj
      have hset : as ++ rest :: bs = (as ++ s :: bs).set i rest := by simp [← hi]
      rw [hset, List.getElem?_set_ne hj.symm]
    refine ⟨fun s' hs' => ?_, fun e he s' hs' v hv => ?_, fun j hj s' hs' hne => ?_⟩
    · rcases List.mem_append.mp hs' with hs' | hs'
      · exact h.sorted s' (List.mem_append_left _ hs')
      · rcases List.mem_cons.mp hs' with rfl | hs'
        · exact hsorted.2
        · exact h.sorted s' (List.mem_append_right _ (List.mem_cons_of_mem _ hs'))
    · by_cases hj : e.fileIndex = i
      · rw [hj, hat] at hs'
        obtain rfl := Option.some.inj hs'
        rcases Multiset.mem_cons.mp he with rfl | he
        · exact hsorted.1 v hv
        · refine h.le_rest e he s (by rw [hj]; simp [← hi]) v ?_
          rw [Reader.all_of_some hr]
          exact List.mem_cons_of_mem _ hv
      · rw [hother _ hj] at hs'
        rcases Multiset.mem_cons.mp he with rfl | he
        · exact absurd rfl hj
        · exact h.le_rest e he s' hs' v hv
    · by_cases hji : j = i
      · exact ⟨⟨value, i⟩, Multiset.mem_cons_self _ _, hji.symm⟩
      · rw [hother j hji] at hs'
        obtain ⟨e, he, hej⟩ := h.queued j ((Set.mem_insert_iff.mp hj).resolve_left hji) s' hs' hne
        exact ⟨e, Multiset.mem_cons_of_mem he, hej⟩

/-- Popping leaves the place of one stream empty. -/
theorem Ready.pop {pq : P.Queue} (h : Ready R (P.elems pq) inputs Set.univ) {entry : Entry}
    (htop : P.top pq = some entry) :
    Ready R (P.elems (P.pop pq)) inputs {i | i ≠ entry.fileIndex} := by
  have helems := P.elems_of_top htop
  refine ⟨h.sorted, fun e he => h.le_rest e ?_, fun i hi s hs hne => ?_⟩
  · rw [helems]
    exact Multiset.mem_cons_of_mem he
  · obtain ⟨e, he, hei⟩ := h.queued i (Set.mem_univ i) s hs hne
    rw [helems] at he
    rcases Multiset.mem_cons.mp he with rfl | he
    · exact absurd hei.symm hi
    · exact ⟨e, he, hei⟩

/-- **The value on top is not above anything that is left.** -/
theorem Ready.top_le {pq : P.Queue} (h : Ready R (P.elems pq) inputs Set.univ) {entry : Entry}
    (htop : P.top pq = some entry) : ∀ v ∈ pending R P (pq, inputs), entry.value ≤ v := by
  have hleast : ∀ e ∈ P.elems pq, entry.value ≤ e.value := fun e he =>
    not_lt.mp (P.not_below_of_top htop e he)
  intro v hv
  rcases Multiset.mem_add.mp hv with hv | hv
  · obtain ⟨e, he, rfl⟩ := Multiset.mem_map.mp hv
    exact hleast e he
  · -- a value left in a stream is not below the one that its stream has in the queue
    obtain ⟨s, hs, hvs⟩ := List.mem_flatMap.mp (Multiset.mem_coe.mp hv)
    obtain ⟨i, hi⟩ := List.mem_iff_getElem?.mp hs
    obtain ⟨e, he, hei⟩ := h.queued i (Set.mem_univ i) s hi (List.ne_nil_of_mem hvs)
    exact (hleast e he).trans (h.le_rest e he s (hei ▸ hi) v hvs)

/-- **The loop writes everything that is left, in order.** -/
theorem mergeLoop_spec (st : P.Queue × List Text)
    (h : Ready R (P.elems st.1) st.2 Set.univ) :
    (mergeLoop R P st : Multiset Text) = pending R P st ∧
      (mergeLoop R P st).Pairwise (· ≤ ·) := by
  induction hn : work P st using Nat.strong_induction_on generalizing st with
  | _ n ih =>
    obtain ⟨pq, inputs⟩ := st
    cases htop : P.top pq with
    | none =>
      -- nothing in the queue, so nothing in the streams
      have hempty := (P.top_eq_none_iff pq).mp htop
      have hall : inputs.flatMap R.all = [] := by
        refine List.flatMap_eq_nil_iff.mpr fun s hs => ?_
        obtain ⟨i, hi⟩ := List.mem_iff_getElem?.mp hs
        by_contra hne
        obtain ⟨e, he, -⟩ := h.queued i (Set.mem_univ i) s hi hne
        rw [hempty] at he
        exact Multiset.notMem_zero e he
      rw [mergeLoop_of_none htop, pending, hempty, hall]
      exact ⟨rfl, List.Pairwise.nil⟩
    | some entry =>
      have hready := (h.pop htop).pullFrom (P := P) entry.fileIndex
      have hfull : insert entry.fileIndex {i | i ≠ entry.fileIndex} = Set.univ := by
        ext i
        simp [em]
      rw [hfull] at hready
      obtain ⟨hrest, hsorted⟩ := ih _ (hn ▸ work_round_lt htop inputs) _ hready rfl
      rw [pending_pullFrom] at hrest
      have hpending :
          pending R P (pq, inputs) = entry.value ::ₘ pending R P (P.pop pq, inputs) := by
        rw [pending, pending, P.elems_of_top htop, Multiset.map_cons, Multiset.cons_add]
      rw [mergeLoop_of_some htop, ← Multiset.cons_coe, hrest, ← hpending]
      refine ⟨rfl, List.pairwise_cons.mpr ⟨fun v hv => h.top_le htop v ?_, hsorted⟩⟩
      rw [hpending, ← hrest]
      exact Multiset.mem_cons_of_mem hv

theorem ready_openInputs (P : PriorityQueue Compare)
    (hsorted : ∀ s ∈ inputs, (R.all s).Pairwise (· ≤ ·)) :
    Ready R (P.elems (openInputs R P inputs).1) (openInputs R P inputs).2 Set.univ ∧
      pending R P (openInputs R P inputs) = (inputs.flatMap R.all : List Text) := by
  -- after `n` rounds of the loop the first `n` streams have a value in the queue
  have hloop : ∀ n st, st = (List.range n).foldl (fun st i => pullFrom R P i st)
      (P.empty, inputs) → Ready R (P.elems st.1) st.2 {i | i < n} ∧
        pending R P st = (inputs.flatMap R.all : List Text) ∧
        st.2.length = inputs.length := by
    intro n
    induction n with
    | zero =>
      rintro st rfl
      refine ⟨⟨hsorted, fun e he => ?_, fun i hi => absurd hi (Nat.not_lt_zero i)⟩, ?_, rfl⟩
      · exact absurd (P.elems_empty ▸ he) (Multiset.notMem_zero e)
      · simp [pending, P.elems_empty]
    | succ n ih =>
      rintro st rfl
      rw [List.range_succ, List.foldl_concat]
      obtain ⟨hready, hpending, hlength⟩ := ih _ rfl
      set st := (List.range n).foldl (fun st i => pullFrom R P i st) (P.empty, inputs)
      refine ⟨?_, (pending_pullFrom n st.1 st.2).trans hpending, ?_⟩
      · have hset : insert n {i | i < n} = {i | i < n + 1} := by
          ext i
          simp only [Set.mem_insert_iff, Set.mem_ofPred_eq]
          omega
        have hnext := hready.pullFrom (P := P) n
        rw [hset] at hnext
        exact hnext
      · rw [← hlength]
        rcases pullFrom_cases R P n st.1 st.2 with ⟨-, heq⟩ | ⟨as, s, bs, v, r, hs, -, -, heq⟩
        · exact congrArg (fun st => st.2.length) heq
        · refine (congrArg (fun st => st.2.length) heq).trans ?_
          rw [hs]
          simp
  obtain ⟨hready, hpending, hlength⟩ := hloop inputs.length _ rfl
  refine ⟨⟨hready.sorted, hready.le_rest, fun i _ s hs => ?_⟩, hpending⟩
  obtain ⟨hlt, -⟩ := List.getElem?_eq_some_iff.mp hs
  exact hready.queued i (hlength ▸ hlt) s hs

/-- **Merging sorted files.**  If the values of every input file are in order and the output is
not one of them, the output has one line for each value of the inputs, in order; the other files
stay as they are. -/
theorem mergeKSortedFiles_spec (P : PriorityQueue Compare) {inFiles : List Text} {outFile : Text}
    {files : Files} (hout : outFile ∉ inFiles)
    (hsorted : ∀ name ∈ inFiles, (R.all (files name)).Pairwise (· ≤ ·)) :
    ∃ values, mergeKSortedFiles R P inFiles outFile files
        = Function.update files outFile (unlines values) ∧
      values.Perm (inFiles.flatMap fun name => R.all (files name)) ∧
      values.Pairwise (· ≤ ·) := by
  have hinputs : inFiles.map (Function.update files outFile []) = inFiles.map files := by
    refine List.map_congr_left fun name hname => Function.update_of_ne ?_ _ _
    exact fun heq => hout (heq ▸ hname)
  have hstreams : ∀ s ∈ inFiles.map files, (R.all s).Pairwise (· ≤ ·) := by
    intro s hs
    obtain ⟨name, hname, rfl⟩ := List.mem_map.mp hs
    exact hsorted name hname
  obtain ⟨hready, hpending⟩ := ready_openInputs P hstreams
  obtain ⟨hall, hordered⟩ := mergeLoop_spec _ hready
  refine ⟨_, ?_, ?_, hordered⟩
  · simp only [mergeKSortedFiles, hinputs, Function.update_idem]
  · rw [hpending, Multiset.coe_eq_coe, List.flatMap_map] at hall
    exact hall

end Merge

end SortedFiles
