/-
# Parallel merge sort

Model of `algorithms/MergeSort_parallel.cpp`.  `merge_sort` sorts the two halves of a range, in two
threads as long as the recursion is not too deep and one after the other below, and merges them
through a temporary vector.

The vector that the threads share is the memory of a fork-join program (`ForkJoin`), with the `int`
indices as cells: every `arr[i]` is an access of its own, and the accesses of threads that run at
the same time are interleaved in any order.  The temporary vector and the indices are local.

Result: `merge_sort` on `[left, right]` accesses nothing outside of that range and leaves a sorted
permutation of it (`mergeSort_ensures`).  That is a statement about every interleaving, since the
two threads of a parallel level have disjoint ranges.  It also rules out data races
(`mergeSort_raceFree`).
-/
import SystemsDesign.ForkJoin

namespace MergeSortParallel

open ForkJoin TransitionSystem

/-! ## The program -/

/-- `while (i <= mid && j <= right)`; then `next` with the local variables. -/
def mergeLoop (mid right i j : ℤ) (temp : List ℤ) (next : ℤ → ℤ → List ℤ → Prog ℤ ℤ) : Prog ℤ ℤ :=
  if _ : i ≤ mid ∧ j ≤ right then
    .read i fun x => .read j fun y =>
      if x ≤ y then .read i fun x => mergeLoop mid right (i + 1) j (temp ++ [x]) next
      else .read j fun y => mergeLoop mid right i (j + 1) (temp ++ [y]) next
  else next i j temp
termination_by (mid + 1 - i).toNat + (right + 1 - j).toNat
decreasing_by all_goals omega

/-- `while (i <= last) temp.push_back(arr[i++]);` -/
def copyLoop (last i : ℤ) (temp : List ℤ) (next : List ℤ → Prog ℤ ℤ) : Prog ℤ ℤ :=
  if _ : i ≤ last then .read i fun x => copyLoop last (i + 1) (temp ++ [x]) next
  else next temp
termination_by (last + 1 - i).toNat
decreasing_by omega

/-- The loop that writes back, from `k` on. -/
def writeBack (left k : ℤ) : List ℤ → Prog ℤ ℤ
  | [] => .done
  | v :: temp => .write (left + k) v (writeBack left (k + 1) temp)

/-- `merge(arr, left, mid, right)`. -/
def merge (left mid right : ℤ) : Prog ℤ ℤ :=
  mergeLoop mid right left (mid + 1) [] fun i j temp =>
    copyLoop mid i temp fun temp =>
      copyLoop right j temp fun temp =>
        writeBack left 0 temp

/-- `merge_sort(arr, left, right, curr_depth, max_depth)`. -/
def mergeSort (left right : ℤ) (currDepth maxDepth : ℕ) : Prog ℤ ℤ :=
  if _ : left ≥ right then .done
  else
    let mid := left + (right - left) / 2
    if currDepth < maxDepth then
      .fork (mergeSort left mid (currDepth + 1) maxDepth)
        (mergeSort (mid + 1) right (currDepth + 1) maxDepth)
        (merge left mid right)
    else
      ((mergeSort left mid (currDepth + 1) maxDepth).seq
        (mergeSort (mid + 1) right (currDepth + 1) maxDepth)).seq
        (merge left mid right)
termination_by (right - left).toNat
decreasing_by all_goals omega

/-! ## Ranges of the vector -/

section Segments

variable {V : Type*} {m m' : ℤ → V} {l mid r : ℤ}

/-- The values in `[l, r]`. -/
def segment (m : ℤ → V) (l r : ℤ) : List V :=
  (List.range (r + 1 - l).toNat).map fun k : ℕ => m (l + k)

theorem segment_of_lt (m : ℤ → V) (h : r < l) : segment m l r = [] := by
  have hzero : (r + 1 - l).toNat = 0 := by omega
  rw [segment, hzero]
  rfl

theorem segment_of_le (m : ℤ → V) (h : l ≤ r) : segment m l r = m l :: segment m (l + 1) r := by
  have hsucc : (r + 1 - l).toNat = (r + 1 - (l + 1)).toNat + 1 := by omega
  rw [segment, hsucc, List.range_succ_eq_map, List.map_cons, List.map_map]
  congr 1
  · simp
  · apply List.map_congr_left
    intro k _
    simp only [Function.comp, Nat.cast_succ]
    congr 1
    ring

theorem segment_append (m : ℤ → V) (hl : l ≤ mid + 1) (hr : mid ≤ r) :
    segment m l mid ++ segment m (mid + 1) r = segment m l r := by
  -- by the length of the first one
  induction hn : (mid + 1 - l).toNat generalizing l with
  | zero =>
    obtain rfl : l = mid + 1 := by omega
    rw [segment_of_lt m (by omega : mid < mid + 1), List.nil_append]
  | succ n ih =>
    have hlm : l ≤ mid := by omega
    rw [segment_of_le m hlm, segment_of_le m (hlm.trans hr), List.cons_append,
      ih (by omega) (by omega)]

theorem segment_congr (h : Agree (Set.Icc l r) m m') : segment m l r = segment m' l r := by
  unfold segment
  apply List.map_congr_left
  intro k hk
  rw [List.mem_range] at hk
  exact h _ (Set.mem_Icc.mpr ⟨by omega, by omega⟩)

end Segments

/-! ## Merging -/

variable {F : Set ℤ} {Q : (ℤ → ℤ) → Prop} {m m' m'' : ℤ → ℤ} {left mid right : ℤ}

/-- The merge of two lists as the loop does it. -/
def merged (xs ys : List ℤ) : List ℤ := xs.merge ys fun x y => decide (x ≤ y)

theorem merged_cons_cons (x y : ℤ) (xs ys : List ℤ) :
    merged (x :: xs) (y :: ys)
      = if x ≤ y then x :: merged xs (y :: ys) else y :: merged (x :: xs) ys := by
  rw [merged, List.cons_merge_cons]
  simp only [decide_eq_true_eq, merged]

theorem Icc_succ_subset {i last : ℤ} (h : Set.Icc i last ⊆ F) : Set.Icc (i + 1) last ⊆ F := by
  intro a ha
  have hle := ha.1
  exact h (Set.mem_Icc.mpr ⟨by omega, ha.2⟩)

theorem copyLoop_ensures {last i : ℤ} {temp : List ℤ} {next : List ℤ → Prog ℤ ℤ}
    (hF : Set.Icc i last ⊆ F) (h : Ensures F (next (temp ++ segment m i last)) Q m) :
    Ensures F (copyLoop last i temp next) Q m := by
  induction hn : (last + 1 - i).toNat generalizing i temp with
  | zero =>
    have hlt : ¬ i ≤ last := by omega
    rw [segment_of_lt m (not_le.mp hlt), List.append_nil] at h
    rw [copyLoop, dif_neg hlt]
    exact h
  | succ n ih =>
    have hle : i ≤ last := by omega
    rw [segment_of_le m hle] at h
    rw [copyLoop, dif_pos hle]
    refine ⟨hF (Set.left_mem_Icc.mpr hle), ih (Icc_succ_subset hF) ?_ (by omega)⟩
    rwa [List.append_assoc, List.singleton_append]

/-- The main loop: when it ends, one of the ranges is empty and what is in `temp` is the front of
their merge. -/
theorem mergeLoop_ensures {i j : ℤ} {temp : List ℤ} {next : ℤ → ℤ → List ℤ → Prog ℤ ℤ}
    (hi : Set.Icc i mid ⊆ F) (hj : Set.Icc j right ⊆ F)
    (h : ∀ i' j' temp', i ≤ i' → j ≤ j' → (mid < i' ∨ right < j') →
      temp' ++ merged (segment m i' mid) (segment m j' right)
        = temp ++ merged (segment m i mid) (segment m j right) →
      Ensures F (next i' j' temp') Q m) :
    Ensures F (mergeLoop mid right i j temp next) Q m := by
  -- by how much is left of both ranges
  induction hn : (mid + 1 - i).toNat + (right + 1 - j).toNat generalizing i j temp with
  | zero =>
    have hend : ¬ (i ≤ mid ∧ j ≤ right) := by omega
    rw [mergeLoop, dif_neg hend]
    exact h i j temp le_rfl le_rfl (by omega) rfl
  | succ n ih =>
    rw [mergeLoop]
    by_cases hij : i ≤ mid ∧ j ≤ right
    · rw [dif_pos hij]
      have himem : i ∈ F := hi (Set.left_mem_Icc.mpr hij.1)
      have hjmem : j ∈ F := hj (Set.left_mem_Icc.mpr hij.2)
      refine ⟨himem, hjmem, ?_⟩
      dsimp only
      by_cases hle : m i ≤ m j
      · -- the next value is that of the first range
        rw [if_pos hle]
        refine ⟨himem, ih (Icc_succ_subset hi) hj
          (fun i' j' temp' hii' hjj' hend heq => ?_) (by omega)⟩
        refine h i' j' temp' (by omega) hjj' hend (heq.trans ?_)
        rw [segment_of_le m hij.1, segment_of_le m hij.2, merged_cons_cons, if_pos hle,
          List.append_assoc, List.singleton_append]
      · rw [if_neg hle]
        refine ⟨hjmem, ih hi (Icc_succ_subset hj)
          (fun i' j' temp' hii' hjj' hend heq => ?_) (by omega)⟩
        refine h i' j' temp' hii' (by omega) hend (heq.trans ?_)
        rw [segment_of_le m hij.1, segment_of_le m hij.2, merged_cons_cons, if_neg hle,
          List.append_assoc, List.singleton_append]
    · rw [dif_neg hij]
      exact h i j temp le_rfl le_rfl (by omega) rfl

theorem writeBack_ensures {k : ℤ} {temp : List ℤ}
    (hF : Set.Icc (left + k) (left + k + temp.length - 1) ⊆ F)
    (h : ∀ m', AgreeOff (Set.Icc (left + k) (left + k + temp.length - 1)) m' m →
      segment m' (left + k) (left + k + temp.length - 1) = temp → Q m') :
    Ensures F (writeBack left k temp) Q m := by
  induction temp generalizing k m with
  | nil =>
    refine h m (fun _ _ => rfl) (segment_of_lt m ?_)
    simp
  | cons v temp ih =>
    have hlast : left + k + ((v :: temp).length : ℤ) - 1
        = left + (k + 1) + (temp.length : ℤ) - 1 := by
      rw [List.length_cons]
      push_cast
      ring
    rw [hlast] at hF h
    have hle : left + k ≤ left + (k + 1) + (temp.length : ℤ) - 1 := by omega
    have hF' := Icc_succ_subset hF
    rw [add_assoc left k 1] at hF'
    refine ⟨hF (Set.left_mem_Icc.mpr hle), ih hF' fun m' hoff hseg => ?_⟩
    -- the later writes leave this one and what is outside alone
    have hkept : ∀ a, a ≤ left + k ∨ left + (k + 1) + (temp.length : ℤ) - 1 < a →
        m' a = Function.update m (left + k) v a := by
      intro a ha
      apply hoff a
      rw [Set.mem_Icc]
      omega
    refine h m' (fun a ha => ?_) ?_
    · rw [Set.mem_Icc] at ha
      rw [hkept a (by omega), Function.update_of_ne (by omega)]
    · rw [segment_of_le m' hle, hkept _ (.inl le_rfl), Function.update_self, add_assoc left k 1,
        hseg]

/-- What a sort of `[left, right]` does to the vector. -/
structure Sorts (left right : ℤ) (m m' : ℤ → ℤ) : Prop where
  sorted : (segment m' left right).Pairwise (· ≤ ·)
  perm : (segment m' left right).Perm (segment m left right)
  frame : AgreeOff (Set.Icc left right) m' m

/-- **Merging sorted halves** sorts the range. -/
theorem merge_ensures (hl : left ≤ mid + 1) (hr : mid ≤ right) (hF : Set.Icc left right ⊆ F)
    (hleft : (segment m left mid).Pairwise (· ≤ ·))
    (hright : (segment m (mid + 1) right).Pairwise (· ≤ ·))
    (h : ∀ m', Sorts left right m m' → Q m') : Ensures F (merge left mid right) Q m := by
  have hFl : Set.Icc left mid ⊆ F := fun a ha => hF (Set.mem_Icc.mpr ⟨ha.1, ha.2.trans hr⟩)
  have hFr : Set.Icc (mid + 1) right ⊆ F := fun a ha => hF (Set.mem_Icc.mpr ⟨hl.trans ha.1, ha.2⟩)
  refine mergeLoop_ensures hFl hFr fun i j temp hi hj hend heq => ?_
  -- one of the ranges is empty, so that what is copied is the rest of the merge
  have htemp : temp ++ segment m i mid ++ segment m j right
      = merged (segment m left mid) (segment m (mid + 1) right) := by
    rw [List.nil_append] at heq
    rw [← heq, List.append_assoc]
    congr 1
    rcases hend with hend | hend
    · rw [segment_of_lt m hend, List.nil_append, merged, List.nil_merge]
    · rw [segment_of_lt m hend, List.append_nil, merged, List.merge_right]
  refine copyLoop_ensures (fun a ha => hFl (Set.mem_Icc.mpr ⟨hi.trans ha.1, ha.2⟩)) ?_
  refine copyLoop_ensures (fun a ha => hFr (Set.mem_Icc.mpr ⟨hj.trans ha.1, ha.2⟩)) ?_
  rw [htemp]
  have hperm : (merged (segment m left mid) (segment m (mid + 1) right)).Perm
      (segment m left right) := by
    rw [← segment_append m hl hr]
    exact List.merge_perm_append _
  have hlength : left + 0 + ((merged (segment m left mid) (segment m (mid + 1) right)).length : ℤ)
      - 1 = right := by
    rw [hperm.length_eq, segment, List.length_map, List.length_range]
    omega
  apply writeBack_ensures
  · rw [hlength, add_zero]
    exact hF
  · rw [hlength, add_zero]
    intro m' hoff hseg
    refine h m' ⟨?_, ?_, hoff⟩
    · rw [hseg]
      exact hleft.merge hright
    · rw [hseg]
      exact hperm

/-! ## Sorting -/

/-- What the two recursive calls leave: both halves sorted. -/
structure Halves (left mid right : ℤ) (m m' : ℤ → ℤ) : Prop where
  left_sorted : (segment m' left mid).Pairwise (· ≤ ·)
  left_perm : (segment m' left mid).Perm (segment m left mid)
  right_sorted : (segment m' (mid + 1) right).Pairwise (· ≤ ·)
  right_perm : (segment m' (mid + 1) right).Perm (segment m (mid + 1) right)
  frame : AgreeOff (Set.Icc left right) m' m

/-- The merge after the two recursive calls. -/
theorem Halves.merge_ensures (h : Halves left mid right m m') (hl : left ≤ mid + 1)
    (hr : mid ≤ right) (hF : Set.Icc left right ⊆ F) (hQ : ∀ m'', Sorts left right m m'' → Q m'') :
    Ensures F (merge left mid right) Q m' := by
  refine MergeSortParallel.merge_ensures hl hr hF h.left_sorted h.right_sorted fun m'' hm'' => ?_
  refine hQ m'' ⟨hm''.sorted, hm''.perm.trans ?_, fun a ha => ?_⟩
  · rw [← segment_append m' hl hr, ← segment_append m hl hr]
    exact h.left_perm.append h.right_perm
  · exact (hm''.frame a ha).trans (h.frame a ha)

/-- A range of at most one element is sorted. -/
theorem sorts_self (h : right ≤ left) : Sorts left right m m := by
  refine ⟨?_, .refl _, fun _ _ => rfl⟩
  rcases lt_or_eq_of_le h with hlt | rfl
  · rw [segment_of_lt m hlt]
    exact .nil
  · rw [segment_of_le m le_rfl, segment_of_lt m (by omega)]
    exact List.pairwise_singleton _ _

/-- Sorting the first half and then the second. -/
theorem Sorts.halves (h : Sorts left mid m m') (h' : Sorts (mid + 1) right m' m'')
    (hl : left ≤ mid + 1) (hr : mid ≤ right) : Halves left mid right m m'' := by
  have hleft : segment m'' left mid = segment m' left mid := by
    refine segment_congr fun a ha => h'.frame a fun ha' => ?_
    have := ha.2
    have := ha'.1
    omega
  have hright : segment m' (mid + 1) right = segment m (mid + 1) right := by
    refine segment_congr fun a ha => h.frame a fun ha' => ?_
    have := ha.1
    have := ha'.2
    omega
  refine ⟨?_, ?_, h'.sorted, ?_, fun a ha => ?_⟩
  · rw [hleft]
    exact h.sorted
  · rw [hleft]
    exact h.perm
  · rw [← hright]
    exact h'.perm
  · rw [h'.frame a fun ha' => ha ⟨hl.trans ha'.1, ha'.2⟩,
      h.frame a fun ha' => ha ⟨ha'.1, ha'.2.trans hr⟩]

theorem local_sorted (left right : ℤ) (values : List ℤ) :
    Local (Set.Icc left right) fun m' : ℤ → ℤ =>
      (segment m' left right).Pairwise (· ≤ ·) ∧ (segment m' left right).Perm values := by
  intro m m' hagree h
  rwa [← segment_congr hagree]

/-- **`merge_sort` sorts its range**, in any interleaving, and accesses nothing else. -/
theorem mergeSort_ensures {currDepth maxDepth : ℕ} (hF : Set.Icc left right ⊆ F)
    (hQ : ∀ m', Sorts left right m m' → Q m') :
    Ensures F (mergeSort left right currDepth maxDepth) Q m := by
  -- by the length of the range, for every part of the vector and every aim
  induction hn : (right - left).toNat using Nat.strong_induction_on
    generalizing left right currDepth F Q m with
  | _ n ih =>
    rw [mergeSort]
    by_cases hle : left ≥ right
    · rw [dif_pos hle]
      exact hQ m (sorts_self hle)
    rw [dif_neg hle]
    set mid := left + (right - left) / 2 with hmid
    have hl : left ≤ mid + 1 := by omega
    have hr : mid ≤ right := by omega
    have hFl : Set.Icc left mid ⊆ Set.Icc left right := Set.Icc_subset_Icc le_rfl hr
    have hFr : Set.Icc (mid + 1) right ⊆ Set.Icc left right := Set.Icc_subset_Icc hl le_rfl
    have hltl : (mid - left).toNat < n := by omega
    have hltr : (right - (mid + 1)).toNat < n := by omega
    by_cases hdepth : currDepth < maxDepth
    · -- two threads with disjoint ranges
      rw [if_pos hdepth]
      refine ⟨Set.Icc left mid, Set.Icc (mid + 1) right, hFl.trans hF, hFr.trans hF, ?_, _, _,
        local_sorted left mid (segment m left mid),
        local_sorted (mid + 1) right (segment m (mid + 1) right), ?_, ?_, ?_⟩
      · rw [Set.disjoint_left]
        intro a ha ha'
        have := ha.2
        have := ha'.1
        omega
      · exact ih _ hltl subset_rfl (fun m' hm' => ⟨hm'.sorted, hm'.perm⟩) rfl
      · exact ih _ hltr subset_rfl (fun m' hm' => ⟨hm'.sorted, hm'.perm⟩) rfl
      · intro m' hoff h₁ h₂
        have hframe : AgreeOff (Set.Icc left right) m' m :=
          fun a ha => hoff a fun ha' => ha (ha'.elim (fun h => hFl h) fun h => hFr h)
        exact (Halves.mk h₁.1 h₁.2 h₂.1 h₂.2 hframe).merge_ensures hl hr hF hQ
    · -- one after the other
      rw [if_neg hdepth]
      refine .seq (.seq ?_)
      refine ih _ hltl (hFl.trans hF) (fun m₁ h₁ => ?_) rfl
      refine ih _ hltr (hFr.trans hF) (fun m₂ h₂ => ?_) rfl
      exact (h₁.halves h₂ hl hr).merge_ensures hl hr hF hQ

/-! ## The result -/

/-- **No data races.**  Whatever the range and the vector, in no state of any interleaving are two
threads about to access the same element. -/
theorem mergeSort_raceFree {currDepth maxDepth : ℕ} {p : Prog ℤ ℤ}
    (hrun : Reachable Step (m, mergeSort left right currDepth maxDepth) (m', p)) (i : ℤ) :
    ¬ Races p i := by
  have hensures : Ensures (Set.Icc left right) (mergeSort left right currDepth maxDepth)
      (fun _ => True) m := mergeSort_ensures subset_rfl fun _ _ => trivial
  exact (hensures.reachable hrun).1.not_races

theorem mergeSort_raceFree_start : ¬ Races (mergeSort 0 3 0 1) 2 :=
  mergeSort_raceFree (m := fun _ => 0) .refl 2

/-- The vector in memory. -/
def load (arr : List ℤ) (i : ℤ) : ℤ := arr.getD i.toNat 0

theorem segment_load (arr : List ℤ) : segment (load arr) 0 (arr.length - 1) = arr := by
  have hlength : ((arr.length : ℤ) - 1 + 1 - 0).toNat = arr.length := by omega
  rw [segment, hlength]
  apply List.ext_getElem (by simp)
  intro i hi _
  simp only [List.length_map, List.length_range] at hi
  simp [load, List.getElem?_eq_getElem hi]

/-- **Parallel merge sort.**  For every vector and every depth, in every state of every interleaving
of `merge_sort(arr, 0, arr.size() - 1, 0, max_depth)`:

* the accesses that the threads are about to make are in range;
* if it has returned, the vector is sorted and a permutation of what it was;
* if it has not, some thread can go on, and no interleaving goes on for ever.

A call on `[left, right]`, whatever the vector holds, changes no element outside of that range. -/
theorem mergeSort_spec (arr : List ℤ) (maxDepth : ℕ) :
    (∀ m p, Reachable Step (load arr, mergeSort 0 (arr.length - 1) 0 maxDepth) (m, p) →
      (∀ i, Touches p i → 0 ≤ i ∧ i < arr.length) ∧
      (p = .done → (segment m 0 (arr.length - 1)).Pairwise (· ≤ ·) ∧
        (segment m 0 (arr.length - 1)).Perm arr) ∧
      (p = .done ∨ ∃ c, Step (m, p) c)) ∧
    (∀ run : ℕ → Config ℤ ℤ, run 0 = (load arr, mergeSort 0 (arr.length - 1) 0 maxDepth) →
      ¬ ∀ i, Step (run i) (run (i + 1))) ∧
    ∀ left right currDepth m m' p,
      Reachable Step (m, mergeSort left right currDepth maxDepth) (m', p) →
      ∀ i, i < left ∨ right < i → m' i = m i := by
  refine ⟨fun m p hrun => ?_, fun run _ => no_infinite_run run, ?_⟩
  · have hensures : Ensures (Set.Icc 0 ((arr.length : ℤ) - 1))
        (mergeSort 0 (arr.length - 1) 0 maxDepth)
        (fun m' => Sorts 0 (arr.length - 1) (load arr) m') (load arr) :=
      mergeSort_ensures subset_rfl fun m' hm' => hm'
    obtain ⟨hleft, -⟩ := hensures.reachable hrun
    refine ⟨fun i hi => ?_, ?_, exists_step m p⟩
    · have hmem := Set.mem_Icc.mp (hleft.touches hi)
      omega
    · rintro rfl
      have hsorts : Sorts 0 (arr.length - 1) (load arr) m := hleft
      have hperm := hsorts.perm
      rw [segment_load] at hperm
      exact ⟨hsorts.sorted, hperm⟩
  · intro left right currDepth m m' p hrun i hi
    have hensures : Ensures (Set.Icc left right) (mergeSort left right currDepth maxDepth)
        (fun _ => True) m := mergeSort_ensures subset_rfl fun _ _ => trivial
    refine (hensures.reachable hrun).2 i fun hmem => ?_
    have := hmem.1
    have := hmem.2
    omega

end MergeSortParallel
