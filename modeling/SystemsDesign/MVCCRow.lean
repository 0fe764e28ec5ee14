/-
# Snapshot reads of a row

Model of `storage/MVCCvisibility.cpp`.  A row is a vector of versions; a write closes the last
version at its timestamp and appends one that ends at `INT_MAX`.  A read looks, by binary search,
for the last version that begins at or before its timestamp, and returns it unless it has ended.

The intervals of the versions fit together: each version ends where the next one begins.  So
whatever version is visible at a timestamp is the one that the search ends at.
-/
import SystemsDesign.BinarySearch

namespace MVCC

/-- `INT_MAX`. -/
def intMax : ℤ := 2 ^ 31 - 1

/-- `RowVersion`. -/
structure RowVersion where
  value : String
  beginTimestamp : ℤ
  endTimestamp : ℤ
  deriving DecidableEq, Repr

/-- `MVCC_Row`: the versions and the lines printed so far, the last one first. -/
structure MVCCRow where
  versions : List RowVersion := []
  printed : List String := []

namespace MVCCRow

/-- `write`: the last version ends where the new one begins. -/
def write (row : MVCCRow) (value : String) (txnTimestamp : ℤ) : MVCCRow where
  versions :=
    row.versions.dropLast
      ++ (row.versions.getLast?.map fun v => { v with endTimestamp := txnTimestamp }).toList
      ++ [⟨value, txnTimestamp, intMax⟩]
  printed :=
    ("TXN at : " ++ toString txnTimestamp ++ " wrote value : " ++ value) :: row.printed

/-- `read`; an index beyond the vector is undefined. -/
def read (row : MVCCRow) (txnTimestamp : ℤ) : Option String :=
  let candidate := BinarySearch.findLast row.versions fun v => ¬ v.beginTimestamp > txnTimestamp
  if candidate ≠ -1 then
    row.versions[candidate.toNat]?.map fun v =>
      if txnTimestamp < v.endTimestamp then v.value else "NOT VISIBLE!"
  else some "NOT VISIBLE!"

/-- The row after a sequence of writes. -/
def writeAll (writes : List (String × ℤ)) : MVCCRow :=
  writes.foldl (fun row w => row.write w.1 w.2) {}

end MVCCRow

/-- A version is visible at a timestamp. -/
def RowVersion.Visible (v : RowVersion) (t : ℤ) : Prop :=
  v.beginTimestamp ≤ t ∧ t < v.endTimestamp

instance (v : RowVersion) (t : ℤ) : Decidable (v.Visible t) :=
  inferInstanceAs (Decidable (_ ∧ _))

/-! ## The chain of versions -/

/-- Each version ends where the next one begins, and the versions begin at these timestamps. -/
structure Chained (timestamps : List ℤ) (vs : List RowVersion) : Prop where
  linked : vs.IsChain fun v w => v.endTimestamp = w.beginTimestamp
  begins : vs.map RowVersion.beginTimestamp = timestamps

variable {timestamps : List ℤ} {vs : List RowVersion} {t : ℤ}

theorem versions_write_nil {row : MVCCRow} (h : row.versions = []) (value : String) (ts : ℤ) :
    (row.write value ts).versions = [⟨value, ts, intMax⟩] := by
  simp [MVCCRow.write, h]

theorem versions_write_concat {row : MVCCRow} {v : RowVersion} (h : row.versions = vs ++ [v])
    (value : String) (ts : ℤ) :
    (row.write value ts).versions
      = vs ++ [{ v with endTimestamp := ts }, ⟨value, ts, intMax⟩] := by
  simp [MVCCRow.write, h]

theorem Chained.write {row : MVCCRow} (h : Chained timestamps row.versions) (value : String)
    (ts : ℤ) : Chained (timestamps ++ [ts]) (row.write value ts).versions := by
  obtain ⟨hlinked, hbegins⟩ := h
  rcases List.eq_nil_or_concat row.versions with hnil | ⟨vs, v, hconcat⟩
  · rw [versions_write_nil hnil, ← hbegins, hnil]
    exact ⟨List.isChain_singleton _, rfl⟩
  · rw [List.concat_eq_append] at hconcat
    rw [hconcat, List.isChain_append] at hlinked
    rw [versions_write_concat hconcat, ← hbegins, hconcat]
    refine ⟨List.isChain_append.mpr ⟨hlinked.1, List.isChain_pair.mpr rfl, ?_⟩, by simp⟩
    -- the last version keeps its begin, so what led to it still does
    intro x hx y hy
    obtain rfl := Option.some.inj hy
    exact hlinked.2.2 x hx v rfl

theorem chained_writeAll (writes : List (String × ℤ)) :
    Chained (writes.map Prod.snd) (MVCCRow.writeAll writes).versions := by
  induction writes using List.reverseRecOn with
  | nil => exact ⟨List.isChain_nil, rfl⟩
  | append_singleton writes w ih =>
    rw [List.map_append, MVCCRow.writeAll, List.foldl_concat]
    exact ih.write w.1 w.2

/-! ## Visibility -/

theorem Chained.sorted (h : Chained timestamps vs) (hmono : timestamps.Pairwise (· ≤ ·)) :
    vs.Pairwise fun v w => v.beginTimestamp ≤ w.beginTimestamp := by
  rwa [← h.begins, List.pairwise_map] at hmono

theorem Chained.ended (h : Chained timestamps vs) (hmono : timestamps.Pairwise (· ≤ ·))
    {i j : ℕ} (hij : i < j) (hi : i < vs.length) (hj : j < vs.length)
    (ht : vs[j].beginTimestamp ≤ t) : vs[i].endTimestamp ≤ t := by
  have hnext : i + 1 < vs.length := by omega
  have hbegin : vs[i + 1].beginTimestamp ≤ vs[j].beginTimestamp := by
    rcases Nat.succ_le_of_lt hij |>.eq_or_lt with heq | hlt
    · simp [← heq]
    · exact List.pairwise_iff_getElem.mp (h.sorted hmono) (i + 1) j hnext hj hlt
  calc vs[i].endTimestamp = vs[i + 1].beginTimestamp := h.linked.getElem i hnext
    _ ≤ vs[j].beginTimestamp := hbegin
    _ ≤ t := ht

/-- The number of versions that have begun at `t`. -/
def begun (vs : List RowVersion) (t : ℤ) : ℕ := vs.countP fun v => ¬ v.beginTimestamp > t

/-- The versions that have begun are the first ones. -/
theorem Chained.begin_le_iff (h : Chained timestamps vs) (hmono : timestamps.Pairwise (· ≤ ·))
    {i : ℕ} (hi : i < vs.length) : vs[i].beginTimestamp ≤ t ↔ i < begun vs t := by
  rw [← not_lt]
  refine BinarySearch.meets_iff_lt_countP (p := fun v => ¬ v.beginTimestamp > t) ?_ i hi
  exact (h.sorted hmono).imp fun hvw hw hv => hw (hv.trans_le hvw)

/-- **Only the last version that has begun can be visible.** -/
theorem Chained.visible_iff (h : Chained timestamps vs) (hmono : timestamps.Pairwise (· ≤ ·))
    {i : ℕ} (hi : i < vs.length) :
    vs[i].Visible t ↔ i + 1 = begun vs t ∧ t < vs[i].endTimestamp := by
  rw [RowVersion.Visible, h.begin_le_iff hmono hi]
  refine and_congr_left fun hend => ⟨fun hlt => ?_, fun heq => by omega⟩
  by_contra hne
  -- otherwise the next version has begun as well
  have hnext : i + 1 < begun vs t := by omega
  have hlen : begun vs t ≤ vs.length := List.countP_le_length
  have hbegun := (h.begin_le_iff hmono (i := i + 1) (by omega)).mpr hnext
  exact absurd (h.ended hmono (Nat.lt_succ_self i) hi (by omega) hbegun) (not_le.mpr hend)

theorem Chained.findLast_eq (h : Chained timestamps vs) (hmono : timestamps.Pairwise (· ≤ ·)) :
    BinarySearch.findLast vs (fun v => ¬ v.beginTimestamp > t) = (begun vs t : ℤ) - 1 :=
  BinarySearch.findLast_eq ((h.sorted hmono).imp fun hvw hw hv => hw (hv.trans_le hvw))

/-- What `read` returns, in terms of the last version that has begun. -/
theorem Chained.read_eq {row : MVCCRow} (h : Chained timestamps row.versions)
    (hmono : timestamps.Pairwise (· ≤ ·)) :
    (begun row.versions t = 0 → row.read t = some "NOT VISIBLE!") ∧
    ∀ i (hi : i < row.versions.length), i + 1 = begun row.versions t →
      row.read t = some (if t < row.versions[i].endTimestamp then row.versions[i].value
        else "NOT VISIBLE!") := by
  have hfind := h.findLast_eq (t := t) hmono
  constructor
  · intro hzero
    rw [hzero] at hfind
    simp only [MVCCRow.read, hfind]
    rfl
  · intro i hi hbegun
    have hcandidate : ((begun row.versions t : ℤ) - 1).toNat = i := by omega
    simp only [MVCCRow.read, hfind, hcandidate]
    rw [if_pos (by omega), List.getElem?_eq_getElem hi, Option.map_some]

/-- **Snapshot reads.**  After writes with non-decreasing timestamps, at most one version is visible
at a timestamp; `read` returns its value, and "NOT VISIBLE!" if there is none. -/
theorem read_visible (writes : List (String × ℤ))
    (hmono : (writes.map Prod.snd).Pairwise (· ≤ ·)) (t : ℤ) :
    (∀ (i j : ℕ) (v w : RowVersion), (MVCCRow.writeAll writes).versions[i]? = some v →
      (MVCCRow.writeAll writes).versions[j]? = some w → v.Visible t → w.Visible t → i = j) ∧
    (∀ v ∈ (MVCCRow.writeAll writes).versions, v.Visible t →
      (MVCCRow.writeAll writes).read t = some v.value) ∧
    ((∀ v ∈ (MVCCRow.writeAll writes).versions, ¬ v.Visible t) →
      (MVCCRow.writeAll writes).read t = some "NOT VISIBLE!") := by
  have h := chained_writeAll writes
  obtain ⟨hzero, hread⟩ := h.read_eq (t := t) hmono
  set row := MVCCRow.writeAll writes
  refine ⟨?_, ?_, ?_⟩
  · intro i j v w hi hj hv hw
    obtain ⟨hilt, rfl⟩ := List.getElem?_eq_some_iff.mp hi
    obtain ⟨hjlt, rfl⟩ := List.getElem?_eq_some_iff.mp hj
    have hib := ((h.visible_iff hmono hilt).mp hv).1
    have hjb := ((h.visible_iff hmono hjlt).mp hw).1
    omega
  · intro v hmem hv
    obtain ⟨i, hi, rfl⟩ := List.getElem_of_mem hmem
    obtain ⟨hbegun, hend⟩ := (h.visible_iff hmono hi).mp hv
    rw [hread i hi hbegun, if_pos hend]
  · intro hnone
    rcases Nat.eq_zero_or_pos (begun row.versions t) with hb | hb
    · exact hzero hb
    · have hlen : begun row.versions t ≤ row.versions.length := List.countP_le_length
      have hi : begun row.versions t - 1 < row.versions.length := by omega
      have hbegun : begun row.versions t - 1 + 1 = begun row.versions t := by omega
      rw [hread _ hi hbegun, if_neg fun hend => ?_]
      exact hnone _ (List.getElem_mem hi) ((h.visible_iff hmono hi).mpr ⟨hbegun, hend⟩)

theorem read_visible_main :
    (MVCCRow.writeAll [("Alice", 1), ("Bob", 5), ("Charlie", 10), ("David", 15),
      ("Eric", 20)]).read 7 = some "Bob" :=
  (read_visible [("Alice", 1), ("Bob", 5), ("Charlie", 10), ("David", 15), ("Eric", 20)]
    (by decide) 7).2.1 ⟨"Bob", 5, 10⟩ (by decide) (by decide)

end MVCC
