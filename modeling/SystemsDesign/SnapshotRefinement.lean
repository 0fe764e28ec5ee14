/-
# Snapshots refine full copies, with exact reference counts

The block store of `SnapshotManager` tracks the references of the current file and of all
snapshots (`RefCounting.Tracks`).  From this one invariant both results follow, for the
snapshot manager and for the restore engine:

* `refines_fullCopies` : no call and no read misses a block, and what is read is what a model
  that copies the whole file would read;
* `blockStore_exact` : the store holds exactly the blocks in use, with exact counts.
-/
import SystemsDesign.RefCounting
import SystemsDesign.SnapshotManager

namespace VolumeSnapshots

open RefCounting

/-! ## The block store as a reference-counted store -/

/-- Blocks keep their data beside the count. -/
def counted : Counted Block String where
  count := Block.refCount
  setCount block n := { block with refCount := n }
  payload := Block.data
  count_setCount _ _ := rfl
  payload_setCount _ _ := rfl

theorem incrementRefCount_eq (store : BlockStore) (ids : List ℤ) :
    incrementRefCount store ids = retainAll counted store ids := rfl

theorem decrementRefCount_eq (store : BlockStore) (ids : List ℤ) :
    decrementRefCount store ids = releaseAll counted store ids := rfl

/-- The references of the snapshots to a block. -/
def snapshotRefs (snapshots : Finmap fun _ : ℤ => Snapshot) (id : ℤ) : ℕ :=
  total (fun snapshot => snapshot.blockIds.count id) snapshots

/-- The references to a block: those of the current file and those of the snapshots. -/
def SnapshotManager.refs (s : SnapshotManager) (id : ℤ) : ℕ :=
  s.currentBlocks.count id + snapshotRefs s.snapshots id

theorem readBlocks_eq {store : BlockStore} {refs : ℤ → ℕ} {content : ℤ → String}
    (h : Tracks counted store refs content) {ids : List ℤ} (hids : ∀ id ∈ ids, 0 < refs id) :
    readBlocks store ids = some (ids.map content) := by
  induction ids with
  | nil => rfl
  | cons id ids ih =>
    obtain ⟨block, hblock, -, hdata⟩ := h.present id (hids id (by simp))
    have hrest : readBlocks store ids = some (ids.map content) :=
      ih fun j hj => hids j (by simp [hj])
    rw [readBlocks, List.mapM_cons, hblock, ← readBlocks, hrest, List.map_cons, ← hdata]
    rfl

/-! ## The invariant -/

/-- The state `s` stands for the full copies `f`, where `content` is the data of each block. -/
structure Represents (s : SnapshotManager) (f : FullCopies) (content : ℤ → String) : Prop where
  tracks : Tracks counted s.blockStore s.refs content
  current_nodup : s.currentBlocks.Nodup
  snapshot_nodup : ∀ v snapshot, s.snapshots.lookup v = some snapshot → snapshot.blockIds.Nodup
  fresh_block : ∀ id, s.nextBlockId ≤ id → s.refs id = 0
  fresh_version : ∀ v, s.nextVersion ≤ v → v ∉ s.snapshots
  version_eq : f.nextVersion = s.nextVersion
  current_eq : f.current = s.currentBlocks.map content
  copies_eq : ∀ v, f.copies.lookup v
    = (s.snapshots.lookup v).map fun snapshot => snapshot.blockIds.map content

namespace Represents

variable {s : SnapshotManager} {f : FullCopies} {content : ℤ → String}

theorem refs_pos_of_current {id : ℤ} (hid : id ∈ s.currentBlocks) : 0 < s.refs id := by
  have := List.count_pos_iff.mpr hid
  unfold SnapshotManager.refs
  omega

theorem count_le_snapshotRefs {v : ℤ} {snapshot : Snapshot}
    (hv : s.snapshots.lookup v = some snapshot) (id : ℤ) :
    snapshot.blockIds.count id ≤ snapshotRefs s.snapshots id :=
  le_total (fun snapshot : Snapshot => snapshot.blockIds.count id) hv

theorem snapshotRefs_pos {v id : ℤ} {snapshot : Snapshot}
    (hv : s.snapshots.lookup v = some snapshot) (hid : id ∈ snapshot.blockIds) :
    0 < snapshotRefs s.snapshots id :=
  lt_of_lt_of_le (List.count_pos_iff.mpr hid) (count_le_snapshotRefs hv id)

/-- A new manager stands for no copies. -/
theorem initial : Represents {} {} (fun _ => "") where
  tracks := by
    have hrefs : SnapshotManager.refs {} = fun _ => 0 := by
      funext id
      simp [SnapshotManager.refs, snapshotRefs]
    rw [hrefs]
    exact Tracks.empty _
  current_nodup := List.nodup_nil
  snapshot_nodup v snapshot h := by simp at h
  fresh_block id _ := by simp [SnapshotManager.refs, snapshotRefs]
  fresh_version v _ := Finmap.notMem_empty
  version_eq := rfl
  current_eq := rfl
  copies_eq v := by simp

/-- A block without references is in no list, so its content does not matter there. -/
theorem map_update_of_notMem {ids : List ℤ} {id : ℤ} (data : String) (h : id ∉ ids) :
    ids.map (Function.update content id data) = ids.map content := by
  apply List.map_congr_left
  intro j hj
  have hne : j ≠ id := by
    rintro rfl
    exact h hj
  exact Function.update_of_ne hne _ _

theorem write (h : Represents s f content) (data : String) :
    Represents (s.write data) (f.step (.write data))
      (Function.update content s.nextBlockId data) := by
  have hzero : s.refs s.nextBlockId = 0 := h.fresh_block _ le_rfl
  have hcurrent : s.nextBlockId ∉ s.currentBlocks := by
    intro hmem
    have := refs_pos_of_current hmem
    omega
  have hsnap : ∀ v snapshot, s.snapshots.lookup v = some snapshot →
      s.nextBlockId ∉ snapshot.blockIds := by
    intro v snapshot hv hmem
    have := snapshotRefs_pos hv hmem
    unfold SnapshotManager.refs at hzero
    omega
  have hrefs : (s.write data).refs
      = fun id => s.refs id + if id = s.nextBlockId then 1 else 0 := by
    funext id
    simp only [SnapshotManager.refs, SnapshotManager.write, Block.new, List.count_append,
      List.count_singleton, beq_iff_eq, eq_comm (a := s.nextBlockId)]
    omega
  constructor
  case tracks =>
    rw [hrefs]
    exact h.tracks.insert (a := Block.new s.nextBlockId data) hzero rfl
  case current_nodup =>
    exact List.nodup_append.mpr ⟨h.current_nodup, List.nodup_singleton _,
      fun a ha b hb => by
        rintro rfl
        obtain rfl : a = s.nextBlockId := List.mem_singleton.mp hb
        exact hcurrent ha⟩
  case snapshot_nodup => exact h.snapshot_nodup
  case fresh_block =>
    intro id hid
    have hid' : s.nextBlockId + 1 ≤ id := hid
    rw [hrefs]
    simp [h.fresh_block id (by omega), show id ≠ s.nextBlockId by omega]
  case fresh_version => exact h.fresh_version
  case version_eq => exact h.version_eq
  case current_eq =>
    show f.current ++ [data] = (s.currentBlocks ++ [s.nextBlockId]).map _
    rw [List.map_append, map_update_of_notMem data hcurrent, h.current_eq, List.map_singleton,
      Function.update_self]
  case copies_eq =>
    intro v
    show f.copies.lookup v = (s.snapshots.lookup v).map _
    rw [h.copies_eq v]
    cases hv : s.snapshots.lookup v with
    | none => rfl
    | some snapshot => simp [map_update_of_notMem data (hsnap v snapshot hv)]

/-- `createSnapshot` keeps a copy under the next version, which it returns. -/
theorem createSnapshot (h : Represents s f content) :
    ∃ s', s.createSnapshot = some (f.nextVersion, s') ∧
      Represents s' (f.step .createSnapshot) content := by
  obtain ⟨store, hstore, htracks⟩ := h.tracks.retainAll s.currentBlocks
    fun id hid => refs_pos_of_current hid
  have hfresh : s.nextVersion ∉ s.snapshots := h.fresh_version _ le_rfl
  rw [SnapshotManager.createSnapshot, incrementRefCount_eq, hstore, h.version_eq]
  refine ⟨_, rfl, ?_⟩
  have hrefs : ∀ id,
      snapshotRefs (s.snapshots.insert s.nextVersion ⟨s.nextVersion, s.currentBlocks⟩) id
        = snapshotRefs s.snapshots id + s.currentBlocks.count id :=
    fun id => total_insert_of_notMem _ _ hfresh
  constructor
  case tracks =>
    convert htracks using 1
    funext id
    simp only [SnapshotManager.refs, hrefs]
    omega
  case current_nodup => exact h.current_nodup
  case snapshot_nodup =>
    intro v snapshot hv
    rcases lookup_of_insert hv with ⟨-, rfl⟩ | ⟨-, hold⟩
    · exact h.current_nodup
    · exact h.snapshot_nodup v snapshot hold
  case fresh_block =>
    intro id hid
    have hzero := h.fresh_block id hid
    simp only [SnapshotManager.refs, hrefs] at hzero ⊢
    omega
  case fresh_version =>
    intro v hv
    have hv' : s.nextVersion + 1 ≤ v := hv
    rw [Finmap.mem_insert]
    rintro (rfl | hmem)
    · omega
    · exact h.fresh_version v (by omega) hmem
  case version_eq => exact congrArg (· + 1) h.version_eq
  case current_eq => exact h.current_eq
  case copies_eq =>
    intro v
    show (f.copies.insert f.nextVersion f.current).lookup v = _
    rw [h.version_eq, h.current_eq]
    by_cases hne : v = s.nextVersion
    · subst hne
      rw [Finmap.lookup_insert, Finmap.lookup_insert]
      rfl
    · rw [Finmap.lookup_insert_of_ne _ hne, Finmap.lookup_insert_of_ne _ hne, h.copies_eq v]

/-- Restoring an existing version gives the current file's references to the snapshot. -/
theorem restore (h : Represents s f content) {v : ℤ} {snapshot : Snapshot}
    (hv : s.snapshots.lookup v = some snapshot) :
    ∃ released retained, decrementRefCount s.blockStore s.currentBlocks = some released ∧
      incrementRefCount released snapshot.blockIds = some retained ∧
      Represents { s with blockStore := retained, currentBlocks := snapshot.blockIds }
        (f.step (.restoreSnapshot v)) content := by
  obtain ⟨released, hreleased, htracks⟩ := h.tracks.releaseAll s.currentBlocks
    fun id _ => Nat.le_add_right _ _
  -- the snapshot's own references keep its blocks alive between the two loops
  obtain ⟨retained, hretained, htracks⟩ := htracks.retainAll snapshot.blockIds
    fun id hid => by
      have := snapshotRefs_pos hv hid
      unfold SnapshotManager.refs
      omega
  refine ⟨released, retained, hreleased, hretained, ?_⟩
  have hcopy : f.step (.restoreSnapshot v)
      = { f with current := snapshot.blockIds.map content } := by
    simp only [FullCopies.step, h.copies_eq v, hv, Option.map_some]
  rw [hcopy]
  constructor
  case tracks =>
    convert htracks using 1
    funext id
    simp only [SnapshotManager.refs]
    omega
  case current_nodup => exact h.snapshot_nodup v snapshot hv
  case snapshot_nodup => exact h.snapshot_nodup
  case fresh_block =>
    intro id hid
    have hzero := h.fresh_block id hid
    have hle := count_le_snapshotRefs hv id
    simp only [SnapshotManager.refs] at hzero ⊢
    omega
  case fresh_version => exact h.fresh_version
  case version_eq => exact h.version_eq
  case current_eq => rfl
  case copies_eq => exact h.copies_eq

theorem deleteSnapshot (h : Represents s f content) (v : ℤ) :
    ∃ s', s.deleteSnapshot v = some s' ∧
      Represents s' (f.step (.deleteSnapshot v)) content := by
  unfold SnapshotManager.deleteSnapshot
  cases hv : s.snapshots.lookup v with
  | none =>
    refine ⟨s, rfl, ?_⟩
    have hsame : f.copies.erase v = f.copies := by
      apply Finmap.ext_lookup
      intro j
      by_cases hj : j = v
      · subst hj
        rw [Finmap.lookup_erase, h.copies_eq, hv, Option.map_none]
      · exact Finmap.lookup_erase_ne hj
    simpa only [FullCopies.step, hsame] using h
  | some snapshot =>
    obtain ⟨store, hstore, htracks⟩ := h.tracks.releaseAll snapshot.blockIds
      fun id _ => le_trans (count_le_snapshotRefs hv id) (Nat.le_add_left _ _)
    have hrefs : ∀ id, snapshotRefs (s.snapshots.erase v) id + snapshot.blockIds.count id
        = snapshotRefs s.snapshots id := fun id =>
      total_erase_add (fun snapshot : Snapshot => snapshot.blockIds.count id) hv
    simp only [decrementRefCount_eq, hstore, Option.map_some]
    refine ⟨_, rfl, ?_⟩
    constructor
    case tracks =>
      convert htracks using 1
      funext id
      have := hrefs id
      simp only [SnapshotManager.refs]
      omega
    case current_nodup => exact h.current_nodup
    case snapshot_nodup =>
      intro w other hw
      exact h.snapshot_nodup w other (lookup_of_erase hw).2
    case fresh_block =>
      intro id hid
      have hzero := h.fresh_block id hid
      have := hrefs id
      simp only [SnapshotManager.refs] at hzero ⊢
      omega
    case fresh_version =>
      intro w hw hmem
      exact h.fresh_version w hw (Finmap.mem_erase.mp hmem).2
    case version_eq => exact h.version_eq
    case current_eq => exact h.current_eq
    case copies_eq =>
      intro w
      show (f.copies.erase v).lookup w = ((s.snapshots.erase v).lookup w).map _
      by_cases hne : w = v
      · subst hne
        rw [Finmap.lookup_erase, Finmap.lookup_erase]
        rfl
      · rw [Finmap.lookup_erase_ne hne, Finmap.lookup_erase_ne hne, h.copies_eq w]

/-- Each call of either program refines the call on full copies. -/
theorem step (h : Represents s f content) (engine : Engine) (op : Op) :
    ∃ s' content', VolumeSnapshots.step engine s op = some s' ∧
      Represents s' (f.step op) content' := by
  cases op with
  | write data => exact ⟨_, _, rfl, h.write data⟩
  | createSnapshot =>
    obtain ⟨s', hs', h'⟩ := h.createSnapshot
    exact ⟨s', content, by simp [VolumeSnapshots.step, hs'], h'⟩
  | restoreSnapshot v =>
    cases hv : s.snapshots.lookup v with
    | none =>
      refine ⟨s, content, ?_, ?_⟩
      · cases engine <;> simp [VolumeSnapshots.step, SnapshotManager.restoreSnapshot,
          RestoreEngine.restoreSnapshot, hv]
      · simpa only [FullCopies.step, h.copies_eq v, hv, Option.map_none] using h
    | some snapshot =>
      obtain ⟨released, retained, hdec, hinc, h'⟩ := h.restore hv
      refine ⟨_, content, ?_, h'⟩
      cases engine <;> simp [VolumeSnapshots.step, SnapshotManager.restoreSnapshot,
        RestoreEngine.restoreSnapshot, hv, hdec, hinc]
  | deleteSnapshot v =>
    obtain ⟨s', hs', h'⟩ := h.deleteSnapshot v
    exact ⟨s', content, hs', h'⟩

theorem readCurrentFile_eq (h : Represents s f content) : s.readCurrentFile = some f.current := by
  rw [SnapshotManager.readCurrentFile,
    readBlocks_eq h.tracks fun id hid => refs_pos_of_current hid, h.current_eq]

theorem readSnapshot_eq (h : Represents s f content) (v : ℤ) :
    s.readSnapshot v = some (f.readSnapshot v) := by
  unfold SnapshotManager.readSnapshot FullCopies.readSnapshot
  rw [h.copies_eq v]
  cases hv : s.snapshots.lookup v with
  | none => rfl
  | some snapshot =>
    have hread : readBlocks s.blockStore snapshot.blockIds
        = some (snapshot.blockIds.map content) :=
      readBlocks_eq h.tracks fun id hid =>
        lt_of_lt_of_le (snapshotRefs_pos hv hid) (Nat.le_add_left _ _)
    simp only [hread, Option.map_some]

end Represents

/-- Every run of either program ends, and its state stands for the run of the full copies. -/
theorem represents_run (engine : Engine) (ops : List Op) :
    ∃ s content, run engine ops = some s ∧ Represents s (FullCopies.run ops) content := by
  have hrun : ∃ s, TransitionSystem.run (step engine) {} ops = some s ∧
      ∃ content, Represents s (ops.foldl FullCopies.step {}) content :=
    TransitionSystem.run_refines (R := fun s f => ∃ content, Represents s f content)
      (fun s f op ⟨content, h⟩ => by
        obtain ⟨s', content', hs', h'⟩ := h.step engine op
        exact ⟨s', hs', content', h'⟩)
      ⟨_, Represents.initial⟩ ops
  obtain ⟨s, hs, content, h⟩ := hrun
  exact ⟨s, content, hs, h⟩

/-! ## Main results -/

/-- **Snapshots refine full copies.**  For either program and every sequence of calls, no call
and no later read looks up a missing block; the current file and every version, existing or
not, read as in the model that stores full copies. -/
theorem refines_fullCopies (engine : Engine) (ops : List Op) :
    ∃ s, run engine ops = some s ∧
      s.readCurrentFile = some (FullCopies.run ops).current ∧
      ∀ version, s.readSnapshot version = some ((FullCopies.run ops).readSnapshot version) := by
  obtain ⟨s, content, hs, h⟩ := represents_run engine ops
  exact ⟨s, hs, h.readCurrentFile_eq, h.readSnapshot_eq⟩

/-- The versions of the snapshots that contain a block. -/
def SnapshotManager.snapshotsContaining (s : SnapshotManager) (id : ℤ) : Finset ℤ :=
  s.snapshots.keys.filter fun v =>
    (s.snapshots.lookup v).any fun snapshot => decide (id ∈ snapshot.blockIds)

/-- Snapshots list a block at most once, so references and snapshots are the same number. -/
theorem Represents.snapshotRefs_eq_card {s : SnapshotManager} {f : FullCopies}
    {content : ℤ → String} (h : Represents s f content) (id : ℤ) :
    snapshotRefs s.snapshots id = (s.snapshotsContaining id).card := by
  unfold snapshotRefs total SnapshotManager.snapshotsContaining
  rw [Finset.card_filter]
  apply Finset.sum_congr rfl
  intro v _
  cases hv : s.snapshots.lookup v with
  | none => rfl
  | some snapshot =>
    show snapshot.blockIds.count id = _
    rw [List.Nodup.count (h.snapshot_nodup v snapshot hv)]
    simp

/-- **Exact reference counts and space reclamation.**  For either program, after every sequence
of calls the block store holds exactly the blocks of the current file and of the existing
snapshots, and the count of a block is one for the current file plus one for each snapshot that
contains it. -/
theorem blockStore_exact (engine : Engine) (ops : List Op) :
    ∃ s, run engine ops = some s ∧
      (∀ id, id ∈ s.blockStore ↔ id ∈ s.currentBlocks ∨
        ∃ v snapshot, s.snapshots.lookup v = some snapshot ∧ id ∈ snapshot.blockIds) ∧
      ∀ id block, s.blockStore.lookup id = some block →
        block.refCount
          = (if id ∈ s.currentBlocks then 1 else 0) + (s.snapshotsContaining id).card := by
  obtain ⟨s, content, hs, h⟩ := represents_run engine ops
  refine ⟨s, hs, fun id => ?_, fun id block hblock => ?_⟩
  · rw [h.tracks.mem_iff id]
    constructor
    · intro hpos
      rcases Nat.eq_zero_or_pos (s.currentBlocks.count id) with hzero | hcur
      · right
        obtain ⟨v, snapshot, hv, hcount⟩ :=
          exists_of_total_pos (f := fun snapshot : Snapshot => snapshot.blockIds.count id)
            (m := s.snapshots) (by
              show 0 < snapshotRefs s.snapshots id
              unfold SnapshotManager.refs at hpos
              omega)
        exact ⟨v, snapshot, hv, List.count_pos_iff.mp hcount⟩
      · exact Or.inl (List.count_pos_iff.mp hcur)
    · rintro (hcur | ⟨v, snapshot, hv, hid⟩)
      · exact Represents.refs_pos_of_current hcur
      · exact lt_of_lt_of_le (Represents.snapshotRefs_pos hv hid) (Nat.le_add_left _ _)
  · obtain ⟨-, hcount, -⟩ := h.tracks.of_lookup hblock
    rw [← h.snapshotRefs_eq_card id]
    have hcur := List.Nodup.count (a := id) h.current_nodup
    show counted.count block = _
    rw [hcount, SnapshotManager.refs, hcur]
    push_cast
    rfl

/-- The calls of `main`, with the counts it prints last. -/
example : (run .snapshotManager [.write "A", .write "B", .createSnapshot, .write "C", .write "D",
      .createSnapshot, .restoreSnapshot 1, .deleteSnapshot 2]).map
    (fun s => [1, 2, 3, 4].map fun id => (s.blockStore.lookup id).map Block.refCount)
      = some [some 2, some 2, none, none] := by
  decide

end VolumeSnapshots
