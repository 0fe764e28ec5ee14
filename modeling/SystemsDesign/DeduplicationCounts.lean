/-
# Deduplication is transparent, and when it leaks

The references that the index tracks are those of the files that are there, and those of
fingerprint lists that `writeFile` replaced without releasing them.  Since the count of a chunk
never falls below its occurrences in files, reading a file gives back what was written
(`readFile_eq_lastWrite`).  Since a leaked reference is never released, the counts are exact
exactly when no file was overwritten (`exact_iff_no_overwrite`).
-/
import SystemsDesign.DeduplicationIndex

namespace Deduplication

open WhitespaceTokens (Text)
open RefCounting

/-! ## What the loops leave alone -/

/-- The loop of `writeFile` touches neither the chunker nor the file map. -/
theorem foldl_storeChunk_frame (hash : Text → UInt64) (e : DataReductionEngine)
    (chunks : List Text) :
    (chunks.foldl (DataReductionEngine.storeChunk hash) e).chunker = e.chunker ∧
      (chunks.foldl (DataReductionEngine.storeChunk hash) e).fileFpMap = e.fileFpMap := by
  induction chunks generalizing e with
  | nil => exact ⟨rfl, rfl⟩
  | cons chunk chunks ih =>
    rw [List.foldl_cons, (ih _).1, (ih _).2, DataReductionEngine.storeChunk]
    split_ifs <;> exact ⟨rfl, rfl⟩

/-- The loop of `deleteFile` touches neither the chunker nor the file map. -/
theorem foldl_dropChunk_frame (e : DataReductionEngine) (fps : List String) :
    (fps.foldl DataReductionEngine.dropChunk e).chunker = e.chunker ∧
      (fps.foldl DataReductionEngine.dropChunk e).fileFpMap = e.fileFpMap := by
  induction fps generalizing e with
  | nil => exact ⟨rfl, rfl⟩
  | cons fp fps ih =>
    rw [List.foldl_cons, (ih _).1, (ih _).2, DataReductionEngine.dropChunk]
    dsimp only
    split_ifs <;> exact ⟨rfl, rfl⟩

/-! ## The invariant of runs -/

/-- How often a fingerprint occurs in the lists of all files. -/
def occurrences (e : DataReductionEngine) (fp : String) : ℕ :=
  total (fun fps => fps.count fp) e.fileFpMap

/-- The effect of evaluating `file_fp_map[fileName]`: a missing name gets an empty list. -/
def DataReductionEngine.touch (e : DataReductionEngine) (fileName : String) :
    DataReductionEngine :=
  { e with fileFpMap :=
      e.fileFpMap.insert fileName ((e.fileFpMap.lookup fileName).getD []) }

/-- The references a call leaves behind: `writeFile` replaces a list without releasing it. -/
def leakedBy (e : DataReductionEngine) (op : Op) (fp : String) : ℕ :=
  match op with
  | .writeFile fileName _ => (e.fileFpMap.lookup fileName).elim 0 fun fps => fps.count fp
  | .readFile _ => 0
  | .deleteFile _ => 0

/-- The references a sequence of calls leaves behind. -/
def leakedFrom (hash : Text → UInt64) (e : DataReductionEngine) (fp : String) : List Op → ℕ
  | [] => 0
  | op :: ops => leakedBy e op fp + leakedFrom hash (step hash e op) fp ops

/-- The chunks of the data that a call writes. -/
def Op.chunks (chunker : Chunker) : Op → List Text
  | .writeFile _ data => chunker.split data
  | .readFile _ => []
  | .deleteFile _ => []

/-- The chunks of the data written in a sequence of calls. -/
def chunksWritten (chunker : Chunker) (ops : List Op) : Set Text :=
  {chunk | ∃ op ∈ ops, chunk ∈ op.chunks chunker}

/-- The engine holds `files`, with `leaked` references beyond those of its lists.  A name that
was read before it was written has an empty list, which counts as no data. -/
structure Holds (hash : Text → UInt64) (K : Set Text) (e : DataReductionEngine)
    (leaked : String → ℕ) (files : Files) : Prop where
  linked : ∃ addr, Linked hash K e.chunkStore e.dedupIndex
    (fun fp => occurrences e fp + leaked fp) addr
  lists : ∀ fileName, (e.fileFpMap.lookup fileName).getD []
    = (e.chunker.split ((files fileName).getD [])).map (fingerPrint hash)
  chunks : ∀ fileName, ∀ chunk ∈ e.chunker.split ((files fileName).getD []), chunk ∈ K

namespace Holds

variable {hash : Text → UInt64} {K : Set Text} {e : DataReductionEngine}
  {leaked : String → ℕ} {files : Files}

theorem initial (hash : Text → UInt64) (K : Set Text) (chunker : Chunker) :
    Holds hash K { chunker := chunker } (fun _ => 0) fun _ => none where
  linked := by
    have hzero : (fun fp => occurrences { chunker := chunker } fp + 0) = fun _ => 0 := by
      funext fp
      simp [occurrences]
    rw [hzero]
    exact ⟨fun _ => 0, Tracks.empty _, fun _ h => absurd h (lt_irrefl 0),
      fun _ _ h => absurd h (lt_irrefl 0), fun _ h => absurd h (lt_irrefl 0),
      fun _ h => absurd h Finmap.notMem_empty⟩
  lists fileName := by simp
  chunks fileName := by simp

theorem count_le_occurrences {fileName : String} {fps : List String}
    (hl : e.fileFpMap.lookup fileName = some fps) (fp : String) :
    fps.count fp ≤ occurrences e fp :=
  le_total (fun fps : List String => fps.count fp) hl

theorem occurrences_pos {fileName fp : String}
    (hfp : fp ∈ (e.fileFpMap.lookup fileName).getD []) : 0 < occurrences e fp := by
  cases hl : e.fileFpMap.lookup fileName with
  | none => simp [hl] at hfp
  | some fps =>
    rw [hl, Option.getD_some] at hfp
    exact lt_of_lt_of_le (List.count_pos_iff.mpr hfp) (count_le_occurrences hl fp)

/-- `writeFile` keeps the data and leaks the references of the list it replaces. -/
theorem writeFile (h : Holds hash K e leaked files) (fileName : String) (data : Text)
    (hK : ∀ chunk ∈ e.chunker.split data, chunk ∈ K) :
    Holds hash K (e.writeFile hash fileName data)
      (fun fp => leaked fp + leakedBy e (.writeFile fileName data) fp)
      (files.step (.writeFile fileName data)) := by
  obtain ⟨addr, hlinked⟩ := h.linked
  obtain ⟨addr', hlinked'⟩ := hlinked.storeChunks (e.chunker.split data) hK
  obtain ⟨hchunker, hmap⟩ := foldl_storeChunk_frame hash e (e.chunker.split data)
  have hocc : ∀ fp, occurrences (e.writeFile hash fileName data) fp
      + leakedBy e (.writeFile fileName data) fp
      = occurrences e fp + ((e.chunker.split data).map (fingerPrint hash)).count fp := by
    intro fp
    simp only [occurrences, DataReductionEngine.writeFile, hmap]
    exact total_insert_add (fun fps : List String => fps.count fp) e.fileFpMap fileName _
  constructor
  case linked =>
    have hrefs : (fun fp => occurrences (e.writeFile hash fileName data) fp
        + (leaked fp + leakedBy e (.writeFile fileName data) fp))
        = fun fp => occurrences e fp + leaked fp
          + ((e.chunker.split data).map (fingerPrint hash)).count fp := by
      funext fp
      have := hocc fp
      omega
    rw [hrefs]
    exact ⟨addr', hlinked'⟩
  case lists =>
    intro name
    simp only [DataReductionEngine.writeFile, hmap, hchunker, Files.step]
    by_cases hname : name = fileName
    · subst hname
      rw [Finmap.lookup_insert, Function.update_self, Option.getD_some, Option.getD_some]
    · rw [Finmap.lookup_insert_of_ne _ hname, Function.update_of_ne hname, h.lists name]
  case chunks =>
    intro name
    simp only [DataReductionEngine.writeFile, hchunker, Files.step]
    by_cases hname : name = fileName
    · subst hname
      rw [Function.update_self, Option.getD_some]
      exact hK
    · rw [Function.update_of_ne hname]
      exact h.chunks name

theorem deleteFile (h : Holds hash K e leaked files) (fileName : String) :
    Holds hash K (e.deleteFile fileName) leaked (files.step (.deleteFile fileName)) := by
  obtain ⟨addr, hlinked⟩ := h.linked
  cases hl : e.fileFpMap.lookup fileName with
  | none =>
    have hsame : e.deleteFile fileName = e := by
      simp only [DataReductionEngine.deleteFile, hl]
    rw [hsame]
    refine ⟨⟨addr, hlinked⟩, fun name => ?_, fun name => ?_⟩
    · by_cases hname : name = fileName
      · subst hname
        simp [hl, Files.step]
      · simpa only [Files.step, Function.update_of_ne hname] using h.lists name
    · by_cases hname : name = fileName
      · subst hname
        simp [Files.step]
      · simpa only [Files.step, Function.update_of_ne hname] using h.chunks name
  | some fps =>
    have hlinked' := hlinked.dropChunks fps fun fp _ =>
      le_trans (count_le_occurrences hl fp) (Nat.le_add_right _ _)
    obtain ⟨hchunker, hmap⟩ := foldl_dropChunk_frame e fps
    have hdelete : e.deleteFile fileName = { fps.foldl DataReductionEngine.dropChunk e with
        fileFpMap := e.fileFpMap.erase fileName } := by
      simp only [DataReductionEngine.deleteFile, hl, hmap]
    have hocc : ∀ fp, occurrences (e.deleteFile fileName) fp + fps.count fp
        = occurrences e fp := by
      intro fp
      rw [hdelete]
      exact total_erase_add (fun fps : List String => fps.count fp) hl
    constructor
    case linked =>
      have hrefs : (fun fp => occurrences (e.deleteFile fileName) fp + leaked fp)
          = fun fp => occurrences e fp + leaked fp - fps.count fp := by
        funext fp
        have := hocc fp
        omega
      rw [hrefs, hdelete]
      exact ⟨addr, hlinked'⟩
    case lists =>
      intro name
      simp only [hdelete, hchunker, Files.step]
      by_cases hname : name = fileName
      · subst hname
        simp
      · rw [Finmap.lookup_erase_ne hname, Function.update_of_ne hname, h.lists name]
    case chunks =>
      intro name
      simp only [hdelete, hchunker, Files.step]
      by_cases hname : name = fileName
      · subst hname
        simp
      · rw [Function.update_of_ne hname]
        exact h.chunks name

/-- `readFile` returns chunks with the fingerprints of the file, and changes nothing but that a
missing name gets an empty list. -/
theorem readFile_eq (h : Holds hash K e leaked files) (fileName : String) :
    ∃ chunks : List Text, (∀ chunk ∈ chunks, chunk ∈ K) ∧
      chunks.map (fingerPrint hash) = (e.fileFpMap.lookup fileName).getD [] ∧
      e.readFile fileName = (chunks.flatten, e.touch fileName) := by
  obtain ⟨addr, hlinked⟩ := h.linked
  exact Linked.appendChunks (e := e.touch fileName) hlinked []
    ((e.fileFpMap.lookup fileName).getD []) fun fp hfp =>
      lt_of_lt_of_le (occurrences_pos hfp) (Nat.le_add_right _ _)

/-- `readFile` keeps files and references. -/
theorem readFile (h : Holds hash K e leaked files) (fileName : String) :
    Holds hash K (e.readFile fileName).2 leaked files := by
  obtain ⟨chunks, -, -, hread⟩ := h.readFile_eq fileName
  rw [hread]
  have hocc : ∀ fp, occurrences (e.touch fileName) fp = occurrences e fp := by
    intro fp
    have hsum := total_insert_add (fun fps : List String => fps.count fp) e.fileFpMap fileName
      ((e.fileFpMap.lookup fileName).getD [])
    have hsame : (e.fileFpMap.lookup fileName).elim 0 (fun fps : List String => fps.count fp)
        = ((e.fileFpMap.lookup fileName).getD []).count fp := by
      cases e.fileFpMap.lookup fileName <;> simp
    simp only [occurrences, DataReductionEngine.touch]
    omega
  constructor
  case linked =>
    obtain ⟨addr, hlinked⟩ := h.linked
    refine ⟨addr, ?_⟩
    simp only [hocc]
    exact hlinked
  case lists =>
    intro name
    refine Eq.trans ?_ (h.lists name)
    by_cases hname : name = fileName
    · subst hname
      show ((e.fileFpMap.insert name _).lookup name).getD [] = _
      rw [Finmap.lookup_insert, Option.getD_some]
    · show ((e.fileFpMap.insert fileName _).lookup name).getD [] = _
      rw [Finmap.lookup_insert_of_ne _ hname]
  case chunks => exact h.chunks

theorem step (h : Holds hash K e leaked files) (op : Op)
    (hK : chunksWritten e.chunker [op] ⊆ K) :
    Holds hash K (step hash e op) (fun fp => leaked fp + leakedBy e op fp) (files.step op) := by
  cases op with
  | writeFile fileName data =>
    exact h.writeFile fileName data fun chunk hchunk =>
      hK ⟨_, List.mem_singleton_self _, hchunk⟩
  | readFile fileName => exact h.readFile fileName
  | deleteFile fileName => exact h.deleteFile fileName

end Holds

theorem chunker_step (hash : Text → UInt64) (e : DataReductionEngine) (op : Op) :
    (step hash e op).chunker = e.chunker := by
  cases op with
  | writeFile fileName data => exact (foldl_storeChunk_frame hash e _).1
  | readFile fileName =>
    have hfold : ∀ (fps : List String) (acc : Text × DataReductionEngine),
        (fps.foldl DataReductionEngine.appendChunk acc).2.chunker = acc.2.chunker := by
      intro fps
      induction fps with
      | nil => exact fun acc => rfl
      | cons fp fps ih => exact fun acc => ih _
    exact hfold _ _
  | deleteFile fileName =>
    simp only [step, DataReductionEngine.deleteFile]
    cases e.fileFpMap.lookup fileName with
    | none => rfl
    | some fps => exact (foldl_dropChunk_frame e fps).1

/-- A sequence of calls keeps the invariant, with the references all of them leak. -/
theorem Holds.foldl {hash : Text → UInt64} {K : Set Text} (ops : List Op) :
    ∀ {e : DataReductionEngine} {leaked : String → ℕ} {files : Files},
      Holds hash K e leaked files → chunksWritten e.chunker ops ⊆ K →
      Holds hash K (ops.foldl (Deduplication.step hash) e)
        (fun fp => leaked fp + leakedFrom hash e fp ops) (ops.foldl Files.step files) := by
  induction ops with
  | nil => exact fun h _ => h
  | cons op ops ih =>
    intro e leaked files h hK
    have hop : chunksWritten e.chunker [op] ⊆ K := by
      rintro chunk ⟨op', hop', hchunk⟩
      exact hK ⟨op', List.mem_cons.mpr (Or.inl (List.mem_singleton.mp hop')), hchunk⟩
    have hrest : chunksWritten (Deduplication.step hash e op).chunker ops ⊆ K := by
      rw [chunker_step]
      rintro chunk ⟨op', hop', hchunk⟩
      exact hK ⟨op', List.mem_cons_of_mem _ hop', hchunk⟩
    simpa only [List.foldl_cons, leakedFrom, Nat.add_assoc] using ih (h.step op hop) hrest

theorem holds_run (hash : Text → UInt64) (chunker : Chunker) {K : Set Text} (ops : List Op)
    (hK : chunksWritten chunker ops ⊆ K) :
    Holds hash K (run hash chunker ops)
      (fun fp => leakedFrom hash { chunker := chunker } fp ops) (Files.run ops) := by
  simpa only [run, Files.run, Nat.zero_add] using (Holds.initial hash K chunker).foldl ops hK

theorem chunker_run (hash : Text → UInt64) (chunker : Chunker) (ops : List Op) :
    (run hash chunker ops).chunker = chunker := by
  induction ops using List.reverseRecOn with
  | nil => rfl
  | append_singleton ops op ih =>
    rw [run, List.foldl_append, List.foldl_cons, List.foldl_nil, chunker_step]
    exact ih

/-! ## Transparency -/

/-- Where fingerprints are injective, equal fingerprint lists come from equal chunk lists. -/
theorem eq_of_map_fingerPrint {hash : Text → UInt64} {K : Set Text}
    (hinj : Set.InjOn (fingerPrint hash) K) {chunks chunks' : List Text}
    (hK : ∀ chunk ∈ chunks, chunk ∈ K) (hK' : ∀ chunk ∈ chunks', chunk ∈ K)
    (h : chunks.map (fingerPrint hash) = chunks'.map (fingerPrint hash)) : chunks = chunks' := by
  induction chunks generalizing chunks' with
  | nil => exact (List.map_eq_nil_iff.mp h.symm).symm
  | cons chunk chunks ih =>
    cases chunks' with
    | nil => simp at h
    | cons chunk' chunks' =>
      rw [List.map_cons, List.map_cons, List.cons.injEq] at h
      rw [hinj (hK chunk (by simp)) (hK' chunk' (by simp)) h.1,
        ih (fun c hc => hK c (by simp [hc])) (fun c hc => hK' c (by simp [hc])) h.2]

/-- **Deduplication is transparent.**  If the fingerprint is injective on the chunks written in
a run, then after the run `readFile` of a file that was written and not deleted since returns
the data of its last `writeFile`. -/
theorem readFile_eq_lastWrite (hash : Text → UInt64) (chunker : Chunker) (ops : List Op)
    (hinj : Set.InjOn (fingerPrint hash) (chunksWritten chunker ops))
    (fileName : String) (data : Text) (hlast : Files.run ops fileName = some data) :
    ((run hash chunker ops).readFile fileName).1 = data := by
  have h := holds_run hash chunker ops (le_refl _)
  obtain ⟨chunks, hK, hmap, hread⟩ := h.readFile_eq fileName
  have hlist := h.lists fileName
  have hwritten := h.chunks fileName
  rw [hlast, Option.getD_some, chunker_run] at hlist hwritten
  have hchunks : chunks = chunker.split data :=
    eq_of_map_fingerPrint hinj hK hwritten (hmap.trans hlist)
  rw [hread, hchunks, flatten_split]

/-- The values of `std::hash` that the output of `main` shows. -/
def mainHash (chunk : Text) : UInt64 :=
  if chunk = "ABCDEFGH".toList then 6278090252846864564
  else if chunk = "12345678".toList then 9934520233202095969
  else if chunk = "99999999".toList then 8673020457155834801
  else 0

theorem injOn_mainHash {ops : List Op} (h : ∀ op ∈ ops, ∀ chunk ∈ op.chunks {},
    chunk ∈ ["ABCDEFGH".toList, "12345678".toList, "99999999".toList]) :
    Set.InjOn (fingerPrint mainHash) (chunksWritten {} ops) := by
  have hlist : ∀ a ∈ ["ABCDEFGH".toList, "12345678".toList, "99999999".toList],
      ∀ b ∈ ["ABCDEFGH".toList, "12345678".toList, "99999999".toList],
        fingerPrint mainHash a = fingerPrint mainHash b → a = b := by
    decide +kernel
  rintro a ⟨op, hop, ha⟩ b ⟨op', hop', hb⟩
  exact hlist a (h op hop a ha) b (h op' hop' b hb)

/-- The run of `main`: after `file1` is deleted, `file2` still reads back although the two
shared a chunk. -/
theorem readFile_eq_lastWrite_main :
    ((run mainHash {} [.writeFile "file1" "ABCDEFGH12345678".toList,
      .writeFile "file2" "ABCDEFGH99999999".toList, .deleteFile "file1"]).readFile "file2").1
      = "ABCDEFGH99999999".toList :=
  readFile_eq_lastWrite mainHash {} _ (injOn_mainHash (by decide +kernel)) "file2" _
    (by decide +kernel)

/-! ## Leaks -/

/-- Counts, entries and chunks agree: the count of each fingerprint is the number of its
occurrences in the lists of the files, exactly the fingerprints that occur have an entry, and
entries and chunks correspond one to one. -/
structure Exact (e : DataReductionEngine) : Prop where
  refCount_eq : ∀ fp metadata, e.dedupIndex.lookup fp = some metadata →
    metadata.refCount = occurrences e fp
  entry_iff : ∀ fp, fp ∈ e.dedupIndex ↔ 0 < occurrences e fp
  chunk_of_entry : ∀ fp metadata, e.dedupIndex.lookup fp = some metadata →
    metadata.address ∈ e.chunkStore.storage
  entry_unique : ∀ fp fp' metadata metadata', e.dedupIndex.lookup fp = some metadata →
    e.dedupIndex.lookup fp' = some metadata' → metadata.address = metadata'.address → fp = fp'
  entry_of_chunk : ∀ a, a ∈ e.chunkStore.storage →
    ∃ fp metadata, e.dedupIndex.lookup fp = some metadata ∧ metadata.address = a

theorem Exact.empty_of_no_files {e : DataReductionEngine} (h : Exact e)
    (hfiles : e.fileFpMap = ∅) : e.dedupIndex = ∅ ∧ e.chunkStore.storage = ∅ := by
  have hindex : ∀ fp, e.dedupIndex.lookup fp = none := by
    intro fp
    rw [Finmap.lookup_eq_none, h.entry_iff, occurrences, hfiles, total_empty]
    exact lt_irrefl 0
  refine ⟨Finmap.ext_lookup fun fp => ?_, Finmap.ext_lookup fun a => ?_⟩
  · rw [hindex fp, Finmap.lookup_empty]
  · rw [Finmap.lookup_empty, Finmap.lookup_eq_none]
    intro ha
    obtain ⟨fp, metadata, hm, -⟩ := h.entry_of_chunk a ha
    rw [hindex fp] at hm
    exact absurd hm (by simp)

/-- The stores are exact where nothing has leaked, and only there. -/
theorem Holds.exact_iff {hash : Text → UInt64} {K : Set Text} {e : DataReductionEngine}
    {leaked : String → ℕ} {files : Files} (h : Holds hash K e leaked files) :
    Exact e ↔ ∀ fp, leaked fp = 0 := by
  obtain ⟨addr, hl⟩ := h.linked
  constructor
  · intro hexact fp
    rcases Nat.eq_zero_or_pos (occurrences e fp + leaked fp) with hzero | hpos
    · omega
    · obtain ⟨metadata, hm, hcount, -⟩ := hl.tracks.present fp hpos
      have hrefs : metadata.refCount = (occurrences e fp + leaked fp : ℕ) := hcount
      have := hexact.refCount_eq fp metadata hm
      omega
  · intro hnone
    have hentry : ∀ fp metadata, e.dedupIndex.lookup fp = some metadata →
        0 < occurrences e fp + leaked fp ∧ metadata.refCount = (occurrences e fp + leaked fp : ℕ) ∧
          metadata.address = addr fp := fun fp metadata hm => hl.tracks.of_lookup hm
    constructor
    case refCount_eq =>
      intro fp metadata hm
      have := (hentry fp metadata hm).2.1
      have := hnone fp
      omega
    case entry_iff =>
      intro fp
      have := hnone fp
      rw [hl.tracks.mem_iff fp]
      omega
    case chunk_of_entry =>
      intro fp metadata hm
      obtain ⟨hpos, -, haddr⟩ := hentry fp metadata hm
      obtain ⟨chunk, -, -, hlook⟩ := hl.stored fp hpos
      rw [haddr]
      exact Finmap.mem_of_lookup_eq_some hlook
    case entry_unique =>
      intro fp fp' metadata metadata' hm hm' heq
      obtain ⟨hpos, -, haddr⟩ := hentry fp metadata hm
      obtain ⟨hpos', -, haddr'⟩ := hentry fp' metadata' hm'
      exact hl.addr_inj fp fp' hpos hpos' (haddr.symm.trans (heq.trans haddr'))
    case entry_of_chunk =>
      intro a ha
      obtain ⟨fp, hpos, rfl⟩ := hl.owned a ha
      obtain ⟨metadata, hm, -, haddr⟩ := hl.tracks.present fp hpos
      exact ⟨fp, metadata, hm, haddr⟩

/-- The call writes a file that has chunks already. -/
def Overwrites (e : DataReductionEngine) (op : Op) : Prop :=
  ∃ fileName data fps, op = .writeFile fileName data ∧
    e.fileFpMap.lookup fileName = some fps ∧ fps ≠ []

/-- A call leaks nothing unless it overwrites. -/
theorem leakedBy_eq_zero_iff (e : DataReductionEngine) (op : Op) :
    (∀ fp, leakedBy e op fp = 0) ↔ ¬ Overwrites e op := by
  constructor
  · rintro h ⟨fileName, data, fps, rfl, hl, hne⟩
    obtain ⟨fp, rest, rfl⟩ := List.exists_cons_of_ne_nil hne
    have := h fp
    simp [leakedBy, hl] at this
  · intro h fp
    cases op with
    | writeFile fileName data =>
      cases hl : e.fileFpMap.lookup fileName with
      | none => simp [leakedBy, hl]
      | some fps =>
        have hnil : fps = [] := by
          by_contra hne
          exact h ⟨fileName, data, fps, rfl, hl, hne⟩
        simp [leakedBy, hl, hnil]
    | readFile fileName => rfl
    | deleteFile fileName => rfl

/-- A sequence of calls leaks nothing unless one of them overwrites. -/
theorem leakedFrom_eq_zero_iff (hash : Text → UInt64) (e : DataReductionEngine) (ops : List Op) :
    (∀ fp, leakedFrom hash e fp ops = 0) ↔
      ∀ done op rest, ops = done ++ op :: rest →
        ¬ Overwrites (done.foldl (step hash) e) op := by
  induction ops generalizing e with
  | nil =>
    constructor
    · intro _ done op rest heq
      simp at heq
    · exact fun _ fp => rfl
  | cons op ops ih =>
    have hsplit : (∀ fp, leakedFrom hash e fp (op :: ops) = 0) ↔
        (∀ fp, leakedBy e op fp = 0) ∧ ∀ fp, leakedFrom hash (step hash e op) fp ops = 0 := by
      simp only [leakedFrom, Nat.add_eq_zero_iff]
      exact forall_and
    rw [hsplit, leakedBy_eq_zero_iff, ih]
    constructor
    · rintro ⟨hop, hrest⟩ done op' rest heq
      cases done with
      | nil =>
        obtain ⟨rfl, -⟩ := List.cons.inj heq
        exact hop
      | cons first done =>
        obtain ⟨rfl, htail⟩ := List.cons.inj heq
        exact hrest done op' rest htail
    · intro h
      refine ⟨h [] op ops rfl, fun done op' rest heq => ?_⟩
      exact h (op :: done) op' rest (by rw [heq, List.cons_append])

/-- **Exactly the overwrites leak.**  After a run the counts, entries and chunks are exact if
and only if no `writeFile` of the run replaced a non-empty list; and where they are exact,
deleting every file empties the index and the chunk store. -/
theorem exact_iff_no_overwrite (hash : Text → UInt64) (chunker : Chunker) (ops : List Op) :
    (Exact (run hash chunker ops) ↔ ∀ done op rest, ops = done ++ op :: rest →
      ¬ Overwrites (run hash chunker done) op) ∧
    (Exact (run hash chunker ops) → (run hash chunker ops).fileFpMap = ∅ →
      (run hash chunker ops).dedupIndex = ∅ ∧ (run hash chunker ops).chunkStore.storage = ∅) := by
  refine ⟨?_, fun h hfiles => h.empty_of_no_files hfiles⟩
  rw [(holds_run hash chunker ops (Set.subset_univ _)).exact_iff, leakedFrom_eq_zero_iff]
  rfl

/-- Writing `file1` twice and deleting it: no file is left, but the first chunk is, with a
count of one. -/
theorem overwritten_file_leaks :
    Set.InjOn (fingerPrint mainHash) (chunksWritten {} [.writeFile "file1" "ABCDEFGH".toList,
      .writeFile "file1" "12345678".toList, .deleteFile "file1"]) ∧
    (run mainHash {} [.writeFile "file1" "ABCDEFGH".toList,
      .writeFile "file1" "12345678".toList, .deleteFile "file1"]).fileFpMap = ∅ ∧
    ¬ Exact (run mainHash {} [.writeFile "file1" "ABCDEFGH".toList,
      .writeFile "file1" "12345678".toList, .deleteFile "file1"]) := by
  refine ⟨injOn_mainHash (by decide +kernel), by decide +kernel, fun h => ?_⟩
  have hleft : (run mainHash {} [.writeFile "file1" "ABCDEFGH".toList,
      .writeFile "file1" "12345678".toList, .deleteFile "file1"]).dedupIndex.lookup
        "6278090252846864564" = some ⟨0, 1⟩ := by
    decide +kernel
  have hempty := (h.empty_of_no_files (by decide +kernel)).1
  rw [hempty, Finmap.lookup_empty] at hleft
  exact absurd hleft (by simp)

end Deduplication
