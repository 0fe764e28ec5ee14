/-
# The deduplication index and the chunk store

What the loops of the deduplication engine do to the index and to the chunk store, whatever the
files are.  The index tracks references (`RefCounting.Tracks`), and each fingerprint with
references leads to a chunk of its own (`Linked`):

* `flatten_split` : cutting data into chunks loses nothing;
* `Linked.storeChunks`, `Linked.dropChunks` : the loops of `writeFile` and `deleteFile` add and
  release one reference for each chunk;
* `Linked.appendChunks` : the loop of `readFile` finds a chunk for every fingerprint.
-/
import SystemsDesign.RefCounting
import SystemsDesign.Deduplication

namespace Deduplication

open WhitespaceTokens (Text)
open RefCounting

/-! ## Cutting and putting together -/

/-- The chunks from position `i` on make up the data from there on. -/
theorem flatten_splitFrom (c : Chunker) (data : Text) (i : ℕ) :
    (c.splitFrom data i).flatten = data.drop i := by
  fun_induction Chunker.splitFrom c data i with
  | case1 i hi ih =>
    have htake : (data.drop i).take (min c.chunkSize (data.length - i))
        = (data.drop i).take c.chunkSize := by
      rw [List.take_eq_take_iff, List.length_drop]
      omega
    rw [List.flatten_cons, ih, htake, ← List.drop_drop, List.take_append_drop]
  | case2 i hi =>
    rw [List.flatten_nil, List.drop_eq_nil_of_le (by omega)]

/-- **Chunking loses nothing.** -/
theorem flatten_split (c : Chunker) (data : Text) : (c.split data).flatten = data :=
  flatten_splitFrom c data 0

@[simp]
theorem split_nil (c : Chunker) : c.split [] = [] := by
  rw [Chunker.split, Chunker.splitFrom]
  simp

/-! ## The index as a reference-counted store -/

/-- Metadata keep the address beside the count. -/
def counted : Counted ChunkMetadata ℕ where
  count := ChunkMetadata.refCount
  setCount metadata n := { metadata with refCount := n }
  payload := ChunkMetadata.address
  count_setCount _ _ := rfl
  payload_setCount _ _ := rfl

theorem entry_eq {index : DedupIndex} {fp : String} {metadata : ChunkMetadata}
    (hm : index.lookup fp = some metadata) : index.entry fp = metadata := by
  rw [DedupIndex.entry, hm, Option.getD_some]

theorem get_eq {index : DedupIndex} {fp : String} {metadata : ChunkMetadata}
    (hm : index.lookup fp = some metadata) : index.get fp = (metadata, index) := by
  rw [DedupIndex.get, entry_eq hm, insert_of_lookup hm]

theorem readChunk_eq {store : ChunkStore} {a : ℕ} {chunk : Text}
    (h : store.storage.lookup a = some chunk) : store.readChunk a = (chunk, store) := by
  rw [ChunkStore.readChunk, h, Option.getD_some, insert_of_lookup h]

theorem incrementRef_eq {index index' : DedupIndex} {fp : String}
    (h : retain counted index fp = some index') : index.incrementRef fp = index' := by
  obtain ⟨metadata, hm, rfl⟩ := Option.map_eq_some_iff.mp h
  rw [DedupIndex.incrementRef, entry_eq hm]
  rfl

/-- The loop body of `deleteFile` for a fingerprint that is there. -/
theorem dropChunk_eq {e : DataReductionEngine} {fp : String} {metadata : ChunkMetadata}
    (hm : e.dedupIndex.lookup fp = some metadata) :
    e.dropChunk fp =
      if metadata.refCount - 1 = 0 then
        { e with
          chunkStore := e.chunkStore.deleteChunk metadata.address
          dedupIndex := e.dedupIndex.erase fp }
      else
        { e with dedupIndex :=
            e.dedupIndex.insert fp { metadata with refCount := metadata.refCount - 1 } } := by
  have hget : (e.dedupIndex.decrementRef fp).get fp
      = ({ metadata with refCount := metadata.refCount - 1 }, e.dedupIndex.decrementRef fp) := by
    apply get_eq
    rw [DedupIndex.decrementRef, entry_eq hm, Finmap.lookup_insert]
  rw [DataReductionEngine.dropChunk, hget]
  simp only [DedupIndex.decrementRef, entry_eq hm, DedupIndex.remove, erase_insert]

theorem dropChunk_dedupIndex {e : DataReductionEngine} {index' : DedupIndex} {fp : String}
    (h : release counted e.dedupIndex fp = some index') :
    (e.dropChunk fp).dedupIndex = index' := by
  obtain ⟨metadata, hm, rfl⟩ := Option.map_eq_some_iff.mp h
  rw [dropChunk_eq hm]
  by_cases hlast : metadata.refCount - 1 = 0
  · rw [if_pos hlast]
    exact (if_pos hlast).symm
  · rw [if_neg hlast]
    exact (if_neg hlast).symm

theorem dropChunk_chunkStore {e : DataReductionEngine} {fp : String} {metadata : ChunkMetadata}
    (hm : e.dedupIndex.lookup fp = some metadata) :
    (e.dropChunk fp).chunkStore =
      if metadata.refCount - 1 = 0 then e.chunkStore.deleteChunk metadata.address
      else e.chunkStore := by
  rw [dropChunk_eq hm]
  split_ifs <;> rfl

/-! ## Index and chunk store -/

/-- The index tracks `refs` and leads to the chunks: each fingerprint with references has a
chunk of its own, from `K` and with that fingerprint, and there are no other chunks. -/
structure Linked (hash : Text → UInt64) (K : Set Text) (store : ChunkStore) (index : DedupIndex)
    (refs : String → ℕ) (addr : String → ℕ) : Prop where
  tracks : Tracks counted index refs addr
  bound : ∀ fp, 0 < refs fp → addr fp < store.nextAddress
  addr_inj : ∀ fp fp', 0 < refs fp → 0 < refs fp' → addr fp = addr fp' → fp = fp'
  stored : ∀ fp, 0 < refs fp →
    ∃ chunk ∈ K, fingerPrint hash chunk = fp ∧ store.storage.lookup (addr fp) = some chunk
  owned : ∀ a, a ∈ store.storage → ∃ fp, 0 < refs fp ∧ addr fp = a

namespace Linked

variable {hash : Text → UInt64} {K : Set Text} {store : ChunkStore} {index : DedupIndex}
  {refs addr : String → ℕ}

/-- Counts may change while the same fingerprints have references. -/
theorem recount (h : Linked hash K store index refs addr) {index' : DedupIndex}
    {refs' : String → ℕ} (ht : Tracks counted index' refs' addr)
    (hlive : ∀ fp, 0 < refs' fp ↔ 0 < refs fp) : Linked hash K store index' refs' addr where
  tracks := ht
  bound fp hfp := h.bound fp ((hlive fp).mp hfp)
  addr_inj fp fp' hfp hfp' := h.addr_inj fp fp' ((hlive fp).mp hfp) ((hlive fp').mp hfp')
  stored fp hfp := h.stored fp ((hlive fp).mp hfp)
  owned a ha := by
    obtain ⟨fp, hfp, hfa⟩ := h.owned a ha
    exact ⟨fp, (hlive fp).mpr hfp, hfa⟩

/-- A chunk with a new fingerprint goes to the next address. -/
theorem add (h : Linked hash K store index refs addr) {chunk : Text} (hK : chunk ∈ K)
    (hnew : refs (fingerPrint hash chunk) = 0) :
    Linked hash K (store.writeChunk chunk).2
      (index.add (fingerPrint hash chunk) store.nextAddress)
      (fun fp => refs fp + if fp = fingerPrint hash chunk then 1 else 0)
      (Function.update addr (fingerPrint hash chunk) store.nextAddress) := by
  set fp₀ := fingerPrint hash chunk with hfp₀
  have hold : ∀ fp, fp ≠ fp₀ → 0 < refs fp + (if fp = fp₀ then 1 else 0) → 0 < refs fp := by
    intro fp hne hpos
    rwa [if_neg hne, Nat.add_zero] at hpos
  constructor
  case tracks => exact h.tracks.insert (a := ⟨store.nextAddress, 1⟩) hnew rfl
  case bound =>
    intro fp hpos
    show _ < store.nextAddress + 1
    by_cases hne : fp = fp₀
    · rw [hne, Function.update_self]
      omega
    · rw [Function.update_of_ne hne]
      have := h.bound fp (hold fp hne hpos)
      omega
  case addr_inj =>
    intro fp fp' hpos hpos' heq
    by_cases hne : fp = fp₀ <;> by_cases hne' : fp' = fp₀
    · exact hne.trans hne'.symm
    · rw [hne, Function.update_self, Function.update_of_ne hne'] at heq
      have := h.bound fp' (hold fp' hne' hpos')
      omega
    · rw [hne', Function.update_self, Function.update_of_ne hne] at heq
      have := h.bound fp (hold fp hne hpos)
      omega
    · rw [Function.update_of_ne hne, Function.update_of_ne hne'] at heq
      exact h.addr_inj fp fp' (hold fp hne hpos) (hold fp' hne' hpos') heq
  case stored =>
    intro fp hpos
    by_cases hne : fp = fp₀
    · rw [hne, Function.update_self]
      exact ⟨chunk, hK, hfp₀.symm, Finmap.lookup_insert _⟩
    · obtain ⟨other, hmem, hfp, hlook⟩ := h.stored fp (hold fp hne hpos)
      have hlt := h.bound fp (hold fp hne hpos)
      refine ⟨other, hmem, hfp, ?_⟩
      rw [Function.update_of_ne hne]
      exact (Finmap.lookup_insert_of_ne _ (by omega)).trans hlook
  case owned =>
    intro a ha
    rcases Finmap.mem_insert.mp ha with rfl | ha
    · exact ⟨fp₀, by simp, Function.update_self _ _ _⟩
    · obtain ⟨fp, hpos, hfa⟩ := h.owned a ha
      have hne : fp ≠ fp₀ := by
        rintro rfl
        omega
      exact ⟨fp, by omega, by rw [Function.update_of_ne hne, hfa]⟩

/-- The loop body of `writeFile` adds a reference to the chunk's fingerprint. -/
theorem storeChunk {e : DataReductionEngine}
    (h : Linked hash K e.chunkStore e.dedupIndex refs addr) {chunk : Text} (hK : chunk ∈ K) :
    ∃ addr', Linked hash K (e.storeChunk hash chunk).chunkStore
      (e.storeChunk hash chunk).dedupIndex
      (fun fp => refs fp + if fp = fingerPrint hash chunk then 1 else 0) addr' := by
  by_cases hlive : 0 < refs (fingerPrint hash chunk)
  · obtain ⟨index', hindex', ht⟩ := h.tracks.retain hlive
    have hcontains : e.dedupIndex.contains (fingerPrint hash chunk) = true :=
      Finmap.lookup_isSome.mpr ((h.tracks.mem_iff _).mpr hlive)
    rw [DataReductionEngine.storeChunk, if_pos hcontains, incrementRef_eq hindex']
    refine ⟨addr, h.recount ht fun fp => ?_⟩
    by_cases hfp : fp = fingerPrint hash chunk
    · subst hfp
      simp [hlive]
    · simp [hfp]
  · have hnew : refs (fingerPrint hash chunk) = 0 := by omega
    have hcontains : ¬ e.dedupIndex.contains (fingerPrint hash chunk) = true := by
      rw [DedupIndex.contains, h.tracks.absent _ hnew]
      simp
    rw [DataReductionEngine.storeChunk, if_neg hcontains]
    exact ⟨_, h.add hK hnew⟩

/-- The loop body of `deleteFile` takes a reference away. -/
theorem dropChunk {e : DataReductionEngine}
    (h : Linked hash K e.chunkStore e.dedupIndex refs addr) (fp : String) (hfp : 0 < refs fp) :
    Linked hash K (e.dropChunk fp).chunkStore (e.dropChunk fp).dedupIndex
      (fun fp' => refs fp' - if fp' = fp then 1 else 0) addr := by
  obtain ⟨metadata, hm, hcount, haddr⟩ := h.tracks.present fp hfp
  obtain ⟨index', hindex', ht⟩ := h.tracks.release hfp
  have hcount' : metadata.refCount = refs fp := hcount
  have haddr' : metadata.address = addr fp := haddr
  rw [dropChunk_dedupIndex hindex', dropChunk_chunkStore hm]
  by_cases hlast : metadata.refCount - 1 = 0
  · rw [if_pos hlast, haddr']
    have hone : refs fp = 1 := by omega
    have hold : ∀ fp', 0 < refs fp' - (if fp' = fp then 1 else 0) → fp' ≠ fp ∧ 0 < refs fp' := by
      intro fp' hpos
      by_cases hne : fp' = fp
      · subst hne
        rw [if_pos rfl] at hpos
        omega
      · rw [if_neg hne] at hpos
        exact ⟨hne, by omega⟩
    constructor
    case tracks => exact ht
    case bound => exact fun fp' hpos => h.bound fp' (hold fp' hpos).2
    case addr_inj =>
      exact fun fp₁ fp₂ h₁ h₂ => h.addr_inj fp₁ fp₂ (hold fp₁ h₁).2 (hold fp₂ h₂).2
    case stored =>
      intro fp' hpos
      obtain ⟨hne, hpos'⟩ := hold fp' hpos
      obtain ⟨chunk, hmem, hfp', hlook⟩ := h.stored fp' hpos'
      refine ⟨chunk, hmem, hfp', ?_⟩
      -- another fingerprint has another address
      have hother : addr fp' ≠ addr fp := fun heq => hne (h.addr_inj fp' fp hpos' hfp heq)
      exact (Finmap.lookup_erase_ne hother).trans hlook
    case owned =>
      intro a ha
      obtain ⟨hne, ha'⟩ := Finmap.mem_erase.mp ha
      obtain ⟨fp', hpos, rfl⟩ := h.owned a ha'
      have hother : fp' ≠ fp := by
        rintro rfl
        exact hne rfl
      exact ⟨fp', by rw [if_neg hother]; omega, rfl⟩
  · rw [if_neg hlast]
    apply h.recount ht
    intro fp'
    by_cases hne : fp' = fp
    · subst hne
      rw [if_pos rfl]
      omega
    · rw [if_neg hne, Nat.sub_zero]

theorem storeChunks {e : DataReductionEngine}
    (h : Linked hash K e.chunkStore e.dedupIndex refs addr) (chunks : List Text)
    (hK : ∀ chunk ∈ chunks, chunk ∈ K) :
    ∃ addr', Linked hash K (chunks.foldl (DataReductionEngine.storeChunk hash) e).chunkStore
      (chunks.foldl (DataReductionEngine.storeChunk hash) e).dedupIndex
      (fun fp => refs fp + (chunks.map (fingerPrint hash)).count fp) addr' := by
  induction chunks generalizing e refs addr with
  | nil => exact ⟨addr, by simpa using h⟩
  | cons chunk chunks ih =>
    obtain ⟨addr₁, h₁⟩ := h.storeChunk (hK chunk (by simp))
    obtain ⟨addr', h'⟩ := ih h₁ fun c hc => hK c (by simp [hc])
    refine ⟨addr', ?_⟩
    rw [List.foldl_cons]
    convert h' using 2 with fp
    rw [List.map_cons, count_cons_eq]
    omega

theorem dropChunks {e : DataReductionEngine}
    (h : Linked hash K e.chunkStore e.dedupIndex refs addr) (fps : List String)
    (hfps : ∀ fp ∈ fps, fps.count fp ≤ refs fp) :
    Linked hash K (fps.foldl DataReductionEngine.dropChunk e).chunkStore
      (fps.foldl DataReductionEngine.dropChunk e).dedupIndex
      (fun fp => refs fp - fps.count fp) addr := by
  induction fps generalizing e refs with
  | nil => simpa using h
  | cons fp fps ih =>
    have hfp := hfps fp (by simp)
    rw [List.count_cons_self] at hfp
    have h' := ih (h.dropChunk fp (by omega)) fun fp' hfp' => by
      have := hfps fp' (by simp [hfp'])
      rw [count_cons_eq] at this
      omega
    rw [List.foldl_cons]
    convert h' using 2 with fp'
    rw [count_cons_eq]
    omega

/-- The loop of `readFile` over fingerprints with references changes nothing and appends for
each a chunk that has it. -/
theorem appendChunks {e : DataReductionEngine}
    (h : Linked hash K e.chunkStore e.dedupIndex refs addr) (acc : Text) (fps : List String)
    (hfps : ∀ fp ∈ fps, 0 < refs fp) :
    ∃ chunks : List Text, (∀ chunk ∈ chunks, chunk ∈ K) ∧ chunks.map (fingerPrint hash) = fps ∧
      fps.foldl DataReductionEngine.appendChunk (acc, e) = (acc ++ chunks.flatten, e) := by
  induction fps generalizing acc with
  | nil => exact ⟨[], by simp, rfl, by simp⟩
  | cons fp fps ih =>
    have hfp := hfps fp (by simp)
    obtain ⟨metadata, hm, -, haddr⟩ := h.tracks.present fp hfp
    obtain ⟨chunk, hmem, hchunk, hlook⟩ := h.stored fp hfp
    have haddr' : metadata.address = addr fp := haddr
    have happend : DataReductionEngine.appendChunk (acc, e) fp = (acc ++ chunk, e) := by
      simp only [DataReductionEngine.appendChunk, get_eq hm, haddr', readChunk_eq hlook]
    obtain ⟨chunks, hK, hmap, hfold⟩ := ih (acc ++ chunk) fun fp' hfp' => hfps fp' (by simp [hfp'])
    refine ⟨chunk :: chunks, ?_, ?_, ?_⟩
    · intro c hc
      rcases List.mem_cons.mp hc with rfl | hc
      · exact hmem
      · exact hK c hc
    · rw [List.map_cons, hchunk, hmap]
    · rw [List.foldl_cons, happend, hfold, List.flatten_cons, List.append_assoc]

end Linked

end Deduplication
