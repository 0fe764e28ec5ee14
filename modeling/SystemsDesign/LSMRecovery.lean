/-
# Crash recovery of the LSM store is exact

Three facts carry the result.

* The log round-trips: the text written for a list of records of words is read back as that
  list (`recover_logText`).
* The live path and the recovery loop do the same to every record, so the running store is at
  every moment the replay of its log, across any number of restarts (`run_eq_replay`).
* A store is a map from keys to their newest value, whatever was flushed when
  (`KVstore.lookup`, `lookup_replay`), and `readKey` reads that map as long as no stored value
  is the text `NOT FOUND!` (`readKey_eq_lookup`).
-/
import SystemsDesign.LSMStore

namespace LSMStore

open WhitespaceTokens

/-! ## The log round-trips -/

/-- The line of the log for one record. -/
def line (kv : Text × Text) : Text := kv.1 ++ ' ' :: (kv.2 ++ ['\n'])

/-- The log file of a list of records. -/
def logText (logs : List (Text × Text)) : Text := logs.flatMap line

/-- A record that survives the tokenizer. -/
def IsRecord (kv : Text × Text) : Prop := IsWord kv.1 ∧ IsWord kv.2

theorem recover_cons_newline (file : Text) : WAL.recover ('\n' :: file) = WAL.recover file := by
  apply readWhile_congr
  unfold readPair
  rw [readWord_cons_space (by decide)]

/-- **Round trip of the log.**  Recovery reads back exactly the records that were appended. -/
theorem recover_logText {logs : List (Text × Text)} (h : ∀ kv ∈ logs, IsRecord kv) :
    WAL.recover (logText logs) = logs := by
  induction logs with
  | nil => exact readWhile_of_none rfl
  | cons kv logs ih =>
    obtain ⟨hk, hv⟩ := h kv List.mem_cons_self
    have htext : logText (kv :: logs) = kv.1 ++ ' ' :: (kv.2 ++ '\n' :: logText logs) := by
      simp [logText, line]
    have hread : readPair (logText (kv :: logs)) = some ((kv.1, kv.2), '\n' :: logText logs) := by
      rw [htext]
      exact readPair_append hk hv (by decide) (by decide) _
    have hrest := ih fun kv' hkv' => h kv' (List.mem_cons_of_mem _ hkv')
    unfold WAL.recover
    rw [readWhile_of_some hread]
    congr 1
    exact (recover_cons_newline _).trans hrest

/-! ## The running store is the replay of its log -/

theorem records_append (ops ops' : List Op) :
    records (ops ++ ops') = records ops ++ records ops' := by
  induction ops with
  | nil => rfl
  | cons op ops ih => cases op <;> simp [records, ih]

/-- What holds for the records of a longer run holds for those of its first part. -/
theorem forall_records_left {ops ops' : List Op} {P : Text × Text → Prop}
    (h : ∀ kv ∈ records (ops ++ ops'), P kv) : ∀ kv ∈ records ops, P kv := by
  intro kv hkv
  rw [records_append] at h
  exact h kv (List.mem_append_left _ hkv)

theorem mem_records {ops : List Op} {kv : Text × Text} (h : kv ∈ records ops) :
    Op.insertKeyValue kv.1 kv.2 ∈ ops := by
  induction ops with
  | nil => simp [records] at h
  | cons op ops ih =>
    cases op with
    | insertKeyValue key value =>
      rcases List.mem_cons.mp h with rfl | h
      · exact List.mem_cons_self
      · exact List.mem_cons_of_mem _ (ih h)
    | restart => exact List.mem_cons_of_mem _ (ih h)

theorem append_logText (logs : List (Text × Text)) (key value : Text) :
    WAL.append (logText logs) key value = logText (logs ++ [(key, value)]) := by
  simp [WAL.append, logText, line]

theorem insertKeyValue_replay (logs : List (Text × Text)) (key value : Text) :
    (KVstore.replay logs).insertKeyValue key value
      = KVstore.replay (logs ++ [(key, value)]) := by
  rw [KVstore.replay, KVstore.replay, List.foldl_concat]
  rfl

/-- **The running store is the replay of its log**, whatever restarts happened on the way. -/
theorem run_eq_replay {ops : List Op} (h : ∀ kv ∈ records ops, IsRecord kv) :
    System.run ops = ⟨logText (records ops), KVstore.replay (records ops)⟩ := by
  induction ops using List.reverseRecOn with
  | nil =>
    have hnil : WAL.recover [] = [] := @recover_logText [] (by simp)
    simp [System.run, System.start, KVstore.ofFile, hnil, records, logText]
  | append_singleton ops op ih =>
    have hops := forall_records_left h
    have hrun : System.run (ops ++ [op]) = (System.run ops).step op := by
      rw [System.run, List.foldl_concat]
      rfl
    rw [hrun, ih hops, records_append]
    cases op with
    | insertKeyValue key value =>
      simp only [System.step, records, append_logText, insertKeyValue_replay]
    | restart =>
      simp only [System.step, records, List.append_nil, KVstore.ofFile, recover_logText hops]

/-! ## A store as a map -/

/-- One more record at the end of a log decides the value of its key. -/
theorem lookup_concat (logs : List (Text × Text)) (kv : Text × Text) (key : Text) :
    (logs ++ [kv]).reverse.lookup key
      = if kv.1 = key then some kv.2 else logs.reverse.lookup key := by
  rw [List.reverse_append, List.reverse_singleton, List.singleton_append]
  obtain ⟨k, v⟩ := kv
  rw [List.lookup_cons]
  by_cases hk : k = key
  · simp [hk]
  · rw [if_neg hk, beq_eq_false_iff_ne.mpr (Ne.symm hk)]

namespace KVstore

/-- The newest value of a key: in the MemTable, else in the newest SSTable that has it. -/
def lookup (s : KVstore) (key : Text) : Option Text :=
  s.memTable[key]?.or (s.sstables.reverse.findSome? fun t => t.find key)

theorem find_ofMemTable (m : OrderedMap Text Text) (key : Text) :
    (SSTable.ofMemTable m).find key = m[key]? := by
  ext v
  rw [SSTable.find, BinarySearch.find_eq_some_iff (SSTable.ofMemTable m).sorted]
  exact OrderedMap.mem_toList_iff

theorem lookup_flushMemTableToDisk (s : KVstore) (key : Text) :
    s.flushMemTableToDisk.lookup key = s.lookup key := by
  unfold lookup flushMemTableToDisk
  rw [List.reverse_append, List.reverse_singleton, List.singleton_append,
    List.findSome?_cons, find_ofMemTable]
  cases s.memTable[key]? <;> simp

/-- An entry of the MemTable changes the value of its key only. -/
theorem lookup_insert_memTable (s : KVstore) (kv : Text × Text) (key : Text) :
    ({ s with memTable := s.memTable.insert kv.1 kv.2 } : KVstore).lookup key
      = if kv.1 = key then some kv.2 else s.lookup key := by
  unfold lookup
  rw [OrderedMap.getElem?_insert_eq_ite]
  by_cases hk : kv.1 = key
  · rw [if_pos hk, if_pos hk, Option.some_or]
  · rw [if_neg hk, if_neg hk]

theorem lookup_recoverRecord (s : KVstore) (kv : Text × Text) (key : Text) :
    (s.recoverRecord kv).lookup key = if kv.1 = key then some kv.2 else s.lookup key := by
  rw [← lookup_insert_memTable]
  unfold recoverRecord
  dsimp only
  split
  · exact lookup_flushMemTableToDisk _ key
  · rfl

/-- **The replayed store maps every key to its last value.** -/
theorem lookup_replay (logs : List (Text × Text)) (key : Text) :
    (replay logs).lookup key = logs.reverse.lookup key := by
  induction logs using List.reverseRecOn with
  | nil => simp [replay, empty, lookup]
  | append_singleton logs kv ih =>
    rw [replay, List.foldl_concat, lookup_recoverRecord, ← replay, ih, lookup_concat]

/-! ## Reads -/

/-- No table holds the text that stands for a failed search. -/
def NoSentinel (s : KVstore) : Prop :=
  ∀ t ∈ s.sstables, ∀ key, t.find key ≠ some notFound

theorem searchTables_eq (key : Text) {ts : List SSTable}
    (h : ∀ t ∈ ts, t.find key ≠ some notFound) :
    searchTables key ts = (ts.findSome? fun t => t.find key).getD notFound := by
  induction ts with
  | nil => rfl
  | cons t ts ih =>
    have ht := h t List.mem_cons_self
    have hts := ih fun t' ht' => h t' (List.mem_cons_of_mem _ ht')
    rw [searchTables, List.findSome?_cons]
    cases hfind : t.find key with
    | none => simp [SSTable.searchKey, hfind, hts]
    | some v =>
      have hv : v ≠ notFound := fun hv => ht (by rw [hfind, hv])
      simp [SSTable.searchKey, hfind, hv]

/-- `readKey` is the lookup, with its failure turned into a text. -/
theorem readKey_eq_lookup {s : KVstore} (h : s.NoSentinel) (key : Text) :
    s.readKey key = (s.lookup key).getD notFound := by
  unfold readKey lookup
  cases s.memTable[key]? with
  | some v => rfl
  | none =>
    rw [Option.none_or]
    exact searchTables_eq key fun t ht => h t (List.mem_reverse.mp ht) key

theorem ne_notFound_of_isWord {v : Text} (hv : IsWord v) : v ≠ notFound := by
  intro heq
  have hblank : ' ' ∈ v := by rw [heq]; decide
  exact absurd (hv.2 ' ' hblank) (by decide)

/-- Nothing that the store holds is the text of a failed search. -/
def Clean (s : KVstore) : Prop :=
  s.NoSentinel ∧ ∀ key : Text, s.memTable[key]? ≠ some notFound

/-- A record with another value keeps the store clean: what is flushed came with a record. -/
theorem Clean.recoverRecord {s : KVstore} (h : s.Clean) {kv : Text × Text}
    (hv : kv.2 ≠ notFound) : (s.recoverRecord kv).Clean := by
  obtain ⟨htables, hmem⟩ := h
  have hinsert : ∀ key : Text, (s.memTable.insert kv.1 kv.2)[key]? ≠ some notFound := by
    intro key
    rw [OrderedMap.getElem?_insert_eq_ite]
    split_ifs
    · simpa using hv
    · exact hmem key
  unfold KVstore.recoverRecord
  dsimp only
  split_ifs
  · refine ⟨?_, by simp [flushMemTableToDisk]⟩
    intro t ht key
    rcases List.mem_append.mp ht with ht | ht
    · exact htables t ht key
    · rw [List.mem_singleton.mp ht, find_ofMemTable]
      exact hinsert key
  · exact ⟨htables, hinsert⟩

theorem clean_replay {logs : List (Text × Text)} (h : ∀ kv ∈ logs, IsRecord kv) :
    (replay logs).Clean := by
  induction logs using List.reverseRecOn with
  | nil => exact ⟨by simp [replay, empty, NoSentinel], by simp [replay, empty]⟩
  | append_singleton logs kv ih =>
    have hv : kv.2 ≠ notFound := ne_notFound_of_isWord (h kv (by simp)).2
    rw [replay, List.foldl_concat, ← replay]
    exact (ih fun kv' hkv' => h kv' (List.mem_append_left _ hkv')).recoverRecord hv

end KVstore

/-! ## The theorem -/

/-- **Crash recovery is exact.**  Start from an empty log file and insert pairs of words, with
restarts anywhere in between.  The records in the log file are the pairs inserted, the running
store is their replay on the empty store, a restart changes neither the store nor the file, and
`readKey` returns the value of the last insert of the key, or `NOT FOUND!` if there is none. -/
theorem recovery_exact (ops : List Op)
    (h : ∀ key value, Op.insertKeyValue key value ∈ ops → IsWord key ∧ IsWord value) :
    WAL.recover (System.run ops).file = records ops ∧
      (System.run ops).store = KVstore.replay (records ops) ∧
      (System.run ops).step .restart = System.run ops ∧
      ∀ key, (System.run ops).store.readKey key
        = ((records ops).reverse.lookup key).getD notFound := by
  have hrec : ∀ kv ∈ records ops, IsRecord kv := fun kv hkv => h kv.1 kv.2 (mem_records hkv)
  rw [run_eq_replay hrec]
  refine ⟨recover_logText hrec, rfl, ?_, ?_⟩
  · simp only [System.step, KVstore.ofFile, recover_logText hrec]
  · intro key
    rw [KVstore.readKey_eq_lookup (KVstore.clean_replay hrec).1, KVstore.lookup_replay]

/-- The first three inserts of `main`, a restart, and an overwrite of the first key. -/
theorem recovery_exact_main :
    let ops := [Op.insertKeyValue "apple".toList "red".toList,
      .insertKeyValue "banana".toList "yellow".toList,
      .insertKeyValue "cat".toList "animal".toList, .restart,
      .insertKeyValue "apple".toList "green".toList]
    (System.run ops).step .restart = System.run ops ∧
      (System.run ops).store.readKey "apple".toList = "green".toList ∧
      (System.run ops).store.readKey "mango".toList = notFound := by
  intro ops
  obtain ⟨-, -, hrestart, hread⟩ := recovery_exact ops (by
    intro key value hmem
    simp only [ops, List.mem_cons, Op.insertKeyValue.injEq, reduceCtorEq, List.not_mem_nil,
      false_or, or_false] at hmem
    rcases hmem with ⟨rfl, rfl⟩ | ⟨rfl, rfl⟩ | ⟨rfl, rfl⟩ | ⟨rfl, rfl⟩ <;> decide)
  exact ⟨hrestart, (hread _).trans (by decide), (hread _).trans (by decide)⟩

end LSMStore
