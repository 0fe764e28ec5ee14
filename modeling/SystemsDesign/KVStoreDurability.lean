/-
# Durability of the key-value store (`storage/KVstore.cpp`)

The classes of this file are those of the LSM write path, word for word, but for `recover`:
it puts every record of the log into the MemTable and flushes nothing.  The model shares
the definitions of `LSMStore.lean` and gives this `recover` its own.

`append` writes keys and values as they are, separated by a blank and a newline, and
`recover` reads words.  A key with a blank in it is therefore read back as something else
(`blank_in_key_is_lost`).  As long as all keys and values are words, a newly opened store
answers like the one that performed the inserts (`durable_of_words`), although the two keep
the same pairs in different places.
-/
import SystemsDesign.LSMRecovery

namespace KVStoreDurability

open WhitespaceTokens LSMStore

/-! ## Recovery without flushes -/

/-- The body of the loop in `KVstore::recover`. -/
def recoverRecord (s : KVstore) (kv : Text × Text) : KVstore :=
  { s with memTable := s.memTable.insert kv.1 kv.2 }

/-- The constructor `KVstore(wal_file)`: `recover` on the contents of the log file. -/
def ofFile (file : Text) : KVstore := (WAL.recover file).foldl recoverRecord KVstore.empty

/-- One operation: insert a pair, or open a new store on the same log file. -/
def step (s : System) : Op → System
  | .insertKeyValue key value =>
    ⟨WAL.append s.file key value, s.store.insertKeyValue key value⟩
  | .restart => ⟨s.file, ofFile s.file⟩

/-- A sequence of operations, from a store opened on an empty log file. -/
def run (ops : List Op) : System := ops.foldl step ⟨[], ofFile []⟩

/-- A store that maps every key to its last value in `logs`, and holds words only. -/
structure Stores (logs : List (Text × Text)) (s : KVstore) : Prop where
  lookup : ∀ key, s.lookup key = logs.reverse.lookup key
  clean : s.Clean

theorem stores_empty : Stores [] KVstore.empty where
  lookup key := by simp [KVstore.empty, KVstore.lookup]
  clean := ⟨by simp [KVstore.empty, KVstore.NoSentinel], by simp [KVstore.empty]⟩

namespace Stores

variable {logs : List (Text × Text)} {s : KVstore}

theorem insertKeyValue (h : Stores logs s) {kv : Text × Text} (hv : kv.2 ≠ notFound) :
    Stores (logs ++ [kv]) (s.insertKeyValue kv.1 kv.2) where
  lookup key := by
    rw [lookup_concat, ← h.lookup]
    exact KVstore.lookup_recoverRecord s kv key
  clean := h.clean.recoverRecord hv

theorem recoverRecord (h : Stores logs s) {kv : Text × Text} (hv : kv.2 ≠ notFound) :
    Stores (logs ++ [kv]) (recoverRecord s kv) where
  lookup key := by
    rw [lookup_concat, ← h.lookup]
    exact s.lookup_insert_memTable kv key
  clean := by
    refine ⟨h.clean.1, fun key => ?_⟩
    show (s.memTable.insert kv.1 kv.2)[key]? ≠ some notFound
    rw [OrderedMap.getElem?_insert_eq_ite]
    split_ifs
    · simpa using hv
    · exact h.clean.2 key

theorem readKey_eq {s' : KVstore} (h : Stores logs s) (h' : Stores logs s') (key : Text) :
    s.readKey key = s'.readKey key := by
  rw [KVstore.readKey_eq_lookup h.clean.1, KVstore.readKey_eq_lookup h'.clean.1, h.lookup,
    h'.lookup]

end Stores

theorem stores_ofFile {logs : List (Text × Text)} (h : ∀ kv ∈ logs, IsRecord kv) :
    Stores logs (ofFile (logText logs)) := by
  unfold ofFile
  rw [recover_logText h]
  induction logs using List.reverseRecOn with
  | nil => exact stores_empty
  | append_singleton logs kv ih =>
    have hv : kv.2 ≠ notFound := KVstore.ne_notFound_of_isWord (h kv (by simp)).2
    rw [List.foldl_concat]
    exact (ih fun kv' hkv' => h kv' (List.mem_append_left _ hkv')).recoverRecord hv

/-- **The state of a run**: the log has the lines of the inserts, and the store has their
records, whatever restarts happened on the way. -/
theorem run_stores {ops : List Op} (h : ∀ kv ∈ records ops, IsRecord kv) :
    (run ops).file = logText (records ops) ∧ Stores (records ops) (run ops).store := by
  induction ops using List.reverseRecOn with
  | nil => exact ⟨rfl, @stores_ofFile [] (by simp)⟩
  | append_singleton ops op ih =>
    have hops := forall_records_left h
    obtain ⟨hfile, hstore⟩ := ih hops
    rw [run, List.foldl_concat, ← run]
    cases op with
    | insertKeyValue key value =>
      have hmem : (key, value) ∈ records (ops ++ [.insertKeyValue key value]) := by
        rw [records_append]
        exact List.mem_append_right _ List.mem_cons_self
      rw [records_append]
      refine ⟨?_, hstore.insertKeyValue (KVstore.ne_notFound_of_isWord (h _ hmem).2)⟩
      show WAL.append (run ops).file key value = _
      rw [hfile, append_logText]
      rfl
    | restart =>
      rw [records_append, records, records, List.append_nil]
      refine ⟨hfile, ?_⟩
      show Stores (records ops) (ofFile (run ops).file)
      rw [hfile]
      exact stores_ofFile hops

/-! ## Durability -/

/-- A store newly opened on the log file answers every read like the running one. -/
def Durable (s : System) : Prop := ∀ key, (ofFile s.file).readKey key = s.store.readKey key

/-- **Durability for words.**  After every run whose inserts have words as keys and values,
a newly opened store answers all reads like the store that performed the inserts. -/
theorem durable_of_words (ops : List Op)
    (h : ∀ key value, Op.insertKeyValue key value ∈ ops → IsWord key ∧ IsWord value) :
    Durable (run ops) := by
  have hrec : ∀ kv ∈ records ops, IsRecord kv := fun kv hkv => h kv.1 kv.2 (mem_records hkv)
  obtain ⟨hfile, hstore⟩ := run_stores hrec
  intro key
  rw [hfile]
  exact (stores_ofFile hrec).readKey_eq hstore key

/-- Four inserts of `main`, one more than the MemTable holds before it is flushed. -/
theorem durable_of_words_main :
    Durable (run [.insertKeyValue "apple".toList "red".toList,
      .insertKeyValue "banana".toList "yellow".toList,
      .insertKeyValue "cat".toList "animal".toList,
      .insertKeyValue "dog".toList "pet".toList]) :=
  durable_of_words _ (by
    intro key value hmem
    simp only [List.mem_cons, Op.insertKeyValue.injEq, List.not_mem_nil, or_false] at hmem
    rcases hmem with ⟨rfl, rfl⟩ | ⟨rfl, rfl⟩ | ⟨rfl, rfl⟩ | ⟨rfl, rfl⟩ <;> decide)

/-- The key `a b` is read back as the key `a` with the value `b`. -/
theorem blank_in_key_is_lost :
    ¬ Durable (run [.insertKeyValue "a b".toList "c".toList]) := by
  intro h
  have hread := h "a b".toList
  revert hread
  decide +kernel

end KVStoreDurability
