/-
# Recovery from the write-ahead log, whole and cut

The log of a run is the concatenation of the lines of its calls, numbered from `1`
(`run_eq`).  Recovery reads the lines back one by one, whatever follows them
(`recoverFrom_logText`).  Two results come from this.

* With nothing behind the lines, opening the store again gives the store just before
  (`recovery_eq_live`).
* With a part of a line behind them, as a crash inside `append` leaves it, the part is
  either ignored or taken for one more call, with a key or value that was cut or with the
  value of an earlier record (`recoverFrom_torn`).  So a cut log need not give a prefix of
  the calls (`torn_key_is_stored`); it gives a prefix and at most one torn call
  (`cut_prefix_or_torn`).
-/
import SystemsDesign.WALRecovery

namespace WALRecovery

open WhitespaceTokens

/-! ## The log of a sequence of calls -/

namespace Update

/-- The record that a call logs under the number `n`. -/
def record (n : ℕ) : Update → LogRecord
  | .put key value => ⟨n, .put, key, value⟩
  | .remove key => ⟨n, .deleteOp, key, []⟩

/-- What the variable `value` of `recover` holds after the record of a call. -/
def carry (v : Text) : Update → Text
  | .put _ value => value
  | .remove _ => v

/-- The record that is recovered for a call, when `value` held `v` before. -/
def recovered (n : ℕ) (v : Text) (u : Update) : LogRecord :=
  { u.record n with value := u.carry v }

/-- The effect of a call on the memtable. -/
def apply (m : Memtable) : Update → Memtable
  | .put key value => m.insert key value
  | .remove key => m.erase key

end Update

/-- The records of a sequence of calls, numbered from `n`. -/
def records : ℕ → List Update → List LogRecord
  | _, [] => []
  | n, u :: us => u.record n :: records (n + 1) us

/-- The log of a sequence of calls, numbered from `n`. -/
def logText (n : ℕ) (us : List Update) : Text := (records n us).flatMap LogRecord.line

/-- The records that are recovered for a sequence of calls. -/
def recoveredAll : ℕ → Text → List Update → List LogRecord
  | _, _, [] => []
  | n, v, u :: us => u.recovered n v :: recoveredAll (n + 1) (u.carry v) us

/-- The memtable after a sequence of calls. -/
def memtableOf (us : List Update) : Memtable := us.foldl Update.apply ∅

/-- What the variable `value` of `recover` holds after a sequence of calls. -/
def lastValue (us : List Update) : Text := us.foldl Update.carry []

/-! ## Reading the lines back -/

theorem readRecord_cons_space {c : Char} (hc : isSpace c = true) (v s : Text) :
    WAL.readRecord v (c :: s) = WAL.readRecord v s := by
  unfold WAL.readRecord WAL.readHeader
  rw [readInt_cons_space hc]

theorem recoverFrom_cons_space {c : Char} (hc : isSpace c = true) (v s : Text) :
    WAL.recoverFrom v (c :: s) = WAL.recoverFrom v s :=
  readChain_congr (readRecord_cons_space hc v s)

theorem recoverFrom_nil (v : Text) : WAL.recoverFrom v [] = [] := readChain_of_none rfl

theorem isWord_word (t : RecordType) : IsWord t.word := by
  cases t <;> decide

theorem readHeader_eq (n : ℕ) (t : RecordType) (s : Text) :
    WAL.readHeader (decimal n ++ ' ' :: (t.word ++ ' ' :: s))
      = (readWord s).map fun p => (((n : ℤ), t.word, p.1), p.2) := by
  unfold WAL.readHeader
  rw [readInt_decimal_append n (by decide)]
  simp only [Option.bind_some, readWord_cons_space isSpace_blank,
    readWord_append (isWord_word t) isSpace_blank]

theorem readHeader_append (n : ℕ) (t : RecordType) {key : Text} (hk : IsWord key) (s : Text) :
    WAL.readHeader (decimal n ++ ' ' :: (t.word ++ ' ' :: (key ++ ' ' :: s)))
      = some (((n : ℤ), t.word, key), ' ' :: s) := by
  rw [readHeader_eq, readWord_append hk isSpace_blank, Option.map_some]

/-- A line is read back as its record, and the loop goes on behind it. -/
theorem recoverFrom_line {u : Update} (hu : u.Words) (n : ℕ) (v s : Text) :
    WAL.recoverFrom v ((u.record n).line ++ s)
      = u.recovered n v :: WAL.recoverFrom (u.carry v) s := by
  cases u with
  | put key value =>
    have hread : WAL.readRecord v ((Update.record n (.put key value)).line ++ s)
        = some (Update.recovered n v (.put key value), '\n' :: s) := by
      have hline : (Update.record n (.put key value)).line ++ s
          = decimal n ++ ' ' :: (RecordType.put.word ++ ' ' :: (key ++ ' ' ::
              (value ++ '\n' :: s))) := by
        simp [LogRecord.line, Update.record]
      rw [hline, WAL.readRecord, readHeader_append n .put hu.1, Option.map_some]
      simp only [if_true, readWord_cons_space isSpace_blank, readWord_append hu.2 isSpace_newline]
      rfl
    unfold WAL.recoverFrom
    rw [readChain_of_some hread]
    exact congrArg _ (recoverFrom_cons_space isSpace_newline _ s)
  | remove key =>
    have hread : WAL.readRecord v ((Update.record n (.remove key)).line ++ s)
        = some (Update.recovered n v (.remove key), ' ' :: '\n' :: s) := by
      have hline : (Update.record n (.remove key)).line ++ s
          = decimal n ++ ' ' :: (RecordType.deleteOp.word ++ ' ' :: (key ++ ' ' ::
              ('\n' :: s))) := by
        simp [LogRecord.line, Update.record]
      rw [hline, WAL.readRecord, readHeader_append n .deleteOp hu, Option.map_some]
      dsimp only
      rw [if_neg (by decide)]
      rfl
    unfold WAL.recoverFrom
    rw [readChain_of_some hread]
    refine congrArg _ ((recoverFrom_cons_space isSpace_blank _ _).trans ?_)
    exact recoverFrom_cons_space isSpace_newline _ s

/-- **The lines of a sequence of calls are read back one by one**, whatever follows them. -/
theorem recoverFrom_logText {us : List Update} (hus : ∀ u ∈ us, u.Words) (n : ℕ) (v s : Text) :
    WAL.recoverFrom v (logText n us ++ s)
      = recoveredAll n v us ++ WAL.recoverFrom (us.foldl Update.carry v) s := by
  induction us generalizing n v with
  | nil => rfl
  | cons u us ih =>
    have hcons : logText n (u :: us) ++ s = (u.record n).line ++ (logText (n + 1) us ++ s) := by
      simp [logText, records]
    rw [hcons, recoverFrom_line (hus u List.mem_cons_self),
      ih (fun w hw => hus w (List.mem_cons_of_mem _ hw))]
    rfl

/-! ## Replaying what was read -/

theorem replayRecord_recovered (m : Memtable) (n : ℕ) (v : Text) (u : Update) :
    KVstore.replayRecord m (u.recovered n v) = u.apply m := by
  cases u <;> rfl

theorem foldl_replayRecord (us : List Update) (m : Memtable) (n : ℕ) (v : Text) :
    (recoveredAll n v us).foldl KVstore.replayRecord m = us.foldl Update.apply m := by
  induction us generalizing m n v with
  | nil => rfl
  | cons u us ih =>
    rw [recoveredAll, List.foldl_cons, List.foldl_cons, replayRecord_recovered, ih]

theorem foldl_nextLsn (us : List Update) (n : ℕ) (v : Text) :
    (recoveredAll n v us).foldl (fun next r => max next (r.lsn + 1)) (n : ℤ)
      = ((n + us.length : ℕ) : ℤ) := by
  induction us generalizing n v with
  | nil => rfl
  | cons u us ih =>
    have hlsn : (u.recovered n v).lsn = (n : ℤ) := by cases u <;> rfl
    have hmax : max (n : ℤ) ((n : ℤ) + 1) = ((n + 1 : ℕ) : ℤ) := by
      push_cast
      exact max_eq_right (by omega)
    rw [recoveredAll, List.foldl_cons, hlsn, hmax, ih, List.length_cons]
    congr 1
    omega

theorem memtable_ofFile {us : List Update} (hus : ∀ u ∈ us, u.Words) (s : Text) :
    (KVstore.ofFile (logText 1 us ++ s)).memtable
      = (WAL.recoverFrom (lastValue us) s).foldl KVstore.replayRecord (memtableOf us) := by
  show (WAL.recoverFrom [] (logText 1 us ++ s)).foldl KVstore.replayRecord ∅ = _
  rw [recoverFrom_logText hus, List.foldl_append, foldl_replayRecord]
  rfl

theorem ofFile_logText {us : List Update} (hus : ∀ u ∈ us, u.Words) :
    KVstore.ofFile (logText 1 us) = ⟨memtableOf us, ⟨((1 + us.length : ℕ) : ℤ)⟩⟩ := by
  have hrec : WAL.recoverFrom [] (logText 1 us) = recoveredAll 1 [] us := by
    have h := recoverFrom_logText hus 1 [] []
    rwa [List.append_nil, recoverFrom_nil, List.append_nil] at h
  show (⟨(WAL.recoverFrom [] (logText 1 us)).foldl KVstore.replayRecord ∅,
    ⟨(WAL.recoverFrom [] (logText 1 us)).foldl (fun next r => max next (r.lsn + 1)) 1⟩⟩ : KVstore)
      = _
  rw [hrec, foldl_replayRecord]
  have hlsn := foldl_nextLsn us 1 []
  rw [Nat.cast_one] at hlsn
  rw [hlsn]
  rfl

/-! ## Runs -/

/-- The calls of a run, without its restarts. -/
def updates (ops : List Op) : List Update :=
  ops.filterMap fun
    | .call u => some u
    | .restart => none

theorem records_concat (us : List Update) (u : Update) (n : ℕ) :
    records n (us ++ [u]) = records n us ++ [u.record (n + us.length)] := by
  induction us generalizing n with
  | nil => rfl
  | cons w us ih =>
    rw [List.cons_append, records, records, ih, List.cons_append, List.length_cons,
      show n + 1 + us.length = n + (us.length + 1) by omega]

/-- A call on a store that has logged `us` appends its line and applies itself. -/
theorem step_call (us : List Update) (u : Update) :
    System.step ⟨logText 1 us, ⟨memtableOf us, ⟨((1 + us.length : ℕ) : ℤ)⟩⟩⟩ (.call u)
      = ⟨logText 1 (us ++ [u]),
          ⟨memtableOf (us ++ [u]), ⟨((1 + (us ++ [u]).length : ℕ) : ℤ)⟩⟩⟩ := by
  have htext : logText 1 (us ++ [u])
      = logText 1 us ++ (u.record (1 + us.length)).line := by
    rw [logText, records_concat, List.flatMap_append, List.flatMap_singleton]
    rfl
  have hmem : memtableOf (us ++ [u]) = u.apply (memtableOf us) := List.foldl_concat ..
  have hlsn : ((1 + (us ++ [u]).length : ℕ) : ℤ) = ((1 + us.length : ℕ) : ℤ) + 1 := by
    rw [List.length_append, List.length_singleton]
    push_cast
    ring
  rw [htext, hmem, hlsn]
  cases u <;> rfl

/-- **The state of a run**: the log has the lines of the calls, numbered from `1`, and the
store is what the calls make of the empty store, whatever restarts happened on the way. -/
theorem run_eq {ops : List Op} (h : ∀ u ∈ updates ops, u.Words) :
    System.run ops = ⟨logText 1 (updates ops),
      ⟨memtableOf (updates ops), ⟨((1 + (updates ops).length : ℕ) : ℤ)⟩⟩⟩ := by
  induction ops using List.reverseRecOn with
  | nil =>
    have hstart := @ofFile_logText [] (by simp)
    rw [System.run, List.foldl_nil, System.start]
    exact congrArg _ hstart
  | append_singleton ops op ih =>
    have hops : ∀ u ∈ updates ops, u.Words := by
      intro u hu
      apply h u
      rw [updates, List.filterMap_append]
      exact List.mem_append_left _ hu
    rw [System.run, List.foldl_concat, ← System.run, ih hops]
    cases op with
    | call u =>
      have hcalls : updates (ops ++ [.call u]) = updates ops ++ [u] := by simp [updates]
      rw [hcalls]
      exact step_call (updates ops) u
    | restart =>
      have hcalls : updates (ops ++ [.restart]) = updates ops := by simp [updates]
      rw [hcalls, System.step, ofFile_logText hops]

theorem lsn_records (us : List Update) (n i : ℕ) (r : LogRecord)
    (h : (records n us)[i]? = some r) : r.lsn = ((n + i : ℕ) : ℤ) := by
  induction us generalizing n i with
  | nil => simp [records] at h
  | cons u us ih =>
    rw [records] at h
    cases i with
    | zero =>
      obtain rfl : u.record n = r := by simpa using h
      cases u <;> rfl
    | succ i =>
      rw [List.getElem?_cons_succ] at h
      rw [ih (n + 1) i h]
      congr 1
      omega

/-- **Recovery equals the live store.**  Start from an empty log file, with calls whose keys
and values are words and restarts anywhere.  A restart leaves the memtable, the next number
and the file as they are; the file has the lines of the calls in order, and the `n`-th of
them carries the number `n`, counting from one. -/
theorem recovery_eq_live (ops : List Op) (h : ∀ u, Op.call u ∈ ops → u.Words) :
    ((System.run ops).step .restart).store.memtable = (System.run ops).store.memtable ∧
      (System.run ops).step .restart = System.run ops ∧
      (System.run ops).file = (records 1 (updates ops)).flatMap LogRecord.line ∧
      ∀ (i : ℕ) (r : LogRecord), (records 1 (updates ops))[i]? = some r → r.lsn = (i : ℤ) + 1 := by
  have hwords : ∀ u ∈ updates ops, u.Words := by
    intro u hu
    obtain ⟨op, hop, hsome⟩ := List.mem_filterMap.mp hu
    cases op with
    | call w =>
      obtain rfl : w = u := by simpa using hsome
      exact h w hop
    | restart => simp at hsome
  have hrestart : (System.run ops).step .restart = System.run ops := by
    rw [run_eq hwords, System.step, ofFile_logText hwords]
  refine ⟨by rw [hrestart], hrestart, by rw [run_eq hwords]; rfl, fun i r hr => ?_⟩
  rw [lsn_records _ _ _ _ hr]
  push_cast
  ring

/-- The calls of `main`: three puts and a delete, with a restart in between. -/
theorem recovery_eq_live_main :
    let ops := [Op.call (.put "apple".toList "red".toList),
      .call (.put "banana".toList "yellow".toList), .restart,
      .call (.put "cat".toList "animal".toList), .call (.remove "banana".toList)]
    (System.run ops).step .restart = System.run ops :=
  (recovery_eq_live _ (by
    intro u hu
    simp only [List.mem_cons, Op.call.injEq, reduceCtorEq, List.not_mem_nil, false_or,
      or_false] at hu
    rcases hu with rfl | rfl | rfl | rfl <;> decide)).2.1

/-! ## A log that was cut -/

/-- What the line of a call may be taken for when it is cut, where `v` is the value of the
last `put` before it. -/
inductive Torn (v : Text) : Update → Update → Prop where
  /-- The cut is inside or right behind the key: the value before is stored under what is left
  of the key. -/
  | key (key value cut : Text) : cut ≠ [] → cut <+: key → Torn v (.put key value) (.put cut v)
  /-- The cut is inside or right behind the value: what is left of the value is stored. -/
  | value (key value cut : Text) : cut ≠ [] → cut <+: value →
      Torn v (.put key value) (.put key cut)
  /-- The cut is inside or behind the key: what is left of the key is removed. -/
  | removed (key cut : Text) : cut ≠ [] → cut <+: key → Torn v (.remove key) (.remove cut)

theorem readHeader_cut {n : ℕ} {t : RecordType} {rest s : Text}
    (hs : s <+: decimal n ++ ' ' :: (t.word ++ ' ' :: rest)) :
    WAL.readHeader s = none ∨
      ∃ s', s = decimal n ++ ' ' :: (t.word ++ ' ' :: s') ∧ s' <+: rest := by
  rcases prefix_append_cons hs with hlsn | ⟨s₁, rfl, hs₁⟩
  · left
    rcases readInt_of_prefix hlsn with hnone | ⟨z, hz⟩
    · rw [WAL.readHeader, hnone]
      rfl
    · rw [WAL.readHeader, hz]
      rfl
  · rcases prefix_append_cons hs₁ with hword | ⟨s₂, rfl, hs₂⟩
    · left
      unfold WAL.readHeader
      rw [readInt_decimal_append n (by decide), Option.bind_some]
      dsimp only
      rw [readWord_cons_space isSpace_blank]
      by_cases hnil : s₁ = []
      · rw [hnil]
        rfl
      · rw [readWord_of_isWord ((isWord_word t).initial hword hnil)]
        rfl
    · exact Or.inr ⟨s₂, rfl, hs₂⟩

theorem readHeader_cutKey (n : ℕ) (t : RecordType) {key : Text} (hk : IsWord key) :
    WAL.readHeader (decimal n ++ ' ' :: (t.word ++ ' ' :: key))
      = some (((n : ℤ), t.word, key), []) := by
  rw [readHeader_eq, readWord_of_isWord hk, Option.map_some]

theorem recoverFrom_of_space {s : Text} (hs : ∀ c ∈ s, isSpace c = true) (v : Text) :
    WAL.recoverFrom v s = [] := by
  induction s with
  | nil => exact recoverFrom_nil v
  | cons c s ih =>
    rw [recoverFrom_cons_space (hs c List.mem_cons_self)]
    exact ih fun d hd => hs d (List.mem_cons_of_mem _ hd)

/-- A record behind which only whitespace is left is the last one. -/
theorem recoverFrom_last {v s : Text} {r : LogRecord} (rest : Text)
    (h : WAL.readRecord v s = some (r, rest)) (hrest : ∀ c ∈ rest, isSpace c = true) :
    WAL.recoverFrom v s = [r] := by
  unfold WAL.recoverFrom
  rw [readChain_of_some h]
  exact congrArg _ (recoverFrom_of_space hrest r.value)

/-- A line that was cut right behind the operation word is not recovered. -/
theorem recoverFrom_cutOp (n : ℕ) (op : RecordType) (v : Text) :
    WAL.recoverFrom v (decimal n ++ ' ' :: (op.word ++ ' ' :: [])) = [] := by
  apply readChain_of_none
  rw [WAL.readRecord, readHeader_eq]
  rfl

/-- A `put` line that was cut behind the operation word. -/
theorem recoverFrom_tornPut {key value : Text} (hu : (Update.put key value).Words) (n : ℕ)
    (v : Text) {s : Text} (hs : s <+: key ++ ' ' :: (value ++ ['\n'])) :
    WAL.recoverFrom v (decimal n ++ ' ' :: (RecordType.put.word ++ ' ' :: s)) = [] ∨
      ∃ u, Torn v (.put key value) u ∧
        WAL.recoverFrom v (decimal n ++ ' ' :: (RecordType.put.word ++ ' ' :: s))
          = [u.recovered n v] := by
  rcases prefix_append_cons hs with hkey | ⟨s, rfl, hs'⟩
  · by_cases hnil : s = []
    · -- nothing of the key is left
      subst hnil
      exact Or.inl (recoverFrom_cutOp n .put v)
    · refine Or.inr ⟨.put s v, .key key value s hnil hkey, recoverFrom_last [] ?_ (by simp)⟩
      rw [WAL.readRecord, readHeader_cutKey n .put (hu.1.initial hkey hnil)]
      rfl
  · have hread : ∀ {value' rest : Text}, readWord s = some (value', rest) →
        WAL.readRecord v (decimal n ++ ' ' :: (RecordType.put.word ++ ' ' :: (key ++ ' ' :: s)))
          = some (Update.recovered n v (.put key value'), rest) := by
      intro value' rest hword
      rw [WAL.readRecord, readHeader_append n .put hu.1, Option.map_some]
      simp only [if_true, readWord_cons_space isSpace_blank, hword]
      rfl
    rcases prefix_append_cons hs' with hvalue | ⟨s', rfl, hend⟩
    · by_cases hnil : s = []
      · -- nothing of the value is left
        refine Or.inr ⟨.put key v, .key key value key hu.1.1 List.prefix_rfl,
          recoverFrom_last [] ?_ (by simp)⟩
        rw [WAL.readRecord, readHeader_append n .put hu.1, hnil]
        rfl
      · exact Or.inr ⟨.put key s, .value key value s hnil hvalue,
          recoverFrom_last [] (hread (readWord_of_isWord (hu.2.initial hvalue hnil))) (by simp)⟩
    · obtain rfl := List.prefix_nil.mp hend
      exact Or.inr ⟨.put key value, .value key value value hu.2.1 List.prefix_rfl,
        recoverFrom_last ['\n'] (hread (readWord_append hu.2 isSpace_newline []))
          (by simp [isSpace_newline])⟩

/-- A `remove` line that was cut behind the operation word. -/
theorem recoverFrom_tornRemove {key : Text} (hu : (Update.remove key).Words) (n : ℕ)
    (v : Text) {s : Text} (hs : s <+: key ++ ' ' :: ['\n']) :
    WAL.recoverFrom v (decimal n ++ ' ' :: (RecordType.deleteOp.word ++ ' ' :: s)) = [] ∨
      ∃ u, Torn v (.remove key) u ∧
        WAL.recoverFrom v (decimal n ++ ' ' :: (RecordType.deleteOp.word ++ ' ' :: s))
          = [u.recovered n v] := by
  have hop : ¬ RecordType.deleteOp.word = RecordType.put.word := by decide
  rcases prefix_append_cons hs with hkey | ⟨s, rfl, hs'⟩
  · by_cases hnil : s = []
    · subst hnil
      exact Or.inl (recoverFrom_cutOp n .deleteOp v)
    · refine Or.inr ⟨.remove s, .removed key s hnil hkey, recoverFrom_last [] ?_ (by simp)⟩
      rw [WAL.readRecord, readHeader_cutKey n .deleteOp (hu.initial hkey hnil), Option.map_some]
      dsimp only
      rw [if_neg hop]
      rfl
  · refine Or.inr ⟨.remove key, .removed key key hu.1 List.prefix_rfl,
      recoverFrom_last (' ' :: s) ?_ ?_⟩
    · rw [WAL.readRecord, readHeader_append n .deleteOp hu, Option.map_some]
      dsimp only
      rw [if_neg hop]
      rfl
    · intro c hc
      rcases List.mem_cons.mp hc with rfl | hc
      · exact isSpace_blank
      · rw [List.mem_singleton.mp (hs'.subset hc)]
        exact isSpace_newline

/-- **A line that was cut** is ignored or taken for one torn call. -/
theorem recoverFrom_torn {u : Update} (hu : u.Words) (n : ℕ) (v : Text) {s : Text}
    (hs : s <+: (u.record n).line) :
    WAL.recoverFrom v s = [] ∨ ∃ u', Torn v u u' ∧ WAL.recoverFrom v s = [u'.recovered n v] := by
  have hheader : WAL.readHeader s = none → WAL.recoverFrom v s = [] := by
    intro hnone
    apply readChain_of_none
    rw [WAL.readRecord, hnone]
    rfl
  cases u with
  | put key value =>
    rcases readHeader_cut hs with hnone | ⟨s, rfl, hs'⟩
    · exact Or.inl (hheader hnone)
    · exact recoverFrom_tornPut hu n v hs'
  | remove key =>
    rcases readHeader_cut hs with hnone | ⟨s, rfl, hs'⟩
    · exact Or.inl (hheader hnone)
    · exact recoverFrom_tornRemove hu n v hs'

/-- A cut falls behind some line, or inside the next one. -/
theorem take_logText (us : List Update) (n k : ℕ) :
    ∃ j s, (logText n us).take k = logText n (us.take j) ++ s ∧
      (s = [] ∨ ∃ u, us[j]? = some u ∧ s <+: (u.record (n + j)).line) := by
  induction us generalizing n k with
  | nil => exact ⟨0, [], by simp [logText, records], Or.inl rfl⟩
  | cons u us ih =>
    have hcons : ∀ ws : List Update,
        logText n (u :: ws) = (u.record n).line ++ logText (n + 1) ws := by
      intro ws
      rw [logText, records, List.flatMap_cons]
      rfl
    by_cases hk : k ≤ (u.record n).line.length
    · refine ⟨0, (u.record n).line.take k, ?_, Or.inr ⟨u, rfl, List.take_prefix _ _⟩⟩
      rw [hcons, List.take_append_of_le_length hk]
      rfl
    · obtain ⟨j, s, htake, hs⟩ := ih (n + 1) (k - (u.record n).line.length)
      refine ⟨j + 1, s, ?_, ?_⟩
      · rw [hcons, List.take_append, List.take_of_length_le (by omega), htake,
          List.take_succ_cons, hcons, List.append_assoc]
      · rcases hs with hs | ⟨w, hw, hs⟩
        · exact Or.inl hs
        · refine Or.inr ⟨w, by rw [List.getElem?_cons_succ]; exact hw, ?_⟩
          rwa [show n + 1 + j = n + (j + 1) by omega] at hs

/-- A sequence of put and remove calls on a store opened on an empty log file. -/
def calls (us : List Update) : System := System.run (us.map .call)

theorem memtable_calls (us : List Update) : (calls us).store.memtable = memtableOf us := by
  induction us using List.reverseRecOn with
  | nil =>
    have hstart := @ofFile_logText [] (by simp)
    exact congrArg KVstore.memtable hstart
  | append_singleton us u ih =>
    rw [memtableOf, List.foldl_concat, ← memtableOf, ← ih, calls, calls, System.run,
      List.map_append, List.map_singleton, List.foldl_concat]
    cases u <;> rfl

theorem file_calls {us : List Update} (h : ∀ u ∈ us, u.Words) :
    (calls us).file = logText 1 us := by
  have hcalls : updates (us.map .call) = us := by
    simp [updates, List.filterMap_map]
  have hrun := @run_eq (us.map .call) (by rwa [hcalls])
  rw [calls, hrun, hcalls]

/-- **A cut log gives a prefix of the calls and at most one torn call.**  Cut the log of calls
whose keys and values are words anywhere.  The store opened on it has the memtable of a prefix
of the calls, or of a prefix and what is left of the next call. -/
theorem cut_prefix_or_torn (us : List Update) (h : ∀ u ∈ us, u.Words) (k : ℕ) :
    ∃ j, (KVstore.ofFile ((calls us).file.take k)).memtable
        = (calls (us.take j)).store.memtable ∨
      ∃ u u', us[j]? = some u ∧ Torn (lastValue (us.take j)) u u' ∧
        (KVstore.ofFile ((calls us).file.take k)).memtable
          = (calls (us.take j ++ [u'])).store.memtable := by
  rw [file_calls h]
  obtain ⟨j, s, htake, hs⟩ := take_logText us 1 k
  have hopen : (KVstore.ofFile ((logText 1 us).take k)).memtable
      = (WAL.recoverFrom (lastValue (us.take j)) s).foldl KVstore.replayRecord
          (memtableOf (us.take j)) := by
    rw [htake]
    exact memtable_ofFile (fun u hu => h u (List.mem_of_mem_take hu)) s
  refine ⟨j, ?_⟩
  simp only [memtable_calls, hopen]
  rcases hs with rfl | ⟨u, hu, hs⟩
  · left
    rw [recoverFrom_nil, List.foldl_nil]
  · have hwords : u.Words := h u (List.mem_of_getElem? hu)
    rcases recoverFrom_torn hwords (1 + j) (lastValue (us.take j)) hs with hnil | ⟨u', htorn, hlast⟩
    · left
      rw [hnil, List.foldl_nil]
    · refine Or.inr ⟨u, u', hu, htorn, ?_⟩
      rw [hlast, List.foldl_cons, List.foldl_nil, replayRecord_recovered, memtableOf, memtableOf,
        List.foldl_concat]

/-- The two calls of the crash example, the second line cut inside its key. -/
def tornCalls : List Update :=
  [.put "apple".toList "red".toList, .put "banana".toList "yellow".toList]

/-- The log of the two calls, cut behind `2 PUT bana`. -/
theorem cut_prefix_or_torn_main :
    ∃ j, (KVstore.ofFile ((calls tornCalls).file.take 26)).memtable
        = (calls (tornCalls.take j)).store.memtable ∨
      ∃ u u', tornCalls[j]? = some u ∧ Torn (lastValue (tornCalls.take j)) u u' ∧
        (KVstore.ofFile ((calls tornCalls).file.take 26)).memtable
          = (calls (tornCalls.take j ++ [u'])).store.memtable :=
  cut_prefix_or_torn tornCalls (by decide) 26

/-- The cut log stores the value of `apple` under the key `bana`, which no prefix of the calls
does. -/
theorem torn_key_is_stored :
    ¬ ∃ j, (KVstore.ofFile ((calls tornCalls).file.take 26)).memtable
        = (calls (tornCalls.take j)).store.memtable := by
  rintro ⟨j, hj⟩
  have hcut : (KVstore.ofFile ((calls tornCalls).file.take 26)).memtable.lookup "bana".toList
      = some "red".toList := by
    decide +kernel
  rw [hj, memtable_calls] at hcut
  -- the prefixes of a list of two are three
  have hinits : ∀ us ∈ tornCalls.inits, (memtableOf us).lookup "bana".toList = none := by
    decide +kernel
  rw [hinits _ ((List.mem_inits _ _).mpr (List.take_prefix j tornCalls))] at hcut
  cases hcut

end WALRecovery
