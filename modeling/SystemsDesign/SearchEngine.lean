/-
# An inverted index built by several workers

Model of `multi-stage-pipeline/SearchEngineIndexing.cpp`.  `add_document` queues a document; a
worker takes it, cuts its text into words without the mutex, and enters its id under every word of
it under the mutex.  `stop` lets the workers return when the queue is empty, and `build_index`
waits for that.

The critical sections interleave as a schedule says.  What the workers print is left out.

Result: after `build_index` has returned, `serach` lists exactly the documents that have the term
as a maximal run of alphanumeric characters.
-/
import SystemsDesign.EventLog
import SystemsDesign.MaximalRuns
import SystemsDesign.WhitespaceTokens
import SystemsDesign.WorkerPool

namespace SearchEngines

open EventLog MaximalRuns TransitionSystem WorkerPool
open WhitespaceTokens (Text)

/-! ## Cutting a text into words -/

/-- `isalnum` on ASCII. -/
def isalnum (c : Char) : Bool := c.isAlphanum

/-- The body of the loop of `tokenize`, on `words` and `word`. -/
def readChar (acc : List Text × Text) (c : Char) : List Text × Text :=
  if isalnum c then (acc.1, acc.2 ++ [c])
  else if acc.2 ≠ [] then (acc.1 ++ [acc.2], [])
  else acc

/-- `tokenize`. -/
def tokenize (text : Text) : List Text :=
  let acc := text.foldl readChar ([], [])
  if acc.2 ≠ [] then acc.1 ++ [acc.2] else acc.1

theorem append_closed (words : List Text) (word : Text) :
    (if word ≠ [] then words ++ [word] else words) = words ++ closed word := by
  unfold closed
  by_cases hword : word = []
  · rw [if_neg (not_not.mpr hword), if_pos hword, List.append_nil]
  · rw [if_pos hword, if_neg hword]

/-- The loop collects the runs, with the open word at the front. -/
theorem foldl_readChar (words : List Text) (word text : Text) :
    let acc := text.foldl readChar (words, word)
    acc.1 ++ closed acc.2 = words ++ runs isalnum word text := by
  induction text generalizing words word with
  | nil => rfl
  | cons c text ih =>
    rw [List.foldl_cons, runs]
    unfold readChar
    by_cases hc : isalnum c = true
    · rw [if_pos hc, if_pos hc]
      exact ih words (word ++ [c])
    · rw [if_neg hc, if_neg hc, ← List.append_assoc, ← append_closed]
      dsimp only
      split_ifs with hword
      · exact ih (words ++ [word]) []
      · rw [not_not.mp hword]
        exact ih words []

/-- **`tokenize` returns exactly the maximal alphanumeric runs.** -/
theorem mem_tokenize {text term : Text} : term ∈ tokenize text ↔ IsRun isalnum text term := by
  have hruns := foldl_readChar [] [] text
  dsimp only at hruns
  unfold tokenize
  dsimp only
  rw [append_closed, hruns, List.nil_append, mem_runs (by simp), List.nil_append]

example : tokenize "a1, b--c".toList = ["a1".toList, "b".toList, "c".toList] := by decide

/-! ## The engine -/

/-- The data members of `SearchEngine`, with the workers: the queue and the flag `done` are those
of the pool, and a busy worker has a document. -/
structure SearchEngine where
  pool : Pool (ℤ × Text) (ℤ × Text)
  invertedIndex : Text → Option (Finset ℤ)

namespace SearchEngine

/-- The engine in which `build_index(numThreads)` has started its workers. -/
def start (numThreads : ℕ) : SearchEngine where
  pool := .start numThreads
  invertedIndex := fun _ => none

/-- `inverted_index[term].insert(id)`. -/
def insert (index : Text → Option (Finset ℤ)) (id : ℤ) (term : Text) : Text → Option (Finset ℤ) :=
  Function.update index term (some (Insert.insert id ((index term).getD ∅)))

/-- The second critical section of a worker: the words of its document are entered. -/
def enter (e : SearchEngine) (doc : ℤ × Text) : SearchEngine :=
  { e with
    invertedIndex := (tokenize doc.2).foldl (fun index => insert index doc.1) e.invertedIndex }

/-- `serach`. -/
def serach (e : SearchEngine) (term : Text) : List ℤ :=
  match e.invertedIndex term with
  | none => []
  | some ids => ids.sort (· ≤ ·)

end SearchEngine

/-- The calls of clients, and the turn of worker `w`. -/
inductive Act where
  | addDocument (id : ℤ) (text : Text)
  | stop
  | work (w : ℕ)
  deriving DecidableEq

/-- One critical section. -/
def step (e : SearchEngine) : Act → Option SearchEngine
  | .addDocument id text => some { e with pool := e.pool.push (id, text) }
  | .stop => some { e with pool := e.pool.halt }
  | .work w =>
    match e.pool.workers[w]? with
    | some .waiting => (e.pool.fetch w id).map fun pool => { e with pool }
    -- the words are collected outside the mutex, from the worker's own copy of the text
    | some (.busy doc) => some { e.enter doc with pool := e.pool.goto w .waiting }
    | _ => none

/-- Documents are added before `stop`. -/
def AddsBeforeStop (e : SearchEngine) : Act → Prop
  | .addDocument _ _ => e.pool.stop = false
  | _ => True

instance (e : SearchEngine) (a : Act) : Decidable (AddsBeforeStop e a) := by
  cases a <;> unfold AddsBeforeStop <;> infer_instance

/-- What a critical section can be. -/
inductive Step (e : SearchEngine) : Act → SearchEngine → Prop where
  | addDocument (id : ℤ) (text : Text) :
      Step e (.addDocument id text) { e with pool := e.pool.push (id, text) }
  | stop : Step e .stop { e with pool := e.pool.halt }
  | take {w : ℕ} {doc : ℤ × Text} (hw : e.pool.workers[w]? = some .waiting)
      (hdoc : e.pool.queue[0]? = some doc) :
      Step e (.work w) { e with pool := e.pool.take 0 w (.busy doc) }
  | leave {w : ℕ} (hstop : e.pool.stop = true) (hempty : e.pool.queue = [])
      (hw : e.pool.workers[w]? = some .waiting) :
      Step e (.work w) { e with pool := e.pool.goto w .returned }
  | enter {w : ℕ} {doc : ℤ × Text} (hw : e.pool.workers[w]? = some (.busy doc)) :
      Step e (.work w) { e.enter doc with pool := e.pool.goto w .waiting }

/-- Every enabled critical section is one of these. -/
theorem step_spec {e e' : SearchEngine} {a : Act} (h : step e a = some e') : Step e a e' := by
  cases a with
  | addDocument id text =>
    obtain rfl := Option.some.inj h
    exact .addDocument id text
  | stop =>
    obtain rfl := Option.some.inj h
    exact .stop
  | work w =>
    simp only [step] at h
    split at h
    next hw =>
      obtain ⟨pool, hpool, rfl⟩ := Option.map_eq_some_iff.mp h
      rcases Pool.fetch_spec hpool with ⟨hstop, hempty, rfl⟩ | ⟨doc, hdoc, rfl⟩
      · exact .leave hstop hempty hw
      · exact .take hw hdoc
    next doc hw =>
      obtain rfl := Option.some.inj h
      exact .enter hw
    next => cases h

/-! ## What the index holds -/

/-- The ids under a term. -/
def ids (index : Text → Option (Finset ℤ)) (term : Text) : Finset ℤ := (index term).getD ∅

theorem serach_eq (e : SearchEngine) (term : Text) :
    e.serach term = (ids e.invertedIndex term).sort (· ≤ ·) := by
  unfold SearchEngine.serach ids
  cases e.invertedIndex term with
  | none => simp
  | some s => rfl

theorem mem_ids_insert {index : Text → Option (Finset ℤ)} {id k : ℤ} {term t : Text} :
    k ∈ ids (SearchEngine.insert index id term) t ↔ k ∈ ids index t ∨ k = id ∧ t = term := by
  unfold ids SearchEngine.insert
  by_cases ht : t = term
  · subst ht
    rw [Function.update_self]
    simp [or_comm]
  · rw [Function.update_of_ne ht]
    simp [ht]

theorem mem_ids_foldl {id k : ℤ} {t : Text} (terms : List Text)
    (index : Text → Option (Finset ℤ)) :
    k ∈ ids (terms.foldl (fun index => SearchEngine.insert index id) index) t
      ↔ k ∈ ids index t ∨ k = id ∧ t ∈ terms := by
  induction terms generalizing index with
  | nil => simp
  | cons term terms ih =>
    rw [List.foldl_cons, ih, mem_ids_insert, List.mem_cons, or_assoc, and_or_left]

/-- **A document is entered under its maximal alphanumeric runs.** -/
theorem mem_ids_enter {e : SearchEngine} {doc : ℤ × Text} {k : ℤ} {term : Text} :
    k ∈ ids (e.enter doc).invertedIndex term
      ↔ k ∈ ids e.invertedIndex term ∨ k = doc.1 ∧ IsRun isalnum doc.2 term := by
  rw [← mem_tokenize]
  exact mem_ids_foldl _ _

/-! ## The invariant -/

/-- The documents in the queue and in the hands of workers. -/
def pending (e : SearchEngine) : Multiset (ℤ × Text) :=
  e.pool.account (fun doc => doc) fun doc => {doc}

/-- The invariant, for the calls made so far: what is pending or in the index was added, and
what was added is pending or in the index. -/
structure Inv (done : List Act) (e : SearchEngine) : Prop where
  alive : e.pool.Alive
  pendingAdded : ∀ doc ∈ pending e, .addDocument doc.1 doc.2 ∈ done
  sound : ∀ term, ∀ id ∈ ids e.invertedIndex term,
    ∃ text, .addDocument id text ∈ done ∧ IsRun isalnum text term
  complete : ∀ id text, .addDocument id text ∈ done →
    (id, text) ∈ pending e ∨ ∀ term, IsRun isalnum text term → id ∈ ids e.invertedIndex term

section Steps

variable {done : List Act} {e e' : SearchEngine} {a : Act}

/-- A step that leaves the index and what is pending alone. -/
theorem Inv.same (h : Inv done e) (ha : ∀ id text, a ≠ .addDocument id text)
    (hmove : e.pool.Move e'.pool) (hpending : pending e' = pending e)
    (hindex : e'.invertedIndex = e.invertedIndex) : Inv (done ++ [a]) e' := by
  have hadd (id : ℤ) (text : Text) : .addDocument id text ∈ done ++ [a]
      ↔ .addDocument id text ∈ done := by
    rw [List.mem_append, List.mem_singleton, or_iff_left (ha id text).symm]
  refine ⟨h.alive.move hmove, fun doc hdoc => ?_, fun term id hid => ?_, fun id text hadded => ?_⟩
  · exact (hadd _ _).mpr (h.pendingAdded doc (hpending ▸ hdoc))
  · obtain ⟨text, hadded, hrun⟩ := h.sound term id (hindex ▸ hid)
    exact ⟨text, (hadd _ _).mpr hadded, hrun⟩
  · rw [hpending, hindex]
    exact h.complete id text ((hadd _ _).mp hadded)

theorem Inv.addDocument (h : Inv done e) (hstop : e.pool.stop = false) (id : ℤ) (text : Text) :
    Inv (done ++ [.addDocument id text]) { e with pool := e.pool.push (id, text) } := by
  have hpending : pending { e with pool := e.pool.push (id, text) } = pending e + {(id, text)} :=
    Pool.account_push _ _ _ _
  refine ⟨h.alive.move (.submit _ hstop), fun doc hdoc => ?_, fun term k hk => ?_,
    fun k t hadded => ?_⟩
  · rw [hpending, Multiset.mem_add, Multiset.mem_singleton] at hdoc
    rcases hdoc with hdoc | rfl
    · exact List.mem_append_left _ (h.pendingAdded doc hdoc)
    · exact List.mem_append_right _ (List.mem_singleton_self _)
  · obtain ⟨t, hadded, hrun⟩ := h.sound term k hk
    exact ⟨t, List.mem_append_left _ hadded, hrun⟩
  · rw [hpending, Multiset.mem_add]
    rcases List.mem_append.mp hadded with hadded | hnew
    · exact (h.complete k t hadded).imp .inl fun hindexed => hindexed
    · obtain ⟨rfl, rfl⟩ : k = id ∧ t = text := by simpa using hnew
      exact .inl (.inr (Multiset.mem_singleton_self _))

/-- A worker enters its document. -/
theorem Inv.enter {w : ℕ} {doc : ℤ × Text} (h : Inv done e)
    (hw : e.pool.workers[w]? = some (.busy doc)) :
    Inv (done ++ [.work w]) { e.enter doc with pool := e.pool.goto w .waiting } := by
  have hpending : pending { e.enter doc with pool := e.pool.goto w .waiting } + {doc}
      = pending e := Pool.account_finish hw
  have hadd (id : ℤ) (text : Text) : .addDocument id text ∈ done ++ [.work w]
      ↔ .addDocument id text ∈ done := by simp
  refine ⟨h.alive.move (.goto hw (by simp)), fun d hd => ?_, fun term k hk => ?_,
    fun k t hadded => ?_⟩
  · refine (hadd _ _).mpr (h.pendingAdded d ?_)
    rw [← hpending]
    exact Multiset.mem_add.mpr (.inl hd)
  · rcases mem_ids_enter.mp hk with hk | ⟨rfl, hrun⟩
    · obtain ⟨t, hadded, hrun⟩ := h.sound term k hk
      exact ⟨t, (hadd _ _).mpr hadded, hrun⟩
    · refine ⟨doc.2, (hadd _ _).mpr (h.pendingAdded doc ?_), hrun⟩
      rw [← hpending]
      exact Multiset.mem_add.mpr (.inr (Multiset.mem_singleton_self doc))
  · rcases h.complete k t ((hadd _ _).mp hadded) with hmem | hdone
    · rw [← hpending, Multiset.mem_add, Multiset.mem_singleton] at hmem
      rcases hmem with hmem | rfl
      · exact .inl hmem
      · -- the document leaves the worker's hands for the index
        exact .inr fun term hrun => mem_ids_enter.mpr (.inr ⟨rfl, hrun⟩)
    · exact .inr fun term hrun => mem_ids_enter.mpr (.inl (hdone term hrun))

/-- **Every critical section keeps the invariant.** -/
theorem Inv.step (h : Inv done e) (hadds : AddsBeforeStop e a) (hs : Step e a e') :
    Inv (done ++ [a]) e' := by
  cases hs with
  | addDocument id text => exact h.addDocument hadds id text
  | stop => exact h.same (by simp) .halt (Pool.account_halt _ _ _) rfl
  | @take w doc hw hdoc =>
    refine h.same (by simp) (.take 0 (by simp)) ?_ rfl
    exact Pool.account_hold hdoc hw rfl
  | leave hstop hempty hw =>
    refine h.same (by simp) (.leave hstop hempty) ?_ rfl
    exact Pool.account_goto_same hw rfl
  | enter hw => exact h.enter hw

end Steps

theorem inv_start {n : ℕ} (hn : 0 < n) : Inv [] (.start n) where
  alive := Pool.alive_start hn
  pendingAdded := by simp [pending, SearchEngine.start]
  sound := by simp [ids, SearchEngine.start]
  complete := by simp

/-! ## Result -/

/-- **The index is exact.**  For every number of workers and every run in which documents are added
before `stop`: when all workers have returned, `serach(term)` is the strictly increasing list of
the ids that were added with a text that has the term as a maximal alphanumeric run. -/
theorem serach_exact (n : ℕ) (hn : 0 < n) (as : List Act) (e : SearchEngine)
    (hrun : run step (.start n) as = some e) (hadds : Along step AddsBeforeStop (.start n) as)
    (hjoined : e.pool.Joined) (term : Text) :
    (e.serach term).Pairwise (· < ·) ∧
    ∀ id, id ∈ e.serach term ↔
      ∃ text, .addDocument id text ∈ as ∧ IsRun isalnum text term := by
  have hinv : Inv as e :=
    run_history (fun _ _ _ _ hs hP hst => hs.step hP (step_spec hst)) (inv_start hn) hadds hrun
  rw [serach_eq]
  refine ⟨(Finset.sortedLT_sort _).pairwise, fun id => ?_⟩
  rw [Finset.mem_sort]
  constructor
  · exact hinv.sound term id
  · rintro ⟨text, hadded, hterm⟩
    rcases hinv.complete id text hadded with hpending | hdone
    · -- all workers have returned, so that nothing is pending
      have hnone : pending e = 0 := hinv.alive.settled hjoined
      rw [hnone] at hpending
      exact absurd hpending (Multiset.notMem_zero _)
    · exact hdone term hterm

/-- One worker, two documents and then `stop`. -/
def indexTwo : List Act :=
  [.addDocument 2 ['b', ' ', 'a'], .work 0, .addDocument 1 ['a'], .work 0, .work 0, .stop, .work 0,
    .work 0]

theorem serach_exact_indexTwo : ∃ e,
    run step (.start 1) indexTwo = some e ∧ e.pool.Joined ∧
    ∀ id, id ∈ e.serach ['a'] ↔
      ∃ text, .addDocument id text ∈ indexTwo ∧ IsRun isalnum text ['a'] :=
  ⟨_, rfl, by decide, (serach_exact 1 (by decide) indexTwo _ rfl (by decide) (by decide) ['a']).2⟩

end SearchEngines
