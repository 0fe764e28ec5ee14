/-
# The cache of the metadata service is coherent

Between the change of the store and the change of the cache a writer holds the lock exclusively, so
at most one path is cached with its previous value, and the write that replaced it has not returned.
A `get` that refills the cache holds the lock shared from its look into the store to the refill, so
what it puts into the cache is still in the store.
-/
import SystemsDesign.MetadataStore

namespace MetadataStore

open TransitionSystem

/-! ## Versions of a path -/

/-- What the store had for a path after its first `n` writes. -/
def valueAt (ws : List (Option Metadata)) (n : ℕ) : Option Metadata := (ws.take n).getLast?.join

theorem valueAt_append {ws : List (Option Metadata)} (v : Option Metadata) {n : ℕ}
    (hn : n ≤ ws.length) : valueAt (ws ++ [v]) n = valueAt ws n := by
  rw [valueAt, List.take_append_of_le_length hn, valueAt]

theorem valueAt_length_append (ws : List (Option Metadata)) (v : Option Metadata) :
    valueAt (ws ++ [v]) (ws ++ [v]).length = v := by
  rw [valueAt, List.take_length, List.getLast?_concat, Option.join_some]

/-! ## The lock -/

/-- The lock is held by the threads whose phase says so, and not both ways. -/
structure Locks (s : State) : Prop where
  writer : ∀ t, s.writer = some t ↔ (s.threads t).Exclusive
  readers : ∀ t, t ∈ s.readers ↔ (s.threads t).Shared
  apart : s.readers = ∅ ∨ s.writer = none

/-- A thread moves to another phase, and takes or releases the lock as that phase says. -/
theorem Locks.update {s s' : State} {t : ℕ} {phase : Phase} (h : Locks s)
    (hthreads : s'.threads = Function.update s.threads t phase)
    (hwriter : ∀ t', s'.writer = some t' ↔
      if t' = t then phase.Exclusive else s.writer = some t')
    (hreaders : ∀ t', t' ∈ s'.readers ↔ if t' = t then phase.Shared else t' ∈ s.readers)
    (hapart : s'.readers = ∅ ∨ s'.writer = none) : Locks s' := by
  refine ⟨fun t' => ?_, fun t' => ?_, hapart⟩
  · rw [hwriter, hthreads]
    by_cases ht : t' = t
    · rw [if_pos ht, ht, Function.update_self]
    · rw [if_neg ht, Function.update_of_ne ht, h.writer]
  · rw [hreaders, hthreads]
    by_cases ht : t' = t
    · rw [if_pos ht, ht, Function.update_self]
    · rw [if_neg ht, Function.update_of_ne ht, h.readers]

/-- A thread that neither takes nor releases the lock. -/
theorem Locks.goto {s s' : State} {t : ℕ} {phase : Phase} (h : Locks s)
    (hthreads : s'.threads = Function.update s.threads t phase) (hwriter : s'.writer = s.writer)
    (hreaders : s'.readers = s.readers) (hexclusive : phase.Exclusive ↔ (s.threads t).Exclusive)
    (hshared : phase.Shared ↔ (s.threads t).Shared) : Locks s' := by
  refine h.update hthreads (fun t' => ?_) (fun t' => ?_) (hreaders ▸ hwriter ▸ h.apart)
  · rw [hwriter]
    split_ifs with ht
    · rw [hexclusive, ht, h.writer]
    · exact Iff.rfl
  · rw [hreaders]
    split_ifs with ht
    · rw [hshared, ht, h.readers]
    · exact Iff.rfl

/-- The lock under a step of `put` or `remove`. -/
theorem Locks.write {s s' : State} {t : ℕ} {w : Write} {pc : WritePc} (h : Locks s)
    (ht : s.threads t = .writing w pc) (hs : s.write t w pc = some s') : Locks s' := by
  cases pc with
  | lock =>
    rw [State.write] at hs
    split_ifs at hs with hfree
    obtain rfl := Option.some.inj hs
    refine h.update rfl (fun t' => ?_) (fun t' => ?_) (Or.inl hfree.2)
    · simp [hfree.1, Phase.Exclusive, eq_comm]
    · simp [State.goto, hfree.2, Phase.Shared]
  | store =>
    obtain rfl := Option.some.inj hs
    exact h.goto rfl rfl rfl (by simp [ht, Phase.Exclusive]) (by simp [ht, Phase.Shared])
  | cache =>
    obtain ⟨cache, -, rfl⟩ := Option.map_eq_some_iff.mp hs
    exact h.goto rfl rfl rfl (by simp [ht, Phase.Exclusive]) (by simp [ht, Phase.Shared])
  | unlock =>
    obtain rfl := Option.some.inj hs
    have hheld : s.writer = some t := (h.writer t).mpr (by simp [ht, Phase.Exclusive])
    have hnone : s.readers = ∅ := h.apart.resolve_right (by simp [hheld])
    refine h.update rfl (fun t' => ?_) (fun t' => ?_) (Or.inr rfl)
    · simp [hheld, Phase.Exclusive, eq_comm]
    · simp [State.goto, hnone, Phase.Shared]

/-- The lock under a step of `get`. -/
theorem Locks.read {s s' : State} {t : ℕ} {path : String} {since : ℕ} {pc : ReadPc} (h : Locks s)
    (ht : s.threads t = .reading path since pc) (hs : s.read t path since pc = some s') :
    Locks s' := by
  cases pc with
  | cache =>
    rw [State.read] at hs
    split_ifs at hs
    · obtain rfl := Option.some.inj hs
      exact h.goto rfl rfl rfl (by simp [ht, Phase.Exclusive]) (by simp [ht, Phase.Shared])
    · obtain rfl := Option.some.inj hs
      exact h.goto rfl rfl rfl (by simp [ht, Phase.Exclusive]) (by simp [ht, Phase.Shared])
  | lock =>
    rw [State.read] at hs
    split_ifs at hs with hfree
    obtain rfl := Option.some.inj hs
    refine h.update rfl (fun t' => ?_) (fun t' => ?_) (Or.inr hfree)
    · simp [State.goto, hfree, Phase.Exclusive]
    · by_cases hne : t' = t
      · simp [hne, Phase.Shared]
      · simp [hne]
  | store =>
    rw [State.read] at hs
    cases hlook : s.store.lookup path with
    | none =>
      simp only [hlook, Option.some.injEq] at hs
      subst hs
      exact h.goto rfl rfl rfl (by simp [ht, Phase.Exclusive]) (by simp [ht, Phase.Shared])
    | some metadata =>
      simp only [hlook, Option.some.injEq] at hs
      subst hs
      exact h.goto rfl rfl rfl (by simp [ht, Phase.Exclusive]) (by simp [ht, Phase.Shared])
  | fill metadata =>
    obtain ⟨cache, -, rfl⟩ := Option.map_eq_some_iff.mp hs
    exact h.goto rfl rfl rfl (by simp [ht, Phase.Exclusive]) (by simp [ht, Phase.Shared])
  | unlock metadata =>
    obtain rfl := Option.some.inj hs
    have hheld : t ∈ s.readers := (h.readers t).mpr (by simp [ht, Phase.Shared])
    have hfree : s.writer = none := h.apart.resolve_left (Finset.ne_empty_of_mem hheld)
    refine h.update rfl (fun t' => ?_) (fun t' => ?_) (Or.inr hfree)
    · simp [State.answer, State.goto, hfree, Phase.Exclusive]
    · by_cases hne : t' = t
      · simp [hne, Phase.Shared]
      · simp [hne]

/-- Every step keeps the lock in order. -/
theorem Locks.step {s s' : State} {a : Action} (h : Locks s) (hs : s.step a = some s') :
    Locks s' := by
  cases a with
  | start t call =>
    rw [State.step] at hs
    split_ifs at hs with ht
    obtain rfl := Option.some.inj hs
    refine h.goto rfl rfl rfl ?_ ?_
    · rw [ht]
      cases call <;> simp [State.enter, Phase.Exclusive]
    · rw [ht]
      cases call <;> simp [State.enter, Phase.Shared]
  | go t =>
    rw [State.step] at hs
    cases ht : s.threads t with
    | idle => simp [ht] at hs
    | writing w pc =>
      simp only [ht] at hs
      exact h.write ht hs
    | reading path since pc =>
      simp only [ht] at hs
      exact h.read ht hs

/-! ## Store, cache and answers -/

/-- A cached entry is in the store, or it is the version before the one that a writer has stored
and is about to cache. -/
def Agrees (s : State) (e : String × Metadata) : Prop :=
  s.store.lookup e.1 = some e.2 ∨
    ∃ t w, s.threads t = .writing w .cache ∧ w.path = e.1 ∧
      valueAt (s.writes e.1) ((s.writes e.1).length - 1) = some e.2

/-- The answer is a version of the path, and none before those that had returned when the `get`
started. -/
def Recent (s : State) (a : Answer) : Prop :=
  ∃ n, a.since ≤ n ∧ n ≤ (s.writes a.path).length ∧
    (valueAt (s.writes a.path) n).getD Metadata.missing = a.metadata

/-- What a thread knows: a writer has stored its value and has not returned, a reader with the lock
has what the store has. -/
def ThreadOk (s : State) : Phase → Prop
  | .writing w .cache =>
    s.store.lookup w.path = w.value ∧ s.returned w.path < (s.writes w.path).length
  | .writing w .unlock => s.returned w.path < (s.writes w.path).length
  | .reading path since (.fill metadata) =>
    since ≤ s.returned path ∧ s.store.lookup path = some metadata
  | .reading path since (.unlock metadata) =>
    since ≤ s.returned path ∧ (s.store.lookup path).getD Metadata.missing = metadata
  | .reading path since _ => since ≤ s.returned path
  | _ => True

/-- The invariant. -/
structure Coherent (s : State) : Prop where
  sound : s.cache.Sound
  current : ∀ path, s.store.lookup path = valueAt (s.writes path) (s.writes path).length
  cached : ∀ e ∈ s.cache.entries, Agrees s e
  returned : ∀ path, s.returned path ≤ (s.writes path).length
  threads : ∀ t, ThreadOk s (s.threads t)
  answers : ∀ a ∈ s.answers, Recent s a

theorem coherent_new {cacheSize : ℕ} (hpos : 1 ≤ cacheSize) : Coherent (State.new cacheSize) := by
  refine ⟨LRUcache.sound_new hpos, fun path => rfl, ?_, fun path => le_rfl, fun t => trivial, ?_⟩
  · intro e he
    cases he
  · intro a ha
    cases ha

theorem Coherent.recent_of_store {s : State} (h : Coherent s) {path : String} {since : ℕ}
    {metadata : Metadata} (hsince : since ≤ s.returned path)
    (hstore : (s.store.lookup path).getD Metadata.missing = metadata) :
    Recent s ⟨path, since, metadata⟩ :=
  ⟨_, hsince.trans (h.returned path), le_rfl, by rw [← h.current]; exact hstore⟩

/-- What a reader finds in the cache is recent. -/
theorem Coherent.recent_of_cache {s : State} (h : Coherent s) {path : String} {since : ℕ}
    {metadata : Metadata} (hsince : since ≤ s.returned path)
    (hcached : (path, metadata) ∈ s.cache.entries) : Recent s ⟨path, since, metadata⟩ := by
  rcases h.cached _ hcached with hstore | ⟨t, w, ht, hpath, hvalue⟩
  · exact h.recent_of_store hsince (by rw [hstore]; rfl)
  · -- The write that is under way has not returned.
    have hok := h.threads t
    rw [ht] at hok
    dsimp only at hpath hvalue
    refine ⟨(s.writes path).length - 1, ?_, Nat.sub_le _ _, by rw [hvalue]; rfl⟩
    have hlt := hok.2
    rw [hpath] at hlt
    show since ≤ _
    omega

/-- The cache may forget entries, and get entries of the store. -/
theorem Coherent.recache {s : State} (h : Coherent s) {cache : LRUcache String Metadata}
    (hsound : cache.Sound)
    (hcached : ∀ e ∈ cache.entries, e ∈ s.cache.entries ∨ s.store.lookup e.1 = some e.2) :
    Coherent { s with cache := cache } where
  sound := hsound
  current := h.current
  cached e he := (hcached e he).elim (h.cached e) Or.inl
  returned := h.returned
  threads := h.threads
  answers := h.answers

theorem Coherent.answered {s : State} (h : Coherent s) {a : Answer} (ha : Recent s a) :
    Coherent { s with answers := a :: s.answers } where
  sound := h.sound
  current := h.current
  cached := h.cached
  returned := h.returned
  threads := h.threads
  answers a' ha' := by
    rcases List.mem_cons.mp ha' with rfl | hold
    · exact ha
    · exact h.answers a' hold

/-- A cached entry agrees after the move of a thread that is not between the store and the cache. -/
theorem Agrees.move {s s' : State} {t : ℕ} {phase : Phase} {e : String × Metadata}
    (h : Agrees s e) (hstore : s'.store = s.store) (hwrites : s'.writes = s.writes)
    (hthreads : s'.threads = Function.update s.threads t phase)
    (hbefore : ∀ w, s.threads t ≠ .writing w .cache) : Agrees s' e := by
  rcases h with hleft | ⟨t', w, ht', hpath, hvalue⟩
  · exact Or.inl (hstore ▸ hleft)
  · have hne : t' ≠ t := fun heq => hbefore w (heq ▸ ht')
    refine Or.inr ⟨t', w, ?_, hpath, hwrites ▸ hvalue⟩
    rw [hthreads, Function.update_of_ne hne, ht']

/-- A thread that is not between the store and the cache may move, and take or release the lock. -/
theorem Coherent.goto {s : State} {t : ℕ} (h : Coherent s) (phase : Phase)
    (hbefore : ∀ w, s.threads t ≠ .writing w .cache) (hok : ThreadOk s phase)
    (writer : Option ℕ) (readers : Finset ℕ) :
    Coherent { s.goto t phase with writer := writer, readers := readers } where
  sound := h.sound
  current := h.current
  cached e he := (h.cached e he).move rfl rfl rfl hbefore
  returned := h.returned
  threads t' := by
    show ThreadOk s (Function.update s.threads t phase t')
    by_cases ht : t' = t
    · rw [ht, Function.update_self]
      exact hok
    · rw [Function.update_of_ne ht]
      exact h.threads t'
  answers := h.answers

/-! ## The steps of a reader -/

/-- A `get` of the cache only changes the order of its entries. -/
theorem Coherent.cacheGet {s : State} (h : Coherent s) (path : String) :
    Coherent { s with cache := (s.cache.get path).2 } := by
  obtain ⟨-, -, -, hentries⟩ := h.sound.valid.get path
  apply h.recache (h.sound.get path)
  intro e he
  rw [hentries] at he
  exact Or.inl (LRU.mem_get he)

theorem Coherent.mem_of_hit {s : State} (h : Coherent s) {path : String}
    (hhit : ((s.cache.get path).1.getD Metadata.missing).inodeNumber ≠ -1) :
    (path, (s.cache.get path).1.getD Metadata.missing) ∈ s.cache.entries := by
  obtain ⟨hvalue, -⟩ := h.sound.valid.get path
  rw [hvalue] at hhit ⊢
  cases hfind : LRU.find s.cache.entries path with
  | none =>
    rw [hfind] at hhit
    exact absurd rfl hhit
  | some e =>
    obtain ⟨he, rfl⟩ := LRU.find_eq_some hfind
    exact he

theorem Coherent.cachePut {s : State} (h : Coherent s) {path : String} {metadata : Metadata}
    (hstore : s.store.lookup path = some metadata) {cache : LRUcache String Metadata}
    (hcache : s.cache.put path metadata = some cache) : Coherent { s with cache := cache } := by
  obtain ⟨c', hc', hsound, hentries⟩ := h.sound.put path metadata
  obtain rfl := Option.some.inj (hcache.symm.trans hc')
  apply h.recache hsound
  intro e he
  rw [hentries] at he
  rcases LRU.mem_put he with rfl | hold
  · exact Or.inr hstore
  · exact Or.inl hold.1

/-- `get` keeps the service coherent. -/
theorem Coherent.read {s s' : State} {t : ℕ} {path : String} {since : ℕ} {pc : ReadPc}
    (h : Coherent s) (ht : s.threads t = .reading path since pc)
    (hs : s.read t path since pc = some s') : Coherent s' := by
  have hbefore : ∀ w, s.threads t ≠ .writing w .cache := by simp [ht]
  have hok := h.threads t
  rw [ht] at hok
  cases pc with
  | cache =>
    rw [State.read] at hs
    split_ifs at hs with hhit
    · obtain rfl := Option.some.inj hs
      have hrecent := h.recent_of_cache hok (h.mem_of_hit hhit)
      exact ((h.cacheGet path).goto .idle hbefore trivial _ _).answered hrecent
    · obtain rfl := Option.some.inj hs
      exact (h.cacheGet path).goto (.reading path since .lock) hbefore hok _ _
  | lock =>
    rw [State.read] at hs
    split_ifs at hs
    obtain rfl := Option.some.inj hs
    exact h.goto (.reading path since .store) hbefore hok _ _
  | store =>
    rw [State.read] at hs
    cases hlook : s.store.lookup path with
    | none =>
      simp only [hlook, Option.some.injEq] at hs
      subst hs
      have hmissing : (s.store.lookup path).getD Metadata.missing = Metadata.missing := by
        rw [hlook]
        rfl
      exact h.goto (.reading path since (.unlock _)) hbefore ⟨hok, hmissing⟩ _ _
    | some metadata =>
      simp only [hlook, Option.some.injEq] at hs
      subst hs
      exact h.goto (.reading path since (.fill metadata)) hbefore ⟨hok, hlook⟩ _ _
  | fill metadata =>
    obtain ⟨cache, hcache, rfl⟩ := Option.map_eq_some_iff.mp hs
    have hstored : (s.store.lookup path).getD Metadata.missing = metadata := by
      rw [hok.2]
      rfl
    exact (h.cachePut hok.2 hcache).goto (.reading path since (.unlock metadata)) hbefore
      ⟨hok.1, hstored⟩ _ _
  | unlock metadata =>
    obtain rfl := Option.some.inj hs
    have hrecent := h.recent_of_store hok.1 hok.2
    exact (h.goto .idle hbefore trivial _ _).answered hrecent

/-! ## The steps of a writer -/

theorem Write.lookup_onStore (w : Write) (store : Finmap fun _ : String => Metadata)
    (path : String) :
    (w.onStore store).lookup path = if path = w.path then w.value else store.lookup path := by
  cases w with
  | put p metadata =>
    show (store.insert p metadata).lookup path = if path = p then some metadata else _
    split_ifs with hp
    · rw [hp, Finmap.lookup_insert]
    · rw [Finmap.lookup_insert_of_ne _ hp]
  | remove p =>
    show (store.erase p).lookup path = if path = p then none else _
    split_ifs with hp
    · rw [hp, Finmap.lookup_erase]
    · rw [Finmap.lookup_erase_ne hp]

/-- The cache after the change: what it has for the path was written, the rest was there. -/
theorem Write.mem_onCache (w : Write) {cache cache' : LRUcache String Metadata}
    (h : cache.Sound) (hc : w.onCache cache = some cache') :
    cache'.Sound ∧ ∀ e ∈ cache'.entries, e.1 = w.path ∧ w.value = some e.2 ∨
      e ∈ cache.entries ∧ e.1 ≠ w.path := by
  cases w with
  | put path metadata =>
    obtain ⟨c', hc', hsound, hentries⟩ := h.put path metadata
    obtain rfl := Option.some.inj (hc.symm.trans hc')
    refine ⟨hsound, fun e he => ?_⟩
    rw [hentries] at he
    rcases LRU.mem_put he with rfl | hold
    · exact Or.inl ⟨rfl, rfl⟩
    · exact Or.inr hold
  | remove path =>
    obtain rfl := Option.some.inj hc
    refine ⟨h.erase path, fun e he => ?_⟩
    rw [(h.valid.erase path).2.2] at he
    exact Or.inr (IterList.mem_without.mp he)

/-- A thread without the lock does not depend on the store; the writes it waits for have still
returned. -/
theorem ThreadOk.of_free {s s' : State} {phase : Phase} (h : ThreadOk s phase)
    (hexclusive : ¬ phase.Exclusive) (hshared : ¬ phase.Shared)
    (hreturned : ∀ path, s.returned path ≤ s'.returned path) : ThreadOk s' phase := by
  cases phase with
  | idle => trivial
  | writing w pc =>
    cases pc with
    | lock => trivial
    | store => trivial
    | cache => exact absurd (by simp [Phase.Exclusive]) hexclusive
    | unlock => exact absurd (by simp [Phase.Exclusive]) hexclusive
  | reading path since pc =>
    cases pc with
    | cache => exact le_trans h (hreturned path)
    | lock => exact le_trans h (hreturned path)
    | store => exact absurd trivial hshared
    | fill metadata => exact absurd trivial hshared
    | unlock metadata => exact absurd trivial hshared

/-- While a thread holds the lock exclusively, the others do not hold it. -/
theorem Locks.alone {s : State} (h : Locks s) {t t' : ℕ} (ht : (s.threads t).Exclusive)
    (hne : t' ≠ t) : ¬ (s.threads t').Exclusive ∧ ¬ (s.threads t').Shared := by
  have hheld := (h.writer t).mpr ht
  constructor
  · intro ht'
    exact hne (Option.some.inj (((h.writer t').mpr ht').symm.trans hheld))
  · intro ht'
    have hmem := (h.readers t').mpr ht'
    rw [h.apart.resolve_right (by simp [hheld])] at hmem
    simp at hmem

theorem Coherent.in_store {s : State} (h : Coherent s)
    (hnone : ∀ t w, s.threads t ≠ .writing w .cache) :
    ∀ e ∈ s.cache.entries, s.store.lookup e.1 = some e.2 := by
  intro e he
  rcases h.cached e he with hleft | ⟨t, w, ht, -⟩
  · exact hleft
  · exact absurd ht (hnone t w)

theorem Recent.append {s s' : State} {a : Answer} (h : Recent s a) {path : String}
    {value : Option Metadata}
    (hwrites : s'.writes = Function.update s.writes path (s.writes path ++ [value])) :
    Recent s' a := by
  obtain ⟨n, hsince, hn, hvalue⟩ := h
  rw [Recent, hwrites]
  by_cases hpath : a.path = path
  · rw [hpath, Function.update_self, ← hpath]
    refine ⟨n, hsince, by rw [List.length_append]; omega, ?_⟩
    rw [valueAt_append value hn, hvalue]
  · rw [Function.update_of_ne hpath]
    exact ⟨n, hsince, hn, hvalue⟩

theorem Coherent.writeStore {s s' : State} {t : ℕ} {w : Write} (h : Coherent s) (hlocks : Locks s)
    (ht : s.threads t = .writing w .store) (hs : s.write t w .store = some s') : Coherent s' := by
  obtain rfl := Option.some.inj hs
  have hexclusive : (s.threads t).Exclusive := by simp [ht, Phase.Exclusive]
  -- The other threads do not hold the lock, so no other path is behind.
  have halone : ∀ t', t' ≠ t → _ := fun t' hne => hlocks.alone hexclusive hne
  have hnone : ∀ t' w', s.threads t' ≠ .writing w' .cache := by
    intro t' w' ht'
    have hne : t' ≠ t := by
      rintro rfl
      rw [ht] at ht'
      cases ht'
    exact (halone t' hne).1 (by simp [ht', Phase.Exclusive])
  refine ⟨h.sound, fun path => ?_, fun e he => ?_, fun path => ?_, fun t' => ?_, fun a ha => ?_⟩
  · dsimp only
    rw [w.lookup_onStore]
    split_ifs with hpath
    · rw [hpath, Function.update_self, valueAt_length_append]
    · rw [Function.update_of_ne hpath]
      exact h.current path
  · have hstored := h.in_store hnone e he
    by_cases hpath : e.1 = w.path
    · refine Or.inr ⟨t, w, Function.update_self .., hpath.symm, ?_⟩
      dsimp only
      rw [hpath, Function.update_self, List.length_append, List.length_singleton,
        Nat.add_sub_cancel, valueAt_append _ le_rfl, ← h.current, ← hpath, hstored]
    · refine Or.inl ?_
      dsimp only
      rw [w.lookup_onStore, if_neg hpath, hstored]
  · apply (h.returned path).trans
    dsimp only
    by_cases hpath : path = w.path
    · rw [hpath, Function.update_self, List.length_append]
      exact Nat.le_add_right _ _
    · rw [Function.update_of_ne hpath]
  · show ThreadOk _ (Function.update s.threads t (.writing w .cache) t')
    by_cases hne : t' = t
    · rw [hne, Function.update_self]
      refine ⟨by dsimp only; rw [w.lookup_onStore, if_pos rfl], ?_⟩
      dsimp only
      rw [Function.update_self, List.length_append]
      exact Nat.lt_succ_of_le (h.returned w.path)
    · rw [Function.update_of_ne hne]
      exact (h.threads t').of_free (halone t' hne).1 (halone t' hne).2 fun _ => le_rfl
  · exact (h.answers a ha).append rfl

theorem Coherent.writeCache {s s' : State} {t : ℕ} {w : Write} (h : Coherent s) (hlocks : Locks s)
    (ht : s.threads t = .writing w .cache) (hs : s.write t w .cache = some s') : Coherent s' := by
  obtain ⟨cache, hcache, rfl⟩ := Option.map_eq_some_iff.mp hs
  obtain ⟨hsound, hmem⟩ := w.mem_onCache h.sound hcache
  have hexclusive : (s.threads t).Exclusive := by simp [ht, Phase.Exclusive]
  have hok := h.threads t
  rw [ht] at hok
  refine ⟨hsound, h.current, fun e he => Or.inl ?_, h.returned, fun t' => ?_, h.answers⟩
  · rcases hmem e he with ⟨hpath, hvalue⟩ | ⟨hold, hpath⟩
    · show s.store.lookup e.1 = some e.2
      rw [hpath, hok.1, hvalue]
    · -- Only the path of this write was behind.
      rcases h.cached e hold with hleft | ⟨t₁, w₁, ht₁, hpath₁, -⟩
      · exact hleft
      · by_cases hne : t₁ = t
        · rw [hne, ht] at ht₁
          obtain ⟨rfl, -⟩ := Phase.writing.inj ht₁
          exact absurd hpath₁.symm hpath
        · exact absurd (by simp [ht₁, Phase.Exclusive]) (hlocks.alone hexclusive hne).1
  · show ThreadOk _ (Function.update s.threads t (.writing w .unlock) t')
    by_cases hne : t' = t
    · rw [hne, Function.update_self]
      exact hok.2
    · rw [Function.update_of_ne hne]
      exact h.threads t'

theorem Coherent.writeUnlock {s s' : State} {t : ℕ} {w : Write} (h : Coherent s)
    (hlocks : Locks s) (ht : s.threads t = .writing w .unlock)
    (hs : s.write t w .unlock = some s') : Coherent s' := by
  obtain rfl := Option.some.inj hs
  have hexclusive : (s.threads t).Exclusive := by simp [ht, Phase.Exclusive]
  have hmono : ∀ path, s.returned path
      ≤ Function.update s.returned w.path (s.writes w.path).length path := by
    intro path
    by_cases hpath : path = w.path
    · rw [hpath, Function.update_self]
      exact h.returned w.path
    · rw [Function.update_of_ne hpath]
  refine ⟨h.sound, h.current, fun e he => ?_, fun path => ?_, fun t' => ?_, h.answers⟩
  · exact (h.cached e he).move rfl rfl rfl (by simp [ht])
  · dsimp only
    by_cases hpath : path = w.path
    · rw [hpath, Function.update_self]
      exact le_rfl
    · rw [Function.update_of_ne hpath]
      exact h.returned path
  · show ThreadOk _ (Function.update s.threads t .idle t')
    by_cases hne : t' = t
    · rw [hne, Function.update_self]
      trivial
    · rw [Function.update_of_ne hne]
      have halone := hlocks.alone hexclusive hne
      exact (h.threads t').of_free halone.1 halone.2 hmono

/-- `put` and `remove` keep the service coherent. -/
theorem Coherent.write {s s' : State} {t : ℕ} {w : Write} {pc : WritePc} (h : Coherent s)
    (hlocks : Locks s) (ht : s.threads t = .writing w pc) (hs : s.write t w pc = some s') :
    Coherent s' := by
  cases pc with
  | lock =>
    rw [State.write] at hs
    split_ifs at hs
    obtain rfl := Option.some.inj hs
    exact h.goto (.writing w .store) (by simp [ht]) trivial _ _
  | store => exact h.writeStore hlocks ht hs
  | cache => exact h.writeCache hlocks ht hs
  | unlock => exact h.writeUnlock hlocks ht hs

/-- Every step keeps the service coherent. -/
theorem Coherent.step {s s' : State} {a : Action} (h : Coherent s) (hlocks : Locks s)
    (hs : s.step a = some s') : Coherent s' := by
  cases a with
  | start t call =>
    rw [State.step] at hs
    split_ifs at hs with ht
    obtain rfl := Option.some.inj hs
    refine h.goto (s.enter call) (by simp [ht]) ?_ _ _
    cases call with
    | put path inodeNumber fileSize => trivial
    | remove path => trivial
    | get path => exact le_refl (s.returned path)
  | go t =>
    rw [State.step] at hs
    cases ht : s.threads t with
    | idle => simp [ht] at hs
    | writing w pc =>
      simp only [ht] at hs
      exact h.write hlocks ht hs
    | reading path since pc =>
      simp only [ht] at hs
      exact h.read ht hs

/-! ## Every run -/

theorem run_coherent {cacheSize : ℕ} (hpos : 1 ≤ cacheSize) {as : List Action} {s : State}
    (hrun : run State.step (State.new cacheSize) as = some s) : Locks s ∧ Coherent s := by
  have hstep : ∀ (s : State) a s', Locks s ∧ Coherent s → s.step a = some s' →
      Locks s' ∧ Coherent s' := fun _ _ _ h hs => ⟨h.1.step hs, h.2.step h.1 hs⟩
  have hnew : Locks (State.new cacheSize) := by
    refine ⟨fun t => ?_, fun t => ?_, Or.inl rfl⟩
    · simp [State.new, Phase.Exclusive]
    · simp [State.new, Phase.Shared]
  exact run_invariant hstep ⟨hnew, coherent_new hpos⟩ hrun

/-- **The metadata cache is coherent.**  In every state of every interleaving: when no `put` or
`remove` holds the lock, and so in particular when none is under way, every cached entry is the
entry of the store; and every answer of a `get` is a version of its path, the last one that had
returned when the `get` started or a later one. -/
theorem metadata_coherent (cacheSize : ℕ) (hpos : 1 ≤ cacheSize) (as : List Action) (s : State)
    (hrun : run State.step (State.new cacheSize) as = some s) :
    (s.writer = none → ∀ e ∈ s.cache.entries, s.store.lookup e.1 = some e.2) ∧
      ∀ a ∈ s.answers, ∃ n, a.since ≤ n ∧ n ≤ (s.writes a.path).length ∧
        (valueAt (s.writes a.path) n).getD Metadata.missing = a.metadata := by
  obtain ⟨hlocks, hcoherent⟩ := run_coherent hpos hrun
  refine ⟨fun hfree => hcoherent.in_store fun t w ht => ?_, hcoherent.answers⟩
  have hheld := (hlocks.writer t).mpr (by simp [ht, Phase.Exclusive])
  rw [hfree] at hheld
  cases hheld

theorem metadata_coherent_put_get :
    1 ≤ 1 ∧ ∃ s, run State.step (State.new 1)
        [.start 0 (.put "/a" 7 10), .go 0, .go 0, .go 0, .go 0, .start 1 (.get "/a"), .go 1]
          = some s ∧
      (s.writer = none → ∀ e ∈ s.cache.entries, s.store.lookup e.1 = some e.2) := by
  have hsome : (run State.step (State.new 1)
      [.start 0 (.put "/a" 7 10), .go 0, .go 0, .go 0, .go 0, .start 1 (.get "/a"),
        .go 1]).isSome := by
    decide
  obtain ⟨s, hs⟩ := Option.isSome_iff_exists.mp hsome
  exact ⟨by decide, s, hs, (metadata_coherent 1 (by decide) _ s hs).1⟩

end MetadataStore
