/-
# Which page the buffer pool replaces

The policy keeps the pages in the order of their last use and never lets go of a pinned page.
Every run of the pool follows the policy, so the same holds of the pool.
-/
import SystemsDesign.BufferPool

namespace BufferPools

open IterList

namespace Policy

/-- What the policy keeps up: distinct ids, at most `capacity` pages, no negative count, and the
pages in the order of their last use. -/
structure Ordered (capacity : ℕ) (t : State) : Prop where
  nodup : (t.pages.map Page.pageId).Nodup
  bounded : t.pages.length ≤ capacity
  pins : ∀ p ∈ t.pages, 0 ≤ p.pinCount
  recency : RecencyOrdered t.uses (t.pages.map Page.pageId)
  recorded : ∀ k ∈ t.pages.map Page.pageId, k ∈ t.uses

variable {capacity : ℕ} {t : State} {ps : List Page}

/-! ## Searching the pages -/

theorem find_eq_some {p : Page} {pageId : ℤ} (h : find ps pageId = some p) :
    p ∈ ps ∧ p.pageId = pageId :=
  ⟨List.mem_of_find?_eq_some h, by simpa using List.find?_some h⟩

theorem find_eq_none {pageId : ℤ} : find ps pageId = none ↔ ∀ p ∈ ps, p.pageId ≠ pageId := by
  simp [find]

theorem victim_eq_none : victim ps = none ↔ ∀ p ∈ ps, p.pinCount ≠ 0 := by
  simp [victim]

theorem victim_mem {q : Page} (hv : victim ps = some q) : q ∈ ps :=
  List.mem_reverse.mp (List.mem_of_find?_eq_some hv)

theorem victim_eq_some {q : Page} (h : victim ps = some q) :
    q.pinCount = 0 ∧ ∃ before after, ps = before ++ q :: after ∧ ∀ p ∈ after, p.pinCount ≠ 0 := by
  obtain ⟨hq, as, bs, heq, has⟩ := List.find?_eq_some_iff_append.mp h
  refine ⟨of_decide_eq_true hq, bs.reverse, as.reverse, ?_, fun p hp => ?_⟩
  · rw [← List.reverse_reverse ps, heq]
    simp
  · simpa using has p (List.mem_reverse.mp hp)

/-! ## One call -/

theorem Ordered.init : Ordered capacity ⟨[], []⟩ :=
  ⟨List.nodup_nil, Nat.zero_le _, by simp, List.Pairwise.nil, by simp⟩

theorem Ordered.sublist (h : Ordered capacity t) (hsub : ps.Sublist t.pages) :
    Ordered capacity ⟨ps, t.uses⟩ where
  nodup := h.nodup.sublist (hsub.map _)
  bounded := hsub.length_le.trans h.bounded
  pins p hp := h.pins p (hsub.subset hp)
  recency := h.recency.sublist (hsub.map _)
  recorded k hk := h.recorded k ((hsub.map _).subset hk)

/-- A page that is used comes to the front; there must be room for it. -/
theorem Ordered.use (h : Ordered capacity t) {p : Page} (habs : p.pageId ∉ t.pages.map Page.pageId)
    (hroom : t.pages.length < capacity) (hpin : 0 ≤ p.pinCount) :
    Ordered capacity ⟨p :: t.pages, p.pageId :: t.uses⟩ where
  nodup := List.nodup_cons.mpr ⟨habs, h.nodup⟩
  bounded := hroom
  pins := List.forall_mem_cons.mpr ⟨hpin, h.pins⟩
  recency := h.recency.use habs
  recorded := List.forall_mem_cons.mpr
    ⟨List.mem_cons_self, fun k hk => List.mem_cons_of_mem _ (h.recorded k hk)⟩

/-- A page takes the place of one of the pages, which is left out. -/
theorem Ordered.replace (h : Ordered capacity t) {p q : Page} (hq : q ∈ t.pages)
    (habs : p.pageId ∉ (without Page.pageId q.pageId t.pages).map Page.pageId)
    (hpin : 0 ≤ p.pinCount) :
    Ordered capacity ⟨p :: without Page.pageId q.pageId t.pages, p.pageId :: t.uses⟩ := by
  have hlen := length_without h.nodup hq
  have hbound := h.bounded
  have hroom : (without Page.pageId q.pageId t.pages).length < capacity := by omega
  exact (h.sublist (without_sublist _ _)).use habs hroom hpin

theorem unpin_ids (capacity : ℕ) (ps : List Page) (pageId : ℤ) :
    (step capacity ps (.unpinPage pageId)).map Page.pageId = ps.map Page.pageId := by
  rw [step, List.map_map]
  apply List.map_congr_left
  intro p _
  dsimp only [Function.comp]
  split_ifs <;> rfl

/-- The pages change but not their ids. -/
theorem Ordered.same_ids (h : Ordered capacity t)
    (hids : ps.map Page.pageId = t.pages.map Page.pageId) (hpins : ∀ p ∈ ps, 0 ≤ p.pinCount) :
    Ordered capacity ⟨ps, t.uses⟩ where
  nodup := hids ▸ h.nodup
  bounded := by
    have hlen := congrArg List.length hids
    rw [List.length_map, List.length_map] at hlen
    exact hlen.trans_le h.bounded
  pins := hpins
  recency := by
    show RecencyOrdered t.uses (ps.map Page.pageId)
    rw [hids]
    exact h.recency
  recorded := by
    show ∀ k ∈ ps.map Page.pageId, k ∈ t.uses
    rw [hids]
    exact h.recorded

theorem Ordered.call (h : Ordered capacity t) (c : Call) :
    Ordered capacity (t.call capacity c) := by
  cases c with
  | put pageId value =>
    show Ordered capacity ⟨step capacity t.pages _, pageId :: t.uses⟩
    rw [step]
    cases hfind : find t.pages pageId with
    | some p =>
      obtain ⟨hp, rfl⟩ := find_eq_some hfind
      exact h.replace hp (p := { p with data := value, dirty := true }) (notMem_map_without _ _)
        (h.pins p hp)
    | none =>
      have habs : pageId ∉ t.pages.map Page.pageId := by
        simpa using find_eq_none.mp hfind
      dsimp only
      split_ifs with hroom
      · exact h.use (p := ⟨pageId, value, true, 0⟩) habs hroom le_rfl
      · cases hv : victim t.pages with
        | none =>
          exact ⟨h.nodup, h.bounded, h.pins, h.recency.cons habs,
            fun k hk => List.mem_cons_of_mem _ (h.recorded k hk)⟩
        | some q =>
          have hq : q ∈ t.pages := victim_mem hv
          refine h.replace hq (p := ⟨pageId, value, true, 0⟩) (fun hmem => habs ?_) le_rfl
          exact ((without_sublist _ _).map _).subset hmem
  | fetchPage pageId =>
    rw [State.call, step, used]
    cases hfind : find t.pages pageId with
    | none => exact h
    | some p =>
      obtain ⟨hp, rfl⟩ := find_eq_some hfind
      have hpin := h.pins p hp
      exact h.replace hp (p := { p with pinCount := p.pinCount + 1 }) (notMem_map_without _ _)
        (by show 0 ≤ p.pinCount + 1; omega)
  | unpinPage pageId =>
    apply h.same_ids (unpin_ids capacity _ _)
    intro p hp
    obtain ⟨q, hq, rfl⟩ := List.mem_map.mp hp
    have hpin := h.pins q hq
    split_ifs with hcond
    · show 0 ≤ q.pinCount - 1
      omega
    · exact hpin

/-- A call does not remove a pinned page. -/
theorem pinned_stays (hnodup : (ps.map Page.pageId).Nodup) {p : Page} (hp : p ∈ ps)
    (hpin : 0 < p.pinCount) (c : Call) :
    p.pageId ∈ (step capacity ps c).map Page.pageId := by
  have hid : p.pageId ∈ ps.map Page.pageId := List.mem_map_of_mem hp
  -- A page that moves to the front is still there, and so are the others.
  have hmoved : ∀ (k : ℤ) (q : Page), q.pageId = k →
      p.pageId ∈ (q :: without Page.pageId k ps).map Page.pageId := by
    rintro k q rfl
    rw [List.map_cons, List.mem_cons]
    by_cases heq : p.pageId = q.pageId
    · exact Or.inl heq
    · exact Or.inr (mem_map_without.mpr ⟨hid, heq⟩)
  cases c with
  | put pageId value =>
    rw [step]
    cases hfind : find ps pageId with
    | some q => exact hmoved pageId _ (find_eq_some hfind).2
    | none =>
      dsimp only
      split_ifs
      · exact List.mem_cons_of_mem _ hid
      · cases hv : victim ps with
        | none => exact hid
        | some q =>
          obtain ⟨hq, -⟩ := victim_eq_some hv
          have hqmem : q ∈ ps := victim_mem hv
          have hne : p.pageId ≠ q.pageId := by
            intro heq
            rw [List.inj_on_of_nodup_map hnodup hp hqmem heq] at hpin
            omega
          exact List.mem_cons_of_mem _ (mem_map_without.mpr ⟨hid, hne⟩)
  | fetchPage pageId =>
    rw [step]
    cases hfind : find ps pageId with
    | none => exact hid
    | some q => exact hmoved pageId _ (find_eq_some hfind).2
  | unpinPage pageId => rwa [unpin_ids]

theorem Ordered.victim_oldest (h : Ordered capacity t) {q : Page} (hv : victim t.pages = some q) :
    q ∈ t.pages ∧ q.pinCount = 0 ∧ ∀ p ∈ t.pages, p.pinCount = 0 → p ≠ q →
      t.uses.idxOf p.pageId < t.uses.idxOf q.pageId := by
  obtain ⟨hq, before, after, heq, hafter⟩ := victim_eq_some hv
  have hrecency := h.recency
  rw [heq, List.map_append, RecencyOrdered, List.pairwise_append] at hrecency
  refine ⟨by rw [heq]; simp, hq, fun p hp hpin hne => ?_⟩
  rw [heq, List.mem_append, List.mem_cons] at hp
  rcases hp with hp | rfl | hp
  · exact hrecency.2.2 _ (List.mem_map_of_mem hp) _ List.mem_cons_self
  · exact absurd rfl hne
  · exact absurd hpin (hafter p hp)

/-- A put of a new page into a full pool puts it in the place of the victim. -/
theorem step_put_full {pageId : ℤ} (value : String) (hnone : find ps pageId = none)
    (hfull : capacity ≤ ps.length) {q : Page} (hv : victim ps = some q) :
    step capacity ps (.put pageId value)
      = ⟨pageId, value, true, 0⟩ :: without Page.pageId q.pageId ps := by
  rw [step, hnone]
  dsimp only
  rw [if_neg (by omega), hv]

/-- The policy keeps its pages in order along every run. -/
theorem ordered_run (capacity : ℕ) (calls : List Call) :
    Ordered capacity (calls.foldl (State.call capacity) ⟨[], []⟩) :=
  TransitionSystem.foldl_invariant (fun _ c h => h.call c) Ordered.init calls

end Policy

/-- When every page is pinned, a put of a new page into a full pool only prints. -/
theorem BufferPool.Represents.put_all_pinned {s : BufferPool} {capacity : ℕ} {ps : List Page}
    (h : s.Represents capacity ps) (hc : 1 ≤ capacity) {pageId : ℤ} (value : String)
    (hnone : s.mm.lookup pageId = none) (hlen : ps.length = capacity)
    (hall : ∀ p ∈ ps, 0 < p.pinCount) :
    s.put pageId value
      = some ((s.print "No evictable page found!").print "Buffer Pool is Full!") := by
  have hnodes : s.cache.nodes.length = capacity := by
    rw [← hlen, ← h.pages_eq, BufferPool.pages, values, List.length_map]
  have hne : s.cache.nodes ≠ [] := by
    intro hnil
    rw [hnil, List.length_nil] at hnodes
    omega
  have hv : s.victim = none := by
    have hv := Policy.victim_eq_none.mpr fun p hp => (hall p hp).ne'
    rwa [h.victim_eq, Option.map_eq_none_iff] at hv
  rw [BufferPool.put, hnone]
  dsimp only
  rw [if_pos (h.capacity_eq.trans hnodes.symm).le, evictPage_none hne hv]

/-- **Buffer pool replacement.**  After any calls on a pool of positive capacity, the list and the
map hold the same distinct pages, at most as many as the capacity; no call removes a pinned page;
and a put of a new page into the full pool replaces the page that is not pinned and whose last put
or successful fetch is oldest, or changes nothing when there is none. -/
theorem bufferPool_replacement (capacity : ℕ) (hc : 1 ≤ capacity) (calls : List Call) :
    ∃ h, TransitionSystem.run History.call (History.start capacity) calls = some h ∧
      (h.pool.pages.map Page.pageId).Nodup ∧
      (∀ k, k ∈ h.pool.mm ↔ k ∈ h.pool.pages.map Page.pageId) ∧
      h.pool.pages.length ≤ capacity ∧
      (∀ p ∈ h.pool.pages, p.pageId ∈ h.uses) ∧
      (∀ c s', h.pool.step c = some s' → ∀ p ∈ h.pool.pages, 0 < p.pinCount →
        p.pageId ∈ s'.pages.map Page.pageId) ∧
      ∀ k value, k ∉ h.pool.mm → h.pool.pages.length = capacity →
        ∃ s', h.pool.put k value = some s' ∧
          ((∃ p ∈ h.pool.pages, p.pinCount = 0) →
            ∃ q ∈ h.pool.pages, q.pinCount = 0 ∧
              (∀ p ∈ h.pool.pages, p.pinCount = 0 → p ≠ q →
                h.uses.idxOf p.pageId < h.uses.idxOf q.pageId) ∧
              s'.pages = ⟨k, value, true, 0⟩ :: h.pool.pages.erase q) ∧
          ((∀ p ∈ h.pool.pages, 0 < p.pinCount) →
            s'.cache = h.pool.cache ∧ s'.mm = h.pool.mm) := by
  obtain ⟨h, hrun, hrep, huses⟩ := history_follows hc calls
  have hordered := Policy.ordered_run capacity calls
  set t := calls.foldl (Policy.State.call capacity) ⟨[], []⟩
  have hpages := hrep.pages_eq
  refine ⟨h, hrun, ?_⟩
  rw [hpages, huses]
  refine ⟨hordered.nodup, fun k => ?_, hordered.bounded, ?_, ?_, ?_⟩
  · rw [← hpages]
    exact hrep.indexed.mem_iff
  · exact fun p hp => hordered.recorded _ (List.mem_map_of_mem hp)
  · intro c s' hs' p hp hpin
    obtain ⟨s'', hs'', hrep'⟩ := hrep.step hc c
    obtain rfl := Option.some.inj (hs'.symm.trans hs'')
    rw [hrep'.pages_eq]
    exact Policy.pinned_stays hordered.nodup hp hpin c
  · intro k value hk hlen
    have hnone := Finmap.lookup_eq_none.mpr hk
    obtain ⟨s', hs', hrep'⟩ := hrep.put hc k value
    refine ⟨s', hs', ?_, ?_⟩
    · rintro ⟨p, hp, hpin⟩
      obtain ⟨q, hq⟩ := Option.ne_none_iff_exists'.mp fun hv : Policy.victim t.pages = none =>
        Policy.victim_eq_none.mp hv p hp hpin
      obtain ⟨hmem, hzero, hold⟩ := hordered.victim_oldest hq
      refine ⟨q, hmem, hzero, hold, ?_⟩
      have hfind : Policy.find t.pages k = none := by rw [hrep.find_eq, hnone]; rfl
      rw [hrep'.pages_eq, Policy.step_put_full value hfind hlen.ge hq,
        without_eq_erase hordered.nodup hmem]
    · intro hall
      have hput := hrep.put_all_pinned hc value hnone hlen hall
      obtain rfl := Option.some.inj (hs'.symm.trans hput)
      exact ⟨rfl, rfl⟩

theorem bufferPool_replacement_two :
    1 ≤ 2 ∧ ∃ h, TransitionSystem.run History.call (History.start 2)
        [.put 1 "a", .put 2 "b", .fetchPage 1] = some h ∧ h.pool.pages.length ≤ 2 := by
  obtain ⟨h, hrun, -, -, hlen, -⟩ := bufferPool_replacement 2 (by decide)
    [.put 1 "a", .put 2 "b", .fetchPage 1]
  exact ⟨by decide, h, hrun, hlen⟩

end BufferPools
