/-
# The buffer pool

Model of `storage/BufferPool_PageCache.cpp`: pages in a `std::list`, most recently used first, and
a hash map from page ids to iterators.  A fetched page is pinned; a put of a new page into a full
pool evicts the last page of the list that is not pinned.

The pool is compared with the history of its calls: the pages stand in the order of their last put
or successful fetch, so the victim of the scan is the unpinned page that was used least recently.
-/
import SystemsDesign.IterList
import SystemsDesign.TransitionSystem

namespace BufferPools

open IterList

/-- A page; it is pinned while its count is positive. -/
structure Page where
  pageId : ℤ
  data : String
  dirty : Bool := false
  pinCount : ℤ := 0
  deriving DecidableEq, Repr

/-- The fields of `BufferPool` and the lines printed so far, the last one first.  The capacity is
the number `cache.size()` is compared with. -/
structure BufferPool where
  tcapacity : ℕ
  cache : IterList Page := IterList.empty
  mm : Finmap fun _ : ℤ => ℕ := ∅
  printed : List String := []

namespace BufferPool

/-- The pages from the most to the least recently used. -/
def pages (s : BufferPool) : List Page := s.cache.values

/-- Print a line. -/
def print (s : BufferPool) (line : String) : BufferPool :=
  { s with printed := line :: s.printed }

/-- `flush_page`: the page is clean afterwards. -/
def flushPage (s : BufferPool) (victim : ℕ × Page) : BufferPool :=
  { s.print ("Flushing dirty page : " ++ toString victim.2.pageId) with
    cache := s.cache.modify victim.1 fun page => { page with dirty := false } }

/-- The scan of `evict_page`, from the back of the list, for a page that is not pinned. -/
def victim (s : BufferPool) : Option (ℕ × Page) :=
  s.cache.nodes.reverse.find? fun n => n.2.pinCount = 0

/-- `evict_page`; on an empty list `prev(cache.end())` is undefined. -/
def evictPage (s : BufferPool) : Option (Bool × BufferPool) :=
  if s.cache.nodes = [] then none
  else match s.victim with
    | none => some (false, s.print "No evictable page found!")
    | some v =>
      let s := if v.2.dirty then s.flushPage v else s
      let s := s.print ("Evicting page : " ++ toString v.2.pageId)
      some (true, { s with mm := s.mm.erase v.2.pageId, cache := s.cache.erase v.1 })

/-- `fetchPage`: a pointer to the page, unless it is not in the pool. -/
def fetchPage (s : BufferPool) (pageId : ℤ) : Option ℕ × BufferPool :=
  match s.mm.lookup pageId with
  | none => (none, s.print ("Page miss : " ++ toString pageId))
  | some found =>
    let pinned := s.cache.modify found fun page => { page with pinCount := page.pinCount + 1 }
    (some found, { s with cache := pinned.spliceFront found })

/-- `unpinPage`. -/
def unpinPage (s : BufferPool) (pageId : ℤ) : BufferPool :=
  match s.mm.lookup pageId with
  | none => s
  | some found =>
    { s with
      cache := s.cache.modify found fun page =>
        if 0 < page.pinCount then { page with pinCount := page.pinCount - 1 } else page }

/-- The end of `put`: a new page at the front, dirty and not pinned. -/
def insertPage (s : BufferPool) (pageId : ℤ) (value : String) : BufferPool :=
  { s.print ("Inserted page : " ++ toString pageId) with
    cache := s.cache.pushFront ⟨pageId, value, true, 0⟩
    mm := s.mm.insert pageId s.cache.next }

/-- `put`. -/
def put (s : BufferPool) (pageId : ℤ) (value : String) : Option BufferPool :=
  match s.mm.lookup pageId with
  | some found =>
    let written := s.cache.modify found fun page => { page with data := value, dirty := true }
    some { s.print ("Updated page : " ++ toString pageId) with cache := written.spliceFront found }
  | none =>
    if s.tcapacity ≤ s.cache.nodes.length then
      match s.evictPage with
      | none => none
      | some (false, s) => some (s.print "Buffer Pool is Full!")
      | some (true, s) => some (s.insertPage pageId value)
    else some (s.insertPage pageId value)

end BufferPool

/-- The calls on a pool. -/
inductive Call where
  | put (pageId : ℤ) (value : String)
  | fetchPage (pageId : ℤ)
  | unpinPage (pageId : ℤ)
  deriving DecidableEq, Repr

/-- The pool after a call. -/
def BufferPool.step (s : BufferPool) : Call → Option BufferPool
  | .put pageId value => s.put pageId value
  | .fetchPage pageId => some (s.fetchPage pageId).2
  | .unpinPage pageId => some (s.unpinPage pageId)

/-- The page that a call uses: a put uses its page, and so does a fetch that finds it. -/
def BufferPool.used (s : BufferPool) : Call → Option ℤ
  | .put pageId _ => some pageId
  | .fetchPage pageId => if (s.fetchPage pageId).1.isSome then some pageId else none
  | .unpinPage _ => none

/-- A pool and the pages used so far, the last one first. -/
structure History where
  pool : BufferPool
  uses : List ℤ

/-- A new pool. -/
def History.start (capacity : ℕ) : History := ⟨{ tcapacity := capacity }, []⟩

/-- A call, recorded in the history. -/
def History.call (h : History) (c : Call) : Option History :=
  (h.pool.step c).map fun s => ⟨s, (h.pool.used c).toList ++ h.uses⟩

/-! ## The replacement policy

What the pool is for, on the bare list of its pages. -/

namespace Policy

/-- The page with an id. -/
def find (ps : List Page) (pageId : ℤ) : Option Page := ps.find? fun p => p.pageId = pageId

/-- The last page that is not pinned. -/
def victim (ps : List Page) : Option Page := ps.reverse.find? fun p => p.pinCount = 0

/-- The pages after a call. -/
def step (capacity : ℕ) (ps : List Page) : Call → List Page
  | .put pageId value =>
    match find ps pageId with
    | some p => { p with data := value, dirty := true } :: without Page.pageId pageId ps
    | none =>
      if ps.length < capacity then ⟨pageId, value, true, 0⟩ :: ps
      else match victim ps with
        | none => ps
        | some q => ⟨pageId, value, true, 0⟩ :: without Page.pageId q.pageId ps
  | .fetchPage pageId =>
    match find ps pageId with
    | some p => { p with pinCount := p.pinCount + 1 } :: without Page.pageId pageId ps
    | none => ps
  | .unpinPage pageId =>
    ps.map fun p =>
      if p.pageId = pageId ∧ 0 < p.pinCount then { p with pinCount := p.pinCount - 1 } else p

/-- The page that a call uses. -/
def used (ps : List Page) : Call → Option ℤ
  | .put pageId _ => some pageId
  | .fetchPage pageId => (find ps pageId).map Page.pageId
  | .unpinPage _ => none

/-- The pages and the uses so far. -/
structure State where
  pages : List Page
  uses : List ℤ

/-- A call, recorded in the history. -/
def State.call (capacity : ℕ) (t : State) (c : Call) : State :=
  ⟨step capacity t.pages c, (used t.pages c).toList ++ t.uses⟩

end Policy

/-! ## The pool follows the policy -/

namespace BufferPool

/-- The pool holds these pages, and its map is right. -/
structure Represents (s : BufferPool) (capacity : ℕ) (ps : List Page) : Prop where
  capacity_eq : s.tcapacity = capacity
  indexed : s.cache.Indexed Page.pageId s.mm
  pages_eq : s.pages = ps

variable {s : BufferPool} {capacity : ℕ} {ps : List Page}

theorem Represents.find_eq (h : s.Represents capacity ps) (pageId : ℤ) :
    Policy.find ps pageId = (s.mm.lookup pageId).bind s.cache.get? := by
  rw [← h.pages_eq]
  exact h.indexed.find?_eq pageId

theorem Represents.absent (h : s.Represents capacity ps) {pageId : ℤ}
    (hnone : s.mm.lookup pageId = none) : ∀ p ∈ ps, p.pageId ≠ pageId := by
  rw [← h.pages_eq]
  exact h.indexed.lookup_eq_none_iff.mp hnone

theorem Represents.victim_eq (h : s.Represents capacity ps) :
    Policy.victim ps = s.victim.map Prod.snd := by
  rw [← h.pages_eq, Policy.victim, pages, values, ← List.map_reverse, List.find?_map]
  rfl

/-- Changing a page and moving it to the front. -/
theorem Represents.touch (h : s.Represents capacity ps) {pageId : ℤ} {i : ℕ}
    (hi : s.mm.lookup pageId = some i) {f : Page → Page} (hf : ∀ p, (f p).pageId = p.pageId) :
    ∃ p, Policy.find ps pageId = some p ∧
      ∀ s' : BufferPool, s'.tcapacity = s.tcapacity → s'.mm = s.mm →
        s'.cache = (s.cache.modify i f).spliceFront i →
        s'.Represents capacity (f p :: without Page.pageId pageId ps) := by
  obtain ⟨hindexed, p, -, hget, -, hvalues⟩ := h.indexed.touch hi hf
  refine ⟨p, ?_, fun s' hcap hmm hcache => ?_⟩
  · rw [h.find_eq, hi]
    exact hget
  · rw [← spliceFront_modify, ← hcache] at hindexed hvalues
    refine ⟨hcap.trans h.capacity_eq, hmm ▸ hindexed, ?_⟩
    rw [← h.pages_eq]
    exact hvalues

theorem Represents.fetchPage (h : s.Represents capacity ps) (pageId : ℤ) :
    (s.fetchPage pageId).2.Represents capacity (Policy.step capacity ps (.fetchPage pageId)) := by
  rw [BufferPool.fetchPage, Policy.step]
  cases hi : s.mm.lookup pageId with
  | none =>
    rw [h.find_eq, hi]
    exact ⟨h.capacity_eq, h.indexed, h.pages_eq⟩
  | some i =>
    obtain ⟨p, hfind, hrep⟩ := h.touch hi
      (f := fun page => { page with pinCount := page.pinCount + 1 }) fun _ => rfl
    rw [hfind]
    exact hrep _ rfl rfl rfl

/-- `unpinPage` follows the policy. -/
theorem Represents.unpinPage (h : s.Represents capacity ps) (pageId : ℤ) :
    (s.unpinPage pageId).Represents capacity (Policy.step capacity ps (.unpinPage pageId)) := by
  rw [BufferPool.unpinPage, Policy.step]
  cases hi : s.mm.lookup pageId with
  | none =>
    have hsame : (ps.map fun p => if p.pageId = pageId ∧ 0 < p.pinCount then
        { p with pinCount := p.pinCount - 1 } else p) = ps := by
      conv_rhs => rw [← List.map_id ps]
      exact List.map_congr_left fun p hp => if_neg fun hand => h.absent hi p hp hand.1
    rw [hsame]
    exact h
  | some i =>
    have hf : ∀ p : Page,
        (if 0 < p.pinCount then { p with pinCount := p.pinCount - 1 } else p).pageId
          = p.pageId := by
      intro p
      split_ifs <;> rfl
    refine ⟨h.capacity_eq, h.indexed.modify i hf, ?_⟩
    rw [← h.pages_eq]
    refine (h.indexed.values_modify hi _).trans (List.map_congr_left fun p _ => ?_)
    rw [ite_and]

theorem Represents.insertPage (h : s.Represents capacity ps) {pageId : ℤ} (value : String)
    (hnone : s.mm.lookup pageId = none) :
    (s.insertPage pageId value).Represents capacity (⟨pageId, value, true, 0⟩ :: ps) := by
  refine ⟨h.capacity_eq, h.indexed.pushFront (v := ⟨pageId, value, true, 0⟩) hnone, ?_⟩
  rw [← h.pages_eq]
  rfl

theorem evictPage_none (hne : s.cache.nodes ≠ []) (hv : s.victim = none) :
    s.evictPage = some (false, s.print "No evictable page found!") := by
  rw [evictPage, if_neg hne, hv]

/-- `evict_page` takes out the page that the scan found. -/
theorem evictPage_some (hne : s.cache.nodes ≠ []) {v : ℕ × Page} (hv : s.victim = some v) :
    ∃ s', s.evictPage = some (true, s') ∧ s'.tcapacity = s.tcapacity ∧
      s'.mm = s.mm.erase v.2.pageId ∧ s'.cache = s.cache.erase v.1 := by
  rw [evictPage, if_neg hne, hv]
  refine ⟨_, rfl, ?_⟩
  -- A dirty victim is flushed before it is erased.
  cases v.2.dirty with
  | false => exact ⟨rfl, rfl, rfl⟩
  | true => exact ⟨rfl, rfl, erase_modify _ _ _⟩

theorem Represents.evict (h : s.Represents capacity ps) {v : ℕ × Page} (hv : s.victim = some v)
    {s' : BufferPool} (hcap : s'.tcapacity = s.tcapacity) (hmm : s'.mm = s.mm.erase v.2.pageId)
    (hcache : s'.cache = s.cache.erase v.1) :
    s'.Represents capacity (without Page.pageId v.2.pageId ps) := by
  have hmem : v ∈ s.cache.nodes := List.mem_reverse.mp (List.mem_of_find?_eq_some hv)
  have hlook : s.mm.lookup v.2.pageId = some v.1 := (h.indexed _ _).mpr ⟨v.2, hmem, rfl⟩
  refine ⟨hcap.trans h.capacity_eq, ?_, ?_⟩
  · rw [hmm, hcache]
    exact h.indexed.erase hlook
  · rw [pages, hcache, ← h.pages_eq]
    exact h.indexed.values_erase hlook

/-- `put` follows the policy; with a positive capacity it never evicts from an empty list. -/
theorem Represents.put (h : s.Represents capacity ps) (hc : 1 ≤ capacity) (pageId : ℤ)
    (value : String) :
    ∃ s', s.put pageId value = some s' ∧
      s'.Represents capacity (Policy.step capacity ps (.put pageId value)) := by
  rw [BufferPool.put, Policy.step]
  cases hi : s.mm.lookup pageId with
  | some i =>
    obtain ⟨p, hfind, hrep⟩ := h.touch hi
      (f := fun page => { page with data := value, dirty := true }) fun _ => rfl
    rw [hfind]
    exact ⟨_, rfl, hrep _ rfl rfl rfl⟩
  | none =>
    have hlen : s.cache.nodes.length = ps.length := by
      rw [← h.pages_eq, pages, values, List.length_map]
    rw [h.find_eq, hi, h.capacity_eq, hlen]
    dsimp only [Option.bind_none]
    by_cases hfull : ps.length < capacity
    · rw [if_neg (by omega), if_pos hfull]
      exact ⟨_, rfl, h.insertPage value hi⟩
    · have hne : s.cache.nodes ≠ [] := by
        intro hnil
        rw [hnil, List.length_nil] at hlen
        omega
      rw [if_pos (by omega), if_neg hfull, h.victim_eq]
      cases hv : s.victim with
      | none =>
        rw [evictPage_none hne hv]
        exact ⟨_, rfl, h.capacity_eq, h.indexed, h.pages_eq⟩
      | some v =>
        obtain ⟨s', hs', hcap, hmm, hcache⟩ := evictPage_some hne hv
        rw [hs']
        have hnone : s'.mm.lookup pageId = none := by
          rw [hmm]
          exact lookup_erase_eq_none _ hi
        exact ⟨_, rfl, (h.evict hv hcap hmm hcache).insertPage value hnone⟩

/-- **The pool follows the policy.** -/
theorem Represents.step (h : s.Represents capacity ps) (hc : 1 ≤ capacity) (c : Call) :
    ∃ s', s.step c = some s' ∧ s'.Represents capacity (Policy.step capacity ps c) := by
  cases c with
  | put pageId value => exact h.put hc pageId value
  | fetchPage pageId => exact ⟨_, rfl, h.fetchPage pageId⟩
  | unpinPage pageId => exact ⟨_, rfl, h.unpinPage pageId⟩

/-- The pool and the policy agree on what a call uses. -/
theorem Represents.used_eq (h : s.Represents capacity ps) (c : Call) :
    s.used c = Policy.used ps c := by
  cases c with
  | put pageId value => rfl
  | unpinPage pageId => rfl
  | fetchPage pageId =>
    rw [used, Policy.used, h.find_eq, BufferPool.fetchPage]
    cases hi : s.mm.lookup pageId with
    | none => rfl
    | some i =>
      obtain ⟨p, hmem, hid⟩ := h.indexed.found hi
      rw [Option.bind_some, get?_eq_some_iff.mpr hmem, Option.map_some, hid]
      rfl

end BufferPool

theorem history_follows {capacity : ℕ} (hc : 1 ≤ capacity) (calls : List Call) :
    ∃ h, TransitionSystem.run History.call (History.start capacity) calls = some h ∧
      h.pool.Represents capacity (calls.foldl (Policy.State.call capacity) ⟨[], []⟩).pages ∧
      h.uses = (calls.foldl (Policy.State.call capacity) ⟨[], []⟩).uses := by
  have hstart : (History.start capacity).pool.Represents capacity [] :=
    ⟨rfl, Indexed.of_empty, rfl⟩
  refine TransitionSystem.run_refines (R := fun (h : History) (t : Policy.State) =>
    h.pool.Represents capacity t.pages ∧ h.uses = t.uses) ?_ ⟨hstart, rfl⟩ calls
  -- One call of both, from a pool that holds the pages of the policy.
  rintro h t c ⟨hrep, huses⟩
  obtain ⟨s', hs', hrep'⟩ := hrep.step hc c
  refine ⟨⟨s', (h.pool.used c).toList ++ h.uses⟩, ?_, hrep', ?_⟩
  · rw [History.call, hs', Option.map_some]
  · rw [hrep.used_eq, huses]
    rfl

end BufferPools
