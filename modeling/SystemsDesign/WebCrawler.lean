/-
# The multi-threaded web crawler

Model of `distributed/WebCrawler_multiThreaded.cpp`.  A worker takes a task from the queue, prints
it, and unless it is at the maximal depth adds the two URLs it discovers, each in a critical
section of its own that skips URLs which have been added before.

The critical sections interleave as a schedule says.  The crawler is an exploration of the tree of
URLs: `step_explores`.

Result: when `shutdown` returns, exactly the URLs within the maximal depth of the seed have been
crawled, each once.
-/
import SystemsDesign.ParallelExploration

namespace WebCrawlers

open ParallelExploration TransitionSystem WorkerPool

/-! ## The crawler -/

/-- `UrlTask`. -/
structure UrlTask where
  url : String
  depth : ℤ
  deriving DecidableEq

/-- The data members of `WebCrawler`, with the workers, and what they have printed.  The queue and
`stop` are those of the pool. -/
structure WebCrawler where
  maxDepth : ℤ
  pool : Pool UrlTask (Work UrlTask)
  visited : Finset String
  output : List UrlTask
  deriving DecidableEq

/-- The constructor. -/
def WebCrawler.new (numThreads : ℕ) (depth : ℤ) : WebCrawler where
  maxDepth := depth
  pool := .start numThreads
  visited := ∅
  output := []

/-- `addUrls`. -/
def addUrls (c : WebCrawler) (t : UrlTask) : WebCrawler :=
  if t.url ∈ c.visited then c
  else { c with pool := c.pool.push t, visited := insert t.url c.visited }

/-- The links that are extracted from a page. -/
def suffixes : List String := ["/about", "/contact"]

/-- The tasks that `crawl` adds behind the test on the depth. -/
def discovered (maxDepth : ℤ) (t : UrlTask) : List UrlTask :=
  if t.depth ≥ maxDepth then [] else suffixes.map fun p => ⟨t.url ++ p, t.depth + 1⟩

/-- `shutdown` up to the joins, and the turn of worker `w`. -/
inductive Act where
  | shutdown
  | work (w : ℕ)
  deriving DecidableEq

/-- The turn of a worker that has a task: it prints it, adds the next URL, or is done. -/
def crawl (c : WebCrawler) (w : ℕ) : Work UrlTask → WebCrawler
  | .taken t =>
    { c with
      pool := c.pool.goto w (.busy (.expanding t (discovered c.maxDepth t)))
      output := c.output ++ [t] }
  | .expanding t (u :: rest) =>
    -- `addUrls` takes the mutex anew for each URL
    let c := addUrls c u
    { c with pool := c.pool.goto w (.busy (.expanding t rest)) }
  | .expanding _ [] => { c with pool := c.pool.goto w .waiting }

/-- One turn. -/
def step (c : WebCrawler) : Act → Option WebCrawler
  | .shutdown => some { c with pool := c.pool.halt }
  | .work w =>
    match c.pool.workers[w]? with
    | some .waiting => (c.pool.fetch w .taken).map fun pool => { c with pool }
    | some (.busy k) => some (crawl c w k)
    | _ => none

/-! ## The crawler explores -/

/-- The crawler as an exploration. -/
def explore (c : WebCrawler) : State UrlTask String where
  pool := c.pool
  visited := c.visited
  processed := c.output

/-- Nobody changes the maximal depth. -/
theorem maxDepth_crawl (c : WebCrawler) (w : ℕ) (k : Work UrlTask) :
    (crawl c w k).maxDepth = c.maxDepth := by
  cases k with
  | taken t => rfl
  | expanding t rest =>
    cases rest with
    | nil => rfl
    | cons u rest =>
      unfold crawl addUrls
      dsimp only
      split_ifs <;> rfl

theorem crawl_explores {c : WebCrawler} {w : ℕ} {k : Work UrlTask}
    (hw : c.pool.workers[w]? = some (.busy k)) :
    Step (discovered c.maxDepth) UrlTask.url (explore c) (explore (crawl c w k)) := by
  cases k with
  | taken t => exact .process hw
  | expanding t rest =>
    cases rest with
    | nil => exact .finish hw
    | cons u rest =>
      unfold crawl addUrls
      dsimp only
      by_cases hu : u.url ∈ c.visited
      · rw [if_pos hu]
        exact .skip hw (Finset.mem_coe.mpr hu)
      · rw [if_neg hu]
        have hdiscover : Step (discovered c.maxDepth) UrlTask.url (explore c) _ :=
          .discover (s := explore c) hw (fun hmem => hu (Finset.mem_coe.mp hmem))
        simpa [explore] using hdiscover

/-- **Every turn is a step of the exploration.** -/
theorem step_explores {c c' : WebCrawler} {a : Act} (h : step c a = some c') :
    c'.maxDepth = c.maxDepth ∧
      Step (discovered c.maxDepth) UrlTask.url (explore c) (explore c') := by
  cases a with
  | shutdown =>
    obtain rfl := Option.some.inj h
    exact ⟨rfl, .halt⟩
  | work w =>
    simp only [step] at h
    split at h
    next hw =>
      obtain ⟨pool, hpool, rfl⟩ := Option.map_eq_some_iff.mp h
      rcases Pool.fetch_spec hpool with ⟨hstop, hempty, rfl⟩ | ⟨t, ht, rfl⟩
      · exact ⟨rfl, .leave hw hstop hempty⟩
      · exact ⟨rfl, .take hw ht⟩
    next k hw =>
      obtain rfl := Option.some.inj h
      exact ⟨maxDepth_crawl c w k, crawl_explores hw⟩
    next => cases h

theorem explore_addUrls_new (n : ℕ) (maxDepth : ℤ) (t : UrlTask) :
    explore (addUrls (.new n maxDepth) t) = start UrlTask.url n t := by
  simp [addUrls, WebCrawler.new, explore, start]

theorem run_explores {c c' : WebCrawler} {as : List Act} (h : run step c as = some c') :
    c'.maxDepth = c.maxDepth ∧
      Reachable (Step (discovered c.maxDepth) UrlTask.url) (explore c) (explore c') :=
  @run_invariant _ _ step
    (fun d => d.maxDepth = c.maxDepth ∧
      Reachable (Step (discovered c.maxDepth) UrlTask.url) (explore c) (explore d))
    (fun _ _ _ hd hstep =>
      have hnext := step_explores hstep
      ⟨hnext.1.trans hd.1, hd.2.tail (hd.1 ▸ hnext.2)⟩)
    c c' as ⟨rfl, Relation.ReflTransGen.refl⟩ h

/-! ## The tree of URLs -/

/-- The URL that the suffixes lead to. -/
def extend (seed : String) (path : List String) : String := path.foldl (· ++ ·) seed

/-- A path of suffixes. -/
def IsPath (path : List String) : Prop := ∀ p ∈ path, p ∈ suffixes

theorem extend_concat (seed : String) (path : List String) (p : String) :
    extend seed (path ++ [p]) = extend seed path ++ p := by
  simp [extend]

/-- The letters of an extended URL. -/
theorem toList_extend (seed : String) (path : List String) :
    (extend seed path).toList = seed.toList ++ path.flatMap String.toList := by
  induction path using List.reverseRecOn with
  | nil => simp [extend]
  | append_singleton path p ih =>
    rw [extend_concat, String.toList_append, ih, List.flatMap_append, List.append_assoc]
    simp

theorem suffix_cancel {p q : String} (hp : p ∈ suffixes) (hq : q ∈ suffixes) {s t : List Char}
    (h : p.toList ++ s = q.toList ++ t) : p = q ∧ s = t := by
  have hcases : ∀ r ∈ suffixes, r = "/about" ∨ r = "/contact" := by simp [suffixes]
  rcases hcases p hp with rfl | rfl <;> rcases hcases q hq with rfl | rfl
  · exact ⟨rfl, List.append_cancel_left h⟩
  · simp at h
  · simp at h
  · exact ⟨rfl, List.append_cancel_left h⟩

theorem toList_ne_nil {p : String} (hp : p ∈ suffixes) : p.toList ≠ [] := by
  have hall : ∀ r ∈ suffixes, r.toList ≠ [] := by decide
  exact hall p hp

/-- **A URL determines the path to it.** -/
theorem path_eq_of_extend_eq {seed : String} {path path' : List String} (hpath : IsPath path)
    (hpath' : IsPath path') (h : extend seed path = extend seed path') : path = path' := by
  have hletters : path.flatMap String.toList = path'.flatMap String.toList := by
    have := congrArg String.toList h
    rw [toList_extend, toList_extend] at this
    exact List.append_cancel_left this
  clear h
  -- along both paths: the letters tell which suffix comes next, and where it ends
  induction path generalizing path' with
  | nil =>
    cases path' with
    | nil => rfl
    | cons q path' =>
      have hnil : q.toList = [] := (List.append_eq_nil_iff.mp hletters.symm).1
      exact absurd hnil (toList_ne_nil (hpath' q List.mem_cons_self))
  | cons p path ih =>
    cases path' with
    | nil =>
      have hnil : p.toList = [] := (List.append_eq_nil_iff.mp hletters).1
      exact absurd hnil (toList_ne_nil (hpath p List.mem_cons_self))
    | cons q path' =>
      rw [List.flatMap_cons, List.flatMap_cons] at hletters
      obtain ⟨rfl, hrest⟩ := suffix_cancel (hpath p List.mem_cons_self)
        (hpath' q List.mem_cons_self) hletters
      rw [ih (fun r hr => hpath r (List.mem_cons_of_mem _ hr))
        (fun r hr => hpath' r (List.mem_cons_of_mem _ hr)) hrest]

/-- The task at the end of a path. -/
def taskAt (seed : String) (path : List String) : UrlTask := ⟨extend seed path, path.length⟩

theorem mem_discovered_taskAt {maxDepth : ℤ} {seed : String} {path : List String} {t : UrlTask} :
    t ∈ discovered maxDepth (taskAt seed path) ↔
      (path.length : ℤ) < maxDepth ∧ ∃ p ∈ suffixes, t = taskAt seed (path ++ [p]) := by
  unfold discovered
  by_cases hdepth : (taskAt seed path).depth ≥ maxDepth
  · rw [if_pos hdepth]
    apply iff_of_false List.not_mem_nil
    intro h
    exact absurd h.1 (not_lt.mpr hdepth)
  · have hlt : (path.length : ℤ) < maxDepth := not_le.mp hdepth
    rw [if_neg hdepth, and_iff_right hlt]
    simp only [List.mem_map, taskAt, extend_concat, List.length_append, List.length_singleton,
      Nat.cast_add, Nat.cast_one, eq_comm]

/-- **The tasks that can be reached** are those at the end of a path within the depth. -/
theorem reach_iff {maxDepth : ℤ} (hdepth : 0 ≤ maxDepth) {seed : String} {t : UrlTask} :
    Reach (discovered maxDepth) ⟨seed, 0⟩ t ↔
      ∃ path, IsPath path ∧ (path.length : ℤ) ≤ maxDepth ∧ t = taskAt seed path := by
  constructor
  · intro h
    induction h with
    | refl => exact ⟨[], by simp [IsPath], by simpa using hdepth, rfl⟩
    | tail _ ht ih =>
      obtain ⟨path, hpath, -, rfl⟩ := ih
      obtain ⟨hlt, p, hp, rfl⟩ := mem_discovered_taskAt.mp ht
      refine ⟨path ++ [p], fun q hq => ?_, ?_, rfl⟩
      · rcases List.mem_append.mp hq with hq | hq
        · exact hpath q hq
        · rw [List.mem_singleton.mp hq]
          exact hp
      · rw [List.length_append, List.length_singleton]
        push_cast
        omega
  · rintro ⟨path, hpath, hlength, rfl⟩
    -- the last suffix is found from the task before it, which is less deep
    induction path using List.reverseRecOn with
    | nil => exact Relation.ReflTransGen.refl
    | append_singleton path p ih =>
      rw [List.length_append, List.length_singleton] at hlength
      push_cast at hlength
      have hinit := ih (fun q hq => hpath q (List.mem_append_left _ hq)) (by omega)
      exact hinit.tail (mem_discovered_taskAt.mpr ⟨by omega, p, hpath p (by simp), rfl⟩)

/-! ## Result -/

/-- **Crawling is complete, independently of the schedule.**  For every number of workers, every
maximal depth, every seed and every run after the seed was added: when all workers have returned,
no URL was crawled twice, and the tasks crawled are those at the end of the paths of at most
`max_depth` suffixes, at the depth that is the number of suffixes. -/
theorem crawl_complete (n : ℕ) (hn : 0 < n) (maxDepth : ℤ) (hdepth : 0 ≤ maxDepth) (seed : String)
    (as : List Act) (c : WebCrawler)
    (hrun : run step (addUrls (.new n maxDepth) ⟨seed, 0⟩) as = some c)
    (hjoined : c.pool.Joined) :
    (c.output.map UrlTask.url).Nodup ∧
    ∀ t, t ∈ c.output ↔ ∃ path, IsPath path ∧ (path.length : ℤ) ≤ maxDepth ∧
      t = ⟨extend seed path, path.length⟩ := by
  obtain ⟨-, hreach⟩ := run_explores hrun
  have hmax : (addUrls (.new n maxDepth) ⟨seed, 0⟩).maxDepth = maxDepth := by
    simp [addUrls, WebCrawler.new]
  rw [hmax, explore_addUrls_new] at hreach
  -- URLs are marked without their depth, so a URL must not be found at two depths
  have hinj : ∀ x y, Reach (discovered maxDepth) ⟨seed, 0⟩ x →
      Reach (discovered maxDepth) ⟨seed, 0⟩ y → x.url = y.url → x = y := by
    intro x y hx hy hurl
    obtain ⟨path, hpath, -, rfl⟩ := (reach_iff hdepth).mp hx
    obtain ⟨path', hpath', -, rfl⟩ := (reach_iff hdepth).mp hy
    rw [path_eq_of_extend_eq hpath hpath' hurl]
  obtain ⟨hnodup, hmem⟩ := explored hinj hn hreach hjoined
  exact ⟨hnodup, fun t => (hmem t).trans (reach_iff hdepth)⟩

/-- Two workers crawl to depth 1, with `shutdown` while the first one is at work. -/
def crawlTwo : List Act :=
  [.work 0, .work 0, .shutdown, .work 0, .work 1, .work 1, .work 0, .work 1, .work 0, .work 0,
    .work 0, .work 0, .work 0, .work 1]

theorem crawl_complete_crawlTwo : ∃ c,
    run step (addUrls (.new 2 1) ⟨"a", 0⟩) crawlTwo = some c ∧
    c.output = [⟨"a", 0⟩, ⟨"a/about", 1⟩, ⟨"a/contact", 1⟩] ∧ c.pool.Joined ∧
    (c.output.map UrlTask.url).Nodup :=
  ⟨_, rfl, by decide, by decide,
    (crawl_complete 2 (by decide) 1 (by decide) "a" crawlTwo _ rfl (by decide)).1⟩

end WebCrawlers
