/-
# The answers of the deadlock detector

`detectDeadlock` of `DeadlockDetection.cpp` answers `true` on a cycle only.  The converse fails:
its loop walks over a hash table into which the searches insert, and after a rehash the rest of the
walk may not meet the keys that are on a cycle (`detectDeadlock_misses_cycle`, on the table of
libstdc++).

If there is room for all transactions nothing is moved, so that the walk meets every key (`Covers`).
On all tables the answer is right exactly if there is no cycle or every transaction that waits leads
to one, because then the first search finds it (`detectDeadlock_iff_cycle`): a search from any other
transaction ends at one that does not wait and is inserted, and there is an implementation that puts
everything before the iterator then (`evasive`).
-/
import SystemsDesign.DeadlockDetection

namespace DeadlockDetection

open AcyclicRelations DepthFirst HashTables

variable {H : Insertion ℤ} {deps : List (ℤ × ℤ)} {fuel : ℕ} {l l' : Loop}

/-- The states of the loop on a built graph. -/
abbrev BuildWalk (H : Insertion ℤ) (deps : List (ℤ × ℤ)) (l : Loop) : Prop :=
  Walk H (build H deps) (transactions deps) l

/-- A visited transaction leads to no cycle, as long as none is found. -/
theorem not_leadsToCycle_of_visited (h : BuildWalk H deps l) (hfound : l.found = false) {v : ℤ}
    (hv : v ∈ l.search.visited) : ¬ LeadsToCycle (WaitsFor deps) v := by
  have hfinished := (h.explored hfound).not_leadsToCycle hv (Finset.notMem_empty v)
  rwa [edge_build] at hfinished

/-! ## Walks that find a cycle -/

/-- While everything fits, each key is visited, or the loop is at it or still to meet it. -/
def Covers (d : Detector) (l : Loop) : Prop :=
  l.found = false → l.search.detector.keys.order.length ≤ d.keys.capacity →
    ∀ x ∈ d.keys.order, x ∈ l.search.visited ∨
      ∃ k, l.cursor = some k ∧ (x = k ∨ x ∈ after k l.search.detector.keys.order)

theorem covers_start (d : Detector) : Covers d (.start d) := by
  intro _ _ x hx
  right
  cases horder : d.keys.order with
  | nil =>
    rw [horder] at hx
    cases hx
  | cons k rest =>
    refine ⟨k, by rw [Loop.start, horder, List.head?_cons], ?_⟩
    rw [horder] at hx
    show x = k ∨ x ∈ after k d.keys.order
    rw [horder, after, if_pos rfl]
    exact List.mem_cons.mp hx

theorem Covers.turned {d : Detector} {S : Finset ℤ} (hwalk : Walk H d S l) (h : Covers d l)
    (hturn : Turned H d.graph S l l') : Covers d l' := by
  cases hturn with
  | ended _ => exact h
  | finds _ _ => exact fun hfound => absurd hfound (by simp)
  | @goesOn txn s s' _ hout hmem _ =>
    intro _ hfits x hx
    -- the table has not been rehashed, neither up to this turn nor in it
    have hlength := hout.moves.grows.length_le
    obtain ⟨-, hcapacity⟩ := hwalk.grows.fits (hlength.trans hfits)
    obtain ⟨hsub, -⟩ := hout.moves.grows.fits (hfits.trans_eq hcapacity.symm)
    have hfound := hwalk.running (by simp)
    rcases h hfound (hlength.trans hfits) x hx with hvisited | ⟨k, hk, hx⟩
    · exact .inl (hout.moves.visited_mono hvisited)
    · obtain rfl := Option.some.inj hk
      rcases hx with rfl | hx
      · exact .inl hmem
      · right
        have hafter := after_mono hsub hx
        obtain ⟨y, hy⟩ : ∃ y, next txn s'.detector.keys.order = some y :=
          Option.isSome_iff_exists.mp (List.isSome_head?.mpr (List.ne_nil_of_mem hafter))
        rw [after_next s'.detector.nodup hy] at hafter
        exact ⟨y, hy, List.mem_cons.mp hafter⟩

/-- **If all transactions fit, a loop that finds no cycle has met every key.** -/
theorem acyclic_of_covers (h : BuildWalk H deps l) (hcovers : Covers (build H deps) l)
    (hfits : (transactions deps).card ≤ (build H deps).keys.capacity)
    (hfound : l.found = false) (hcursor : l.cursor = none) : Acyclic (WaitsFor deps) := by
  intro v hv
  obtain ⟨w, hvw, -⟩ := Relation.TransGen.head'_iff.mp hv
  have hkey : v ∈ (build H deps).keys.order := (mem_keys_build H).mpr (List.mem_map_of_mem hvw)
  have hlength := (h.length_keys_le (spans_build H deps)).trans hfits
  rcases hcovers hfound hlength v hkey with hvisited | ⟨k, hk, -⟩
  · exact not_leadsToCycle_of_visited h hfound hvisited ⟨v, .refl, hv⟩
  · rw [hcursor] at hk
    cases hk

/-- After a turn the first key has been visited. -/
def Begun (d : Detector) (l : Loop) : Prop :=
  l = .start d ∨ ∃ v ∈ l.search.visited, v ∈ d.keys.order

theorem Begun.turned {d : Detector} {g : Graph} {S : Finset ℤ} (h : Begun d l)
    (hturn : Turned H g S l l') : Begun d l' := by
  have hsearch : ∀ {txn s s' found}, Begun d ⟨some txn, s, found⟩ → Moves H g S s s' →
      txn ∈ s'.visited → ∃ v ∈ s'.visited, v ∈ d.keys.order := by
    rintro txn s s' found (hstart | ⟨v, hv, hkey⟩) hmoves hmem
    · exact ⟨txn, hmem, List.mem_of_head? (Loop.mk.inj hstart).1.symm⟩
    · exact ⟨v, hmoves.visited_mono hv, hkey⟩
  cases hturn with
  | ended _ => exact h
  | finds hout hmem => exact .inr (hsearch h hout.moves hmem)
  | goesOn hout hmem _ => exact .inr (hsearch h hout.moves hmem)

/-- If all that wait lead to a cycle, a loop that finds none has met no key. -/
theorem acyclic_of_begun (h : BuildWalk H deps l) (hbegun : Begun (build H deps) l)
    (hall : ∀ txn ∈ deps.map Prod.fst, LeadsToCycle (WaitsFor deps) txn)
    (hfound : l.found = false) (hcursor : l.cursor = none) : Acyclic (WaitsFor deps) := by
  intro v hv
  rcases hbegun with rfl | ⟨u, hu, hkey⟩
  · obtain ⟨w, hvw, -⟩ := Relation.TransGen.head'_iff.mp hv
    have hkey : v ∈ (build H deps).keys.order := (mem_keys_build H).mpr (List.mem_map_of_mem hvw)
    rw [List.head?_eq_none_iff.mp hcursor] at hkey
    cases hkey
  · exact not_leadsToCycle_of_visited h hfound hu (hall u ((mem_keys_build H).mp hkey))

/-! ## A table that hides keys -/

section Evasive

variable {κ : Type*} [DecidableEq κ] (k : κ) (front : κ → Bool)

/-- An insertion that rehashes for every key: the node of `k` becomes the first after a key of
`front`, and the last after any other. -/
def evasive : Insertion κ where
  insert t x :=
    if h : t.order.length < t.capacity then ⟨x :: t.order, t.capacity, h⟩
    else
      { order :=
          if front x then (x :: t.order).filter (· == k) ++ (x :: t.order).filter (· != k)
          else (x :: t.order).filter (· != k) ++ (x :: t.order).filter (· == k)
        capacity := t.order.length + 1
        length_le := by
          have hperm := List.filter_append_perm (· == k) (x :: t.order)
          split_ifs
          · exact hperm.length_eq.le
          · exact (List.perm_append_comm.trans hperm).length_eq.le }
  perm t x := by
    have hperm := List.filter_append_perm (· == k) (x :: t.order)
    by_cases h : t.order.length < t.capacity
    · rw [dif_pos h]
    · rw [dif_neg h]
      split_ifs
      · exact hperm
      · exact List.perm_append_comm.trans hperm
  sublist t x h := by
    rw [dif_pos h]
    exact List.sublist_cons_self x t.order
  capacity_eq t x h := by
    rw [dif_pos h]

/-- The next key comes with a rehash. -/
def Full (t : Table κ) : Prop := t.capacity = t.order.length

variable {k front} {t t' : Table κ} {x w : κ}

theorem Full.insert (h : Full t) : Full ((evasive k front).insert t x) := by
  have hlt : ¬ t.order.length < t.capacity := h.not_gt
  rw [Full, (evasive k front).length_insert]
  simp only [evasive, dif_neg hlt]

theorem order_insert (h : Full t) : ((evasive k front).insert t x).order =
    if front x then (x :: t.order).filter (· == k) ++ (x :: t.order).filter (· != k)
    else (x :: t.order).filter (· != k) ++ (x :: t.order).filter (· == k) := by
  have hlt : ¬ t.order.length < t.capacity := h.not_gt
  simp only [evasive, dif_neg hlt]

theorem head?_insert (h : Full t) (hx : front x = true)
    (hk : k ∈ ((evasive k front).insert t x).order) :
    ((evasive k front).insert t x).order.head? = some k := by
  rw [(evasive k front).mem_insert, ← List.mem_cons] at hk
  rw [order_insert h, if_pos hx, List.head?_append, List.head?_filter]
  cases hfind : (x :: t.order).find? (· == k) with
  | none => simpa using List.find?_eq_none.mp hfind k hk
  | some y =>
    have hy := List.find?_some hfind
    rw [eq_of_beq hy, Option.some_or]

/-- Keys outside of `front` put the node of `k` at the end. -/
theorem next_of_grows (hfull : Full t) (hgrows : (evasive k front).Grows t t')
    (hfront : ∀ x, x ∉ t.order → front x = false) (hw : w ∉ t.order) (hw' : w ∈ t'.order)
    (hnodup : t'.order.Nodup) : next k t'.order = none := by
  have hkeeps : ∀ {u}, (evasive k front).Grows t u → Full u := fun {u} hu => by
    induction hu with
    | refl => exact hfull
    | tail _ hadd ih =>
      obtain ⟨x, -, rfl⟩ := hadd
      exact ih.insert
  rcases Relation.ReflTransGen.cases_tail hgrows with rfl | ⟨u, hu, x, hx, rfl⟩
  · exact absurd hw' hw
  · have hnot : front x = false := hfront x fun hmem => hx (Insertion.Grows.subset hu hmem)
    -- no node comes after that of `k`
    have hlast : ((evasive k front).insert u x).order.Pairwise fun a _ => a ≠ k := by
      rw [order_insert (hkeeps hu), hnot, if_neg Bool.false_ne_true] at hnodup ⊢
      have hne : ∀ a ∈ (x :: u.order).filter (· != k), a ≠ k := fun a ha =>
        ne_of_beq_false (by simpa using (List.mem_filter.mp ha).2)
      refine List.pairwise_append.mpr ⟨?_, ?_, fun a ha _ _ => hne a ha⟩
      · exact List.pairwise_of_forall_mem_list fun a ha _ _ => hne a ha
      · refine (List.nodup_append.mp hnodup).2.1.imp_of_mem fun _ hb hab => ?_
        have hlast := (List.mem_filter.mp hb).2
        rwa [eq_of_beq hlast] at hab
    cases hnext : next k ((evasive k front).insert u x).order with
    | none => rfl
    | some y => exact absurd rfl (rel_of_mem_after hlast (List.mem_of_head? hnext))

end Evasive

/-- The table that the calls of `addDependency` build. -/
theorem head?_build {k : ℤ} {front : ℤ → Bool} (hfront : ∀ dep ∈ deps, front dep.1 = true) :
    Full (build (evasive k front) deps).keys ∧
      (k ∈ deps.map Prod.fst → (build (evasive k front) deps).keys.order.head? = some k) := by
  induction deps using List.reverseRecOn with
  | nil => exact ⟨rfl, by simp⟩
  | append_singleton deps dep ih =>
    obtain ⟨hfull, hhead⟩ := ih fun dep' hdep' => hfront dep' (List.mem_append_left _ hdep')
    have hdep := hfront dep (List.mem_append_right _ List.mem_cons_self)
    have hkeys : (build (evasive k front) (deps ++ [dep])).keys
        = ((build (evasive k front) deps).subscript (evasive k front) dep.1).keys := by
      rw [build_concat, Detector.addDependency]
    rw [← mem_keys_build (evasive k front), hkeys]
    by_cases hkey : ((build (evasive k front) deps).graph dep.1).isSome
    · rw [Detector.subscript_of_isSome _ _ hkey]
      exact ⟨hfull, fun hk => hhead ((mem_keys_build _).mp hk)⟩
    · rw [Detector.subscript, dif_neg hkey]
      exact ⟨hfull.insert, head?_insert hfull hdep⟩

/-- Whoever leads to no cycle leads to somebody who does not wait. -/
theorem exists_reached_not_waiting {k : ℤ} (hk : k ∈ deps.map Prod.fst)
    (hcycle : ¬ LeadsToCycle (WaitsFor deps) k) :
    ∃ w, Relation.TransGen (WaitsFor deps) k w ∧ w ∉ deps.map Prod.fst := by
  -- the edges behind `k`, backwards, have a source
  have hacyclic : Acyclic fun w v => Relation.ReflTransGen (WaitsFor deps) k v ∧
      WaitsFor deps v w := by
    intro v hv
    obtain ⟨w, -, hreach, -⟩ := Relation.TransGen.tail'_iff.mp hv
    have hback := Relation.TransGen.mono (fun _ _ h => h.2) v v hv
    exact hcycle ⟨v, hreach, Relation.transGen_swap.mp hback⟩
  have hfinite : {w | Relation.ReflTransGen (WaitsFor deps) k w}.Finite := by
    refine (transactions deps).finite_toSet.subset fun w hw => List.mem_toFinset.mpr ?_
    rcases Relation.ReflTransGen.cases_tail hw with rfl | ⟨v, -, hvw⟩
    · exact List.mem_append_left _ hk
    · exact List.mem_append_right _ (List.mem_map_of_mem hvw)
  obtain ⟨w, hw, hlast⟩ := hacyclic.exists_source hfinite ⟨k, .refl⟩
  have hnot : w ∉ deps.map Prod.fst := by
    intro hmem
    obtain ⟨dep, hdep, rfl⟩ := List.mem_map.mp hmem
    exact hlast dep.2 (Relation.ReflTransGen.tail hw hdep) ⟨hw, hdep⟩
  rcases Relation.reflTransGen_iff_eq_or_transGen.mp hw with rfl | hw
  · exact absurd hk hnot
  · exact ⟨w, hw, hnot⟩

/-! ## The answer -/

/-- `detectDeadlock` ends, with the right answer. -/
def AnswersRight (H : Insertion ℤ) (fuel : ℕ) (deps : List (ℤ × ℤ)) : Prop :=
  ∃ found s, detectDeadlock H fuel (build H deps) = some (found, s) ∧
    (found = true ↔ ∃ txn, Relation.TransGen (WaitsFor deps) txn txn)

theorem exists_cycle_iff :
    (∃ txn, Relation.TransGen (WaitsFor deps) txn txn) ↔ ¬ Acyclic (WaitsFor deps) := by
  rw [Acyclic, not_forall]
  simp only [not_not]

theorem exists_cycle_of_found (h : BuildWalk H deps l) (hfound : l.found = true) :
    ∃ txn, Relation.TransGen (WaitsFor deps) txn txn := by
  have hcyclic := h.cycle hfound
  rwa [edge_build, ← exists_cycle_iff] at hcyclic

/-- A loop that misses no cycle answers right. -/
theorem answersRight_of_acyclic (h : BuildWalk H deps l)
    (hrun : detectDeadlock H fuel (build H deps) = some (l.found, l.search))
    (hacyclic : l.found = false → Acyclic (WaitsFor deps)) : AnswersRight H fuel deps := by
  refine ⟨l.found, l.search, hrun, exists_cycle_of_found h, fun hcyclic => ?_⟩
  by_contra hfound
  exact exists_cycle_iff.mp hcyclic (hacyclic (Bool.not_eq_true _ ▸ hfound))

/-- A search that inserts somebody who does not wait leaves the node of `k` at the end. -/
theorem next_of_outcome {k : ℤ} {front : ℤ → Bool} {S : Finset ℤ} {s : Search}
    (hfront : ∀ x, front x = true ↔ x ∈ deps.map Prod.fst) (hk : k ∈ deps.map Prod.fst)
    (hcycle : ¬ LeadsToCycle (WaitsFor deps) k)
    (hout : Outcome (evasive k front) (build (evasive k front) deps).graph S k
      ⟨build (evasive k front) deps, ∅, ∅⟩ false s)
    (hmem : k ∈ s.visited) : next k s.detector.keys.order = none := by
  obtain ⟨hfull, -⟩ := head?_build (k := k) fun dep hdep =>
    (hfront dep.1).mpr (List.mem_map_of_mem hdep)
  obtain ⟨w, hreach, hw⟩ := exists_reached_not_waiting hk hcycle
  rw [← edge_build (evasive k front)] at hreach
  have hinactive : k ∉ s.recStack := by
    rw [hout.recStack_eq rfl]
    exact Finset.notMem_empty k
  have hvisited := ((hout.explored rfl).finished_of_transGen hreach hmem hinactive).1
  have hinserted := (hout.moves.within.touched.isSome_iff w).mpr (.inr hvisited)
  refine next_of_grows hfull hout.moves.grows (fun x hx => ?_)
    (fun hold => hw ((mem_keys_build _).mp hold)) ((s.detector.mem_keys w).mpr hinserted)
    s.detector.nodup
  rw [mem_keys_build, ← hfront, Bool.not_eq_true] at hx
  exact hx

/-- The loop on the evasive table ends with its first turn. -/
theorem detectDeadlock_evasive (hfuel : ((transactions deps).card + 1) ^ 2 ≤ fuel) {k : ℤ}
    (hk : k ∈ deps.map Prod.fst) (hcycle : ¬ LeadsToCycle (WaitsFor deps) k) :
    ∃ H s, detectDeadlock H fuel (build H deps) = some (false, s) := by
  let H := evasive k fun x => decide (x ∈ deps.map Prod.fst)
  have hhead : (build H deps).keys.order.head? = some k :=
    (head?_build fun dep hdep => decide_eq_true (List.mem_map_of_mem hdep)).2 hk
  have hstart : Loop.start (build H deps) = ⟨some k, ⟨build H deps, ∅, ∅⟩, false⟩ := by
    rw [Loop.start, hhead]
  obtain ⟨l, hrun, -, hl, hend⟩ := detectDeadlock_spec (H := H) (spans_build H deps) hfuel
    (P := fun l => l = .start (build H deps) ∨ l.cursor = none ∧ l.found = false)
    (fun l l' _ hl hturn => by
      right
      rcases hl with rfl | ⟨hcursor, hfound⟩
      · rw [hstart] at hturn
        cases hturn with
        | ended hend => cases hend
        | finds hout _ =>
          have hfinds := hout.cycle rfl
          rw [edge_build] at hfinds
          exact absurd hfinds hcycle
        | goesOn hout hmem _ =>
          exact ⟨next_of_outcome (fun _ => decide_eq_true_iff) hk hcycle hout hmem, rfl⟩
      · cases hturn with
        | ended _ => exact ⟨hcursor, hfound⟩
        | finds _ _ => cases hcursor
        | goesOn _ _ _ => cases hcursor)
    (.inl rfl)
  refine ⟨H, l.search, ?_⟩
  rcases hl with rfl | ⟨-, hfound⟩
  · rw [hstart] at hend
    cases hend
  · rw [hrun, hfound]

/-- **When deadlock detection is complete.**  After any calls of `addDependency`, on every hash
table: `detectDeadlock` ends, and it answers `true` on a cycle only; and its answer is right if the
table has room for all transactions.  It is right on all tables exactly if there is no cycle, or
every transaction that waits leads to one. -/
theorem detectDeadlock_iff_cycle (deps : List (ℤ × ℤ)) (fuel : ℕ)
    (hfuel : (2 * deps.length + 1) ^ 2 ≤ fuel) :
    (∀ H : Insertion ℤ, ∃ found s, detectDeadlock H fuel (build H deps) = some (found, s) ∧
      (found = true → ∃ txn, Relation.TransGen (WaitsFor deps) txn txn)) ∧
    (∀ H : Insertion ℤ, (transactions deps).card ≤ (build H deps).keys.capacity →
      AnswersRight H fuel deps) ∧
    ((∀ H : Insertion ℤ, AnswersRight H fuel deps) ↔ Acyclic (WaitsFor deps) ∨
      ∀ txn ∈ deps.map Prod.fst, LeadsToCycle (WaitsFor deps) txn) := by
  have hcard : ((transactions deps).card + 1) ^ 2 ≤ fuel :=
    (Nat.pow_le_pow_left (Nat.succ_le_succ (card_transactions_le deps)) 2).trans hfuel
  have hends : ∀ H : Insertion ℤ, ∃ l, detectDeadlock H fuel (build H deps)
      = some (l.found, l.search) ∧ BuildWalk H deps l ∧
        (Covers (build H deps) l ∧ Begun (build H deps) l) ∧ l.cursor = none := fun H =>
    detectDeadlock_spec (spans_build H deps) hcard
      (fun _ _ hwalk hl hturn => ⟨hl.1.turned hwalk hturn, hl.2.turned hturn⟩)
      ⟨covers_start _, .inl rfl⟩
  refine ⟨fun H => ?_, fun H hfits => ?_, fun hright => ?_, fun hcases H => ?_⟩
  · obtain ⟨l, hrun, hwalk, -⟩ := hends H
    exact ⟨l.found, l.search, hrun, exists_cycle_of_found hwalk⟩
  · obtain ⟨l, hrun, hwalk, ⟨hcovers, -⟩, hend⟩ := hends H
    exact answersRight_of_acyclic hwalk hrun fun hfound =>
      acyclic_of_covers hwalk hcovers hfits hfound hend
  · by_contra hnot
    push Not at hnot
    obtain ⟨hcyclic, k, hk, hleads⟩ := hnot
    obtain ⟨H, s, hrun⟩ := detectDeadlock_evasive hcard hk hleads
    obtain ⟨found, s', hrun', hanswer⟩ := hright H
    obtain ⟨rfl, -⟩ := Prod.mk.inj (Option.some.inj (hrun.symm.trans hrun'))
    exact Bool.false_ne_true (hanswer.mpr (exists_cycle_iff.mpr hcyclic))
  · obtain ⟨l, hrun, hwalk, ⟨-, hbegun⟩, hend⟩ := hends H
    refine answersRight_of_acyclic hwalk hrun fun hfound => ?_
    rcases hcases with hacyclic | hall
    · exact hacyclic
    · exact acyclic_of_begun hwalk hbegun hall hfound hend

/-- The calls of `main`: the table of libstdc++ has room for all transactions. -/
theorem detectDeadlock_iff_cycle_main : AnswersRight (chained hashInt) 49 mainDeps :=
  (detectDeadlock_iff_cycle mainDeps 49 (by decide)).2.1 (chained hashInt) (by decide)

/-- Two transactions that wait for each other, and eleven that wait for one which does not wait. -/
def missedDeps : List (ℤ × ℤ) :=
  [(0, 1), (1, 0), (2, 102), (3, 103), (4, 104), (5, 105), (6, 106), (7, 107), (8, 108), (9, 109),
    (10, 110), (11, 111), (12, 112)]

/-- **A cycle that is missed.**  The loop begins at 12, whose search inserts 112; the table is full
and turned round, so that no key comes after 12 any more. -/
theorem detectDeadlock_misses_cycle :
    (detectDeadlock (chained hashInt) 729 (build (chained hashInt) missedDeps)).map Prod.fst
      = some false ∧ ∃ txn, Relation.TransGen (WaitsFor missedDeps) txn txn := by
  refine ⟨by decide +kernel, 0, .tail (.single (b := 1) ?_) ?_⟩
  · exact List.mem_cons_self
  · exact List.mem_cons_of_mem _ List.mem_cons_self

end DeadlockDetection
