/-
# The skip list refines a multiset

`insert` puts its node in front of the equal values of a level, `erase` takes out the first
of them; and both do so on two levels alike.  The sublist relation between the levels survives
(`Above.insert`, `Above.remove`), also where the nodes that `erase` removes on two levels
belong to different towers: what is left of the upper ones still stands on what is left of the
lower ones.  The multiset of the skip list is what the bottom level holds (`values`).

`refines_multiset` puts this together for every sequence of calls and all coins.
-/
import SystemsDesign.SkipListLevels

namespace SkipLists

open PointerHeap SortedBlocks

/-! ## `erase` -/

/-- The addresses around the place where the walk ends. -/
theorem Level.entries_eq_pred {L : Level} (hs : L.Sorted) (t : ℤ) :
    L.entries = (L.lo t).dropLast ++ L.pred t :: L.hi t := by
  rw [L.entries_eq hs t, L.lo_eq t]
  simp

/-- The node at which the walk ends is none of the others. -/
theorem Level.OnHeap.addr_ne_pred {L : Level} {h : Heap Node} (hL : L.OnHeap h) (hs : L.Sorted)
    (t : ℤ) :
    (∀ e ∈ (L.lo t).dropLast, e.addr ≠ (L.pred t).addr) ∧
      ∀ e ∈ L.hi t, e.addr ≠ (L.pred t).addr := by
  have hnodup := hL.nodup
  rw [Level.addrs, Level.entries_eq_pred hs t, List.map_append, List.map_cons] at hnodup
  obtain ⟨-, htail, hdisj⟩ := List.nodup_append.mp hnodup
  refine ⟨fun e he => ?_, fun e he heq => ?_⟩
  · exact hdisj _ (List.mem_map_of_mem he) _ List.mem_cons_self
  · exact (List.nodup_cons.mp htail).1 (heq ▸ List.mem_map_of_mem he)

theorem Level.addr_mem_of_lo {L : Level} (hs : L.Sorted) {t : ℤ} {e : Entry} (he : e ∈ L.lo t) :
    e.addr ∈ L.addrs := by
  apply List.mem_map_of_mem
  rw [L.entries_eq hs t]
  exact List.mem_append_left _ he

theorem Level.addr_mem_of_hi {L : Level} (hs : L.Sorted) {t : ℤ} {e : Entry} (he : e ∈ L.hi t) :
    e.addr ∈ L.addrs := by
  apply List.mem_map_of_mem
  rw [L.entries_eq hs t]
  exact List.mem_append_right _ he

/-- The heap after the first of the equal values, `x`, was unlinked and deleted. -/
def Level.heapRemove (L : Level) (t : ℤ) (x : Entry) (rest : List Entry) (h : Heap Node) :
    Heap Node :=
  (h.store (L.pred t).addr ((L.pred t).node (first Entry.addr rest none))).free x.addr

/-- Unlinking the first of the equal values leaves the level without it. -/
theorem Level.OnHeap.remove {L : Level} {h : Heap Node} {t : ℤ} (hL : L.OnHeap h)
    (hs : L.Sorted) {x : Entry} {mid : List Entry} (hcons : equal Entry.val t L.body = x :: mid) :
    (L.remove t).OnHeap (L.heapRemove t x (mid ++ above Entry.val t L.body) h) := by
  have hhi : L.hi t = x :: (mid ++ above Entry.val t L.body) := by
    rw [Level.hi, hcons, List.cons_append]
  have hentries : (L.remove t).entries = L.lo t ++ (mid ++ above Entry.val t L.body) := by
    simp [Level.remove, Level.entries, removeOne, hcons, Level.lo]
  have hsub : (L.remove t).addrs.Sublist L.addrs :=
    ((removeOne_sublist_self hs).cons_cons L.hd).map _
  obtain ⟨hlo, hhiseg⟩ := hL.segs hs t
  obtain ⟨hinit, hpred⟩ := hL.addr_ne_pred hs t
  have hnodup := hL.nodup
  rw [Level.addrs, L.entries_eq hs t, hhi, List.map_append, List.map_cons] at hnodup
  obtain ⟨-, htail, hdisj⟩ := List.nodup_append.mp hnodup
  rw [hhi] at hhiseg hpred
  refine ⟨?_, hL.nodup.sublist hsub, fun a ha => hL.fresh a (hsub.subset ha)⟩
  rw [hentries]
  refine seg_append.mpr ⟨?_, ?_⟩
  · rw [L.lo_eq t] at hlo
    have hstore := hlo.store_last hinit (first Entry.addr (mid ++ above Entry.val t L.body) none)
    rw [← L.lo_eq t] at hstore
    refine hstore.congr fun e he => Heap.cell_free_of_ne ?_
    exact hdisj _ (List.mem_map_of_mem he) _ List.mem_cons_self
  · apply hhiseg.2.congr
    intro e he
    have hx : e.addr ≠ x.addr := by
      intro heq
      exact (List.nodup_cons.mp htail).1 (heq ▸ List.mem_map_of_mem he)
    exact (Heap.cell_free_of_ne hx).trans
      (Heap.cell_store_of_ne (hpred e (List.mem_cons_of_mem _ he)))

/-- One round of `erase`: the first of the equal values is gone, everything that is not on the
level is untouched, and the loop goes on below. -/
theorem eraseFrom_level {h : Heap Node} {t : ℤ} {L : Level} {e : Entry} (hL : L.OnHeap h)
    (hs : L.Sorted) (he : e ∈ L.lo t) (fuel : ℕ) (found : Bool) :
    ∃ h', eraseFrom t (fuel + 1) h (some e.addr) found
        = eraseFrom t fuel h' (L.pred t).down (found || decide (t ∈ L.vals)) ∧
      (L.remove t).OnHeap h' ∧ h'.next = h.next ∧ ∀ a ∉ L.addrs, h'.cell a = h.cell a := by
  rw [eraseFrom, moveRight_level hL hs he]
  simp only [Option.bind_eq_bind, Option.bind_some, hL.cell_pred hs t]
  cases hequal : equal Entry.val t L.body with
  | nil =>
    have hnot : t ∉ L.vals := Level.equal_eq_nil_iff.mp hequal
    refine ⟨h, ?_, ?_, rfl, fun _ _ => rfl⟩
    · rw [rightIs_of_equal_nil hL hs hequal, decide_eq_false hnot, Bool.or_false]
      rfl
    · have hsame : L.remove t = L := by
        unfold Level.remove
        rw [removeOne_of_equal_nil hs hequal]
      rw [hsame]
      exact hL
  | cons x mid =>
    have hmem : t ∈ L.vals := Level.mem_vals_of_equal_cons hequal
    refine ⟨L.heapRemove t x (mid ++ above Entry.val t L.body) h, ?_, hL.remove hs hequal, rfl,
      fun a ha => ?_⟩
    · rw [rightIs_of_equal_cons hL hs hequal, decide_eq_true hmem, Bool.or_true]
      rfl
    · have hpred : a ≠ (L.pred t).addr := by
        rintro rfl
        exact ha (Level.addr_mem_of_lo hs (L.pred_mem_lo t))
      have hx : a ≠ x.addr := by
        rintro rfl
        refine ha (Level.addr_mem_of_hi hs (t := t) ?_)
        rw [Level.hi, hequal]
        exact List.mem_cons_self
      exact (Heap.cell_free_of_ne hx).trans (Heap.cell_store_of_ne hpred)

/-- The addresses of the levels without their first values equal to `t` are among the old
ones. -/
theorem addrsOf_remove_subset {Ls : List Level} (hs : ∀ L ∈ Ls, L.Sorted) (t : ℤ) :
    addrsOf (Ls.map fun L => L.remove t) ⊆ addrsOf Ls := by
  intro a ha
  obtain ⟨K, hK, haK⟩ := List.mem_flatMap.mp ha
  obtain ⟨L, hL, rfl⟩ := List.mem_map.mp hK
  refine List.mem_flatMap.mpr ⟨L, hL, ?_⟩
  exact (((removeOne_sublist_self (hs L hL)).cons_cons L.hd).map _).subset haK

theorem Tower.sorted_of_mem {L : Level} {rest : List Level} (h : Tower L rest) :
    ∀ K ∈ L :: rest, K.Sorted := by
  induction rest generalizing L with
  | nil =>
    intro K hK
    rw [List.mem_singleton.mp hK]
    exact h.1
  | cons B rest ih =>
    intro K hK
    rcases List.mem_cons.mp hK with rfl | hK
    · exact h.1
    · exact ih h.2.2 K hK

theorem Tower.remove {L : Level} {rest : List Level} (h : Tower L rest) (t : ℤ) :
    Tower (L.remove t) (rest.map fun K => K.remove t) := by
  induction rest generalizing L with
  | nil =>
    refine ⟨sorted_removeOne h.1, fun e he => h.2 e ?_⟩
    exact ((removeOne_sublist_self h.1).cons_cons L.hd).subset he
  | cons B rest ih => exact ⟨sorted_removeOne h.1, h.2.1.remove t, ih h.2.2⟩

theorem Tower.values_remove {L : Level} {rest : List Level} (h : Tower L rest) (t : ℤ) :
    values (L.remove t) (rest.map fun K => K.remove t) = (values L rest).erase t := by
  induction rest generalizing L with
  | nil => exact keys_removeOne h.1
  | cons B rest ih => exact ih h.2.2

/-- **`erase` on a tower**, entered anywhere the walk may come from. -/
theorem eraseFrom_tower {t : ℤ} {rest : List Level} {L : Level} {e : Entry} {h : Heap Node}
    (hT : Tower L rest) (hheap : InHeap h (L :: rest)) (he : e ∈ L.lo t) {fuel : ℕ}
    (hfuel : rest.length < fuel) (found : Bool) :
    ∃ h', eraseFrom t fuel h (some e.addr) found
        = some (found || decide (t ∈ values L rest), h') ∧
      InHeap h' ((L :: rest).map fun K => K.remove t) ∧ h'.next = h.next ∧
      ∀ a ∉ addrsOf (L :: rest), h'.cell a = h.cell a := by
  induction rest generalizing L e h fuel found with
  | nil =>
    obtain ⟨fuel, rfl⟩ := Nat.exists_eq_add_one_of_ne_zero (Nat.ne_zero_of_lt hfuel)
    obtain ⟨h₁, hround, hL₁, hnext, hframe⟩ := eraseFrom_level hheap.1 hT.sorted he fuel found
    refine ⟨h₁, ?_, ⟨hL₁, by simp [addrsOf], trivial⟩, hnext, fun a ha => hframe a ?_⟩
    · rw [hround, hT.down_pred_nil t]
      cases fuel <;> rfl
    · simpa [addrsOf] using ha
  | cons B rest ih =>
    obtain ⟨fuel, rfl⟩ := Nat.exists_eq_add_one_of_ne_zero (Nat.ne_zero_of_lt hfuel)
    obtain ⟨hL, hdisj, hrest⟩ := hheap
    obtain ⟨h₁, hround, hL₁, hnext₁, hframe₁⟩ := eraseFrom_level hL hT.sorted he fuel found
    obtain ⟨e', he', hdown⟩ := hT.2.1.down_pred t
    -- the levels below are as before
    have hrest₁ : InHeap h₁ (B :: rest) :=
      hrest.congr (fun a ha => hframe₁ a fun haL => hdisj a haL ha) hnext₁.ge
    obtain ⟨h₂, hrun, hrest₂, hnext₂, hframe₂⟩ := ih hT.2.2 hrest₁ he' (by simpa using hfuel)
      (found || decide (t ∈ L.vals))
    have hsub : (L.remove t).addrs ⊆ L.addrs :=
      (((removeOne_sublist_self hT.sorted).cons_cons L.hd).map _).subset
    refine ⟨h₂, ?_, ⟨?_, ?_, hrest₂⟩, hnext₂.trans hnext₁, fun a ha => ?_⟩
    · have hfound : (found || decide (t ∈ L.vals) || decide (t ∈ values B rest))
          = (found || decide (t ∈ values L (B :: rest))) := by
        by_cases hmem : t ∈ L.vals
        · have hval : t ∈ values L (B :: rest) := hT.vals_subset hmem
          rw [decide_eq_true hmem, decide_eq_true hval, Bool.or_true, Bool.true_or]
        · rw [decide_eq_false hmem, Bool.or_false]
          rfl
      rw [hround, hdown, hrun, hfound]
    · exact hL₁.congr (fun a ha => hframe₂ a (hdisj a (hsub ha))) hnext₂.ge
    · intro a ha hmem
      exact hdisj a (hsub ha) (addrsOf_remove_subset hT.2.2.sorted_of_mem t hmem)
    · have ha' : a ∉ L.addrs ∧ a ∉ addrsOf (B :: rest) :=
        ⟨fun haL => ha (List.mem_append_left _ haL), fun har => ha (List.mem_append_right _ har)⟩
      rw [hframe₂ a ha'.2, hframe₁ a ha'.1]

/-! ## `insert` -/

/-- The stack `insertPoints` of a tower, its back first. -/
def points (t : ℤ) : Level → List Level → List Addr
  | L, [] => [(L.pred t).addr]
  | L, B :: rest => points t B rest ++ [(L.pred t).addr]

/-- The first loop of `insert` collects the ends of the walks. -/
theorem insertPoints_tower {h : Heap Node} {t : ℤ} {rest : List Level} {L : Level} {e : Entry}
    (hT : Tower L rest) (hheap : InHeap h (L :: rest)) (he : e ∈ L.lo t) {fuel : ℕ}
    (hfuel : rest.length < fuel) (acc : List Addr) :
    insertPoints h t fuel (some e.addr) acc = some (points t L rest ++ acc) := by
  induction rest generalizing L e fuel acc with
  | nil =>
    obtain ⟨fuel, rfl⟩ := Nat.exists_eq_add_one_of_ne_zero (Nat.ne_zero_of_lt hfuel)
    rw [insertPoints, moveRight_level hheap.1 hT.sorted he]
    simp only [Option.bind_eq_bind, Option.bind_some, hheap.1.cell_pred hT.sorted t, Entry.node,
      hT.down_pred_nil t]
    cases fuel <;> rfl
  | cons B rest ih =>
    obtain ⟨fuel, rfl⟩ := Nat.exists_eq_add_one_of_ne_zero (Nat.ne_zero_of_lt hfuel)
    obtain ⟨e', he', hdown⟩ := hT.2.1.down_pred t
    rw [insertPoints, moveRight_level hheap.1 hT.sorted he]
    simp only [Option.bind_eq_bind, Option.bind_some, hheap.1.cell_pred hT.sorted t, Entry.node,
      hdown]
    rw [ih hT.2.2 hheap.2.2 he' (by simpa using hfuel), points, List.append_assoc]
    rfl

/-- The second loop of `insert` on two parts of the stack. -/
theorem insertUp_append (t : ℤ) (h : Heap Node) (ps qs : List Addr) (coins : ℕ → Bool) (up : Bool)
    (d : Option Addr) :
    insertUp t h (ps ++ qs) coins up d
      = (insertUp t h ps coins up d).bind fun r =>
          insertUp t r.1 qs (fun i => coins (i + ps.length)) r.2.1 r.2.2 := by
  induction ps generalizing h coins up d with
  | nil => rfl
  | cons p ps ih =>
    cases up with
    | false => cases qs <;> simp [insertUp]
    | true =>
      rw [List.cons_append, insertUp, insertUp, if_pos rfl, if_pos rfl]
      cases h.cell p with
      | none => rfl
      | some n =>
        simp only [Option.bind_eq_bind, Option.bind_some, ih, List.length_cons, Nat.add_assoc]

/-- The entry that `insert` allocates on a level. -/
def newEntry (h : Heap Node) (t : ℤ) (d : Option Addr) : Entry := ⟨h.next, t, d⟩

/-- The heap after a new node was linked in behind the end of the walk. -/
def Level.heapInsert (L : Level) (t : ℤ) (d : Option Addr) (h : Heap Node) : Heap Node :=
  (h.alloc ((newEntry h t d).node (first Entry.addr (L.hi t) none))).store (L.pred t).addr
    ((L.pred t).node (some h.next))

theorem Level.cell_heapInsert {L : Level} {h : Heap Node} (hs : L.Sorted) (t : ℤ)
    (d : Option Addr) {a : Addr} (ha : a ∉ L.addrs) (hnew : a ≠ h.next) :
    (L.heapInsert t d h).cell a = h.cell a := by
  have hpred : a ≠ (L.pred t).addr := by
    rintro rfl
    exact ha (Level.addr_mem_of_lo hs (L.pred_mem_lo t))
  exact (Heap.cell_store_of_ne hpred).trans (Heap.cell_alloc_of_ne hnew)

theorem Level.addrs_insert_perm {L : Level} (hs : L.Sorted) (t : ℤ) (x : Entry) :
    (L.insert t x).addrs.Perm (x.addr :: L.addrs) := by
  have hperm := ((perm_insertFront (t := t) hs x).map Entry.addr).cons L.hd.addr
  rw [List.map_cons] at hperm
  exact hperm.trans (List.Perm.swap _ _ _)

theorem Level.OnHeap.insert {L : Level} {h : Heap Node} (hL : L.OnHeap h) (hs : L.Sorted) (t : ℤ)
    (d : Option Addr) : (L.insert t (newEntry h t d)).OnHeap (L.heapInsert t d h) := by
  have hentries : (L.insert t (newEntry h t d)).entries
      = L.lo t ++ newEntry h t d :: L.hi t := rfl
  have hperm := Level.addrs_insert_perm hs t (newEntry h t d)
  have hne : ∀ a ∈ L.addrs, a ≠ h.next := fun a ha => (hL.fresh a ha).ne
  obtain ⟨hlo, hhi⟩ := hL.segs hs t
  obtain ⟨hinit, hpred⟩ := hL.addr_ne_pred hs t
  refine ⟨?_, hperm.nodup_iff.mpr (List.nodup_cons.mpr ⟨fun hmem => hne _ hmem rfl, hL.nodup⟩), ?_⟩
  · rw [hentries]
    refine seg_append.mpr ⟨?_, ?_, ?_⟩
    · -- the walk is unchanged up to its last pointer
      have halloc : Seg Entry.addr Entry.node
          (h.alloc ((newEntry h t d).node (first Entry.addr (L.hi t) none))) (L.lo t)
            (first Entry.addr (L.hi t) none) :=
        hlo.congr fun e he => Heap.cell_alloc_of_ne (hne _ (Level.addr_mem_of_lo hs he))
      rw [L.lo_eq t] at halloc
      have hstore := halloc.store_last hinit (some h.next)
      rwa [← L.lo_eq t] at hstore
    · have hpredne : (newEntry h t d).addr ≠ (L.pred t).addr :=
        (hne _ (Level.addr_mem_of_lo hs (L.pred_mem_lo t))).symm
      exact (Heap.cell_store_of_ne hpredne).trans (Heap.cell_alloc_next ..)
    · apply hhi.congr
      intro e he
      exact (Heap.cell_store_of_ne (hpred e he)).trans
        (Heap.cell_alloc_of_ne (hne _ (Level.addr_mem_of_hi hs he)))
  · intro a ha
    rcases List.mem_cons.mp (hperm.subset ha) with rfl | ha
    · exact Nat.lt_succ_self _
    · exact (hL.fresh a ha).trans (Nat.lt_succ_self _)

theorem insertUp_level {L : Level} {h : Heap Node} (hL : L.OnHeap h) (hs : L.Sorted) (t : ℤ)
    (d : Option Addr) (ps : List Addr) (coins : ℕ → Bool) :
    insertUp t h ((L.pred t).addr :: ps) coins true d
      = insertUp t (L.heapInsert t d h) ps (fun i => coins (i + 1)) (coins 0) (some h.next) := by
  rw [insertUp, if_pos rfl, hL.cell_pred hs t]
  rfl

/-- What the second loop of `insert` has done to the levels `L :: rest` when it has passed
them. -/
structure Raised (t : ℤ) (h : Heap Node) (L : Level) (rest : List Level) (h' : Heap Node)
    (up : Bool) (d : Option Addr) (L' : Level) (rest' : List Level) : Prop where
  tower : Tower L' rest'
  heap : InHeap h' (L' :: rest')
  values : values L' rest' = t ::ₘ values L rest
  hd : L'.hd = L.hd
  /-- What stood on the old level stands on the new one... -/
  kept : ∀ U, Above U L → Above U L'
  /-- ...and may get a node on top of the one just inserted. -/
  open_up : up = true → ∀ U a, Above U L → Above (U.insert t ⟨a, t, d⟩) L'
  next : h.next ≤ h'.next
  frame : ∀ a, a < h.next → a ∉ addrsOf (L :: rest) → h'.cell a = h.cell a
  addrs : ∀ a ∈ addrsOf (L' :: rest'), a ∈ addrsOf (L :: rest) ∨ h.next ≤ a

theorem Raised.level {t : ℤ} {h : Heap Node} {B : Level} {rest : List Level} {h₁ : Heap Node}
    {d : Option Addr} {B' : Level} {rest' : List Level} {L : Level}
    (hR : Raised t h B rest h₁ true d B' rest') (hs : L.Sorted) (hAbove : Above L B)
    (hL : L.OnHeap h) (hdisj : ∀ a ∈ L.addrs, a ∉ addrsOf (B :: rest)) (up : Bool) :
    Raised t h L (B :: rest) (L.heapInsert t d h₁) up (some h₁.next)
      (L.insert t (newEntry h₁ t d)) (B' :: rest') := by
  have hL₁ : L.OnHeap h₁ :=
    hL.congr (fun a ha => hR.frame a (hL.fresh a ha) (hdisj a ha)) hR.next
  -- the nodes of the level are not among those of the levels below, old or new
  have hdisj₁ : ∀ a ∈ addrsOf (B' :: rest'), a ∉ L.addrs := by
    intro a ha haL
    rcases hR.addrs a ha with hold | hnew
    · exact hdisj a haL hold
    · exact absurd (hL.fresh a haL) (not_lt.mpr hnew)
  have hperm := Level.addrs_insert_perm hs t (newEntry h₁ t d)
  refine ⟨⟨sorted_insertFront hs rfl, hR.open_up rfl L h₁.next hAbove, hR.tower⟩,
    ⟨hL₁.insert hs t d, ?_, ?_⟩, hR.values, rfl, fun U hU => hU.insert_lower hs t _,
    fun _ U a hU => hU.insert rfl, ?_, ?_, ?_⟩
  · intro a ha hmem
    rcases List.mem_cons.mp (hperm.subset ha) with rfl | haL
    · exact lt_irrefl _ (hR.heap.fresh hmem)
    · exact hdisj₁ a hmem haL
  · refine hR.heap.congr (fun a ha => ?_) (Nat.le_succ _)
    exact Level.cell_heapInsert hs t d (hdisj₁ a ha) (hR.heap.fresh ha).ne
  · exact hR.next.trans (Nat.le_succ _)
  · intro a hlt ha
    have ha' : a ∉ L.addrs ∧ a ∉ addrsOf (B :: rest) :=
      ⟨fun haL => ha (List.mem_append_left _ haL), fun har => ha (List.mem_append_right _ har)⟩
    rw [Level.cell_heapInsert hs t d ha'.1 (hlt.trans_le hR.next).ne, hR.frame a hlt ha'.2]
  · intro a ha
    rcases List.mem_append.mp ha with ha | ha
    · rcases List.mem_cons.mp (hperm.subset ha) with rfl | haL
      · exact Or.inr hR.next
      · exact Or.inl (List.mem_append_left _ haL)
    · rcases hR.addrs a ha with hold | hnew
      · exact Or.inl (List.mem_append_right _ hold)
      · exact Or.inr hnew

theorem Raised.skip {t : ℤ} {h : Heap Node} {B : Level} {rest : List Level} {h₁ : Heap Node}
    {d : Option Addr} {B' : Level} {rest' : List Level} {L : Level}
    (hR : Raised t h B rest h₁ false d B' rest') (hs : L.Sorted) (hAbove : Above L B)
    (hL : L.OnHeap h) (hdisj : ∀ a ∈ L.addrs, a ∉ addrsOf (B :: rest)) :
    Raised t h L (B :: rest) h₁ false d L (B' :: rest') := by
  refine ⟨⟨hs, hR.kept L hAbove, hR.tower⟩, ⟨?_, ?_, hR.heap⟩, hR.values, rfl, fun _ hU => hU,
    by simp, hR.next, ?_, ?_⟩
  · exact hL.congr (fun a ha => hR.frame a (hL.fresh a ha) (hdisj a ha)) hR.next
  · intro a haL ha
    rcases hR.addrs a ha with hold | hnew
    · exact hdisj a haL hold
    · exact absurd (hL.fresh a haL) (not_lt.mpr hnew)
  · intro a hlt ha
    exact hR.frame a hlt fun har => ha (List.mem_append_right _ har)
  · intro a ha
    rcases List.mem_append.mp ha with ha | ha
    · exact Or.inl (List.mem_append_left _ ha)
    · rcases hR.addrs a ha with hold | hnew
      · exact Or.inl (List.mem_append_right _ hold)
      · exact Or.inr hnew

theorem Raised.bottom {t : ℤ} {h : Heap Node} {L : Level} (hT : Tower L []) (hL : L.OnHeap h)
    (up : Bool) :
    Raised t h L [] (L.heapInsert t none h) up (some h.next) (L.insert t (newEntry h t none))
      [] := by
  have hperm := Level.addrs_insert_perm hT.1 t (newEntry h t none)
  refine ⟨⟨sorted_insertFront hT.1 rfl, ?_⟩, ⟨hL.insert hT.1 t none, by simp [addrsOf], trivial⟩,
    keys_insertFront hT.1 rfl, rfl, fun U hU => hU.insert_lower hT.1 t _,
    fun _ U a hU => hU.insert rfl, Nat.le_succ _, ?_, ?_⟩
  · intro e he
    rcases List.mem_cons.mp he with rfl | he
    · exact hT.2 _ List.mem_cons_self
    · rcases List.mem_cons.mp ((perm_insertFront hT.1 _).subset he) with rfl | he
      · rfl
      · exact hT.2 e (List.mem_cons_of_mem _ he)
  · intro a hlt ha
    refine Level.cell_heapInsert hT.1 t none ?_ hlt.ne
    simpa [addrsOf] using ha
  · intro a ha
    have ha' : a ∈ (L.insert t (newEntry h t none)).addrs := by simpa [addrsOf] using ha
    rcases List.mem_cons.mp (hperm.subset ha') with rfl | haL
    · exact Or.inr le_rfl
    · exact Or.inl (by simpa [addrsOf] using haL)

/-- **The second loop of `insert` on a tower**, for all coins. -/
theorem insertUp_tower {t : ℤ} {rest : List Level} {L : Level} {h : Heap Node}
    (hT : Tower L rest) (hheap : InHeap h (L :: rest)) (coins : ℕ → Bool) :
    ∃ h' up d L' rest', insertUp t h (points t L rest) coins true none = some (h', up, d) ∧
      Raised t h L rest h' up d L' rest' := by
  induction rest generalizing L with
  | nil =>
    refine ⟨_, _, _, _, _, ?_, Raised.bottom hT hheap.1 (coins 0)⟩
    rw [points, insertUp_level hheap.1 hT.1]
    rfl
  | cons B rest ih =>
    obtain ⟨hL, hdisj, hrest⟩ := hheap
    obtain ⟨h₁, up, d, B', rest', hrun, hR⟩ := ih hT.2.2 hrest
    have hL₁ : L.OnHeap h₁ :=
      hL.congr (fun a ha => hR.frame a (hL.fresh a ha) (hdisj a ha)) hR.next
    rw [points, insertUp_append, hrun, Option.bind_some]
    dsimp only
    cases up with
    | false => exact ⟨h₁, false, d, L, B' :: rest', rfl, hR.skip hT.1 hT.2.1 hL hdisj⟩
    | true =>
      rw [insertUp_level hL₁ hT.1]
      exact ⟨_, _, _, _, _, rfl, hR.level hT.1 hT.2.1 hL hdisj _⟩

/-! ## Whole operations -/

/-- The skip list in memory has the levels `L :: rest`: sorted, linked from the head
downwards, every down pointer leading to a node of the same value that is linked in the level
below.  The heads hold the value `0`. -/
structure Represents (s : SkipList) (L : Level) (rest : List Level) : Prop where
  head : s.head = L.hd.addr
  zero : L.hd.val = 0
  tower : Tower L rest
  heap : InHeap s.heap (L :: rest)

namespace Represents

variable {s : SkipList} {L : Level} {rest : List Level}

theorem new : Represents new ⟨⟨0, 0, none⟩, []⟩ [] where
  head := rfl
  zero := rfl
  tower := ⟨List.Pairwise.nil, by simp [Level.entries]⟩
  heap := by
    refine ⟨⟨⟨rfl, trivial⟩, by simp [Level.addrs, Level.entries], ?_⟩, by simp [addrsOf], trivial⟩
    intro a ha
    obtain rfl : a = 0 := by simpa [Level.addrs, Level.entries] using ha
    exact Nat.one_pos

theorem length_lt (h : Represents s L rest) : rest.length < s.heap.next + 1 := by
  have hle := h.heap.length_le
  rw [List.length_cons] at hle
  omega

theorem serach (h : Represents s L rest) (t : ℤ) :
    serach s t = some (decide (t ∈ values L rest)) := by
  unfold SkipLists.serach
  rw [h.head]
  exact serachFrom_tower h.tower h.heap List.mem_cons_self h.length_lt

/-- `erase` tells whether the value is there, and removes one copy. -/
theorem erase (h : Represents s L rest) (t : ℤ) :
    ∃ s' L' rest', erase s t = some (decide (t ∈ values L rest), s') ∧
      Represents s' L' rest' ∧ values L' rest' = (values L rest).erase t := by
  obtain ⟨h', hrun, hheap, -, -⟩ :=
    eraseFrom_tower h.tower h.heap (List.mem_cons_self : L.hd ∈ L.lo t) h.length_lt false
  refine ⟨⟨h', s.head⟩, L.remove t, rest.map fun K : Level => K.remove t, ?_,
    ⟨h.head, h.zero, h.tower.remove t, hheap⟩, h.tower.values_remove t⟩
  unfold SkipLists.erase
  rw [h.head, hrun, Bool.false_or]
  rfl

/-- `insert` adds one copy of the value, whatever the coins show. -/
theorem insert (h : Represents s L rest) (t : ℤ) (coins : ℕ → Bool) :
    ∃ s' L' rest', insert s t coins = some s' ∧ Represents s' L' rest' ∧
      values L' rest' = t ::ₘ values L rest := by
  have hpoints := insertPoints_tower h.tower h.heap (List.mem_cons_self : L.hd ∈ L.lo t)
    h.length_lt []
  obtain ⟨h₁, up, d, L₁, rest₁, hrun, hR⟩ := insertUp_tower (t := t) h.tower h.heap coins
  rw [List.append_nil] at hpoints
  unfold SkipLists.insert
  rw [h.head, hpoints]
  simp only [Option.bind_eq_bind, Option.bind_some, hrun]
  cases up with
  | false =>
    refine ⟨⟨h₁, L.hd.addr⟩, L₁, rest₁, rfl, ⟨?_, ?_, hR.tower, hR.heap⟩, hR.values⟩
    · rw [hR.hd]
    · rw [hR.hd, h.zero]
  | true =>
    -- the extra level: its only node stands on the one just inserted
    let top : Level := ⟨⟨h₁.next + 1, 0, some L.hd.addr⟩, [⟨h₁.next, t, d⟩]⟩
    have habove : Above top L₁ := by
      have hempty : Above ⟨⟨h₁.next + 1, 0, some L.hd.addr⟩, []⟩ L :=
        ⟨by rw [Entry.self, h.zero, Entry.target], List.nil_sublist _⟩
      exact hR.open_up rfl _ h₁.next hempty
    have htop : ∀ a ∈ top.addrs, a = h₁.next + 1 ∨ a = h₁.next := by
      intro a ha
      simpa [Level.addrs, Level.entries, top] using ha
    have hcell : ∀ a ∈ addrsOf (L₁ :: rest₁), a ≠ h₁.next + 1 ∧ a ≠ h₁.next := by
      intro a ha
      have hlt := hR.heap.fresh ha
      exact ⟨(hlt.trans (Nat.lt_succ_self _)).ne, hlt.ne⟩
    refine ⟨_, top, L₁ :: rest₁, rfl, ⟨rfl, rfl, ⟨?_, habove, hR.tower⟩, ⟨⟨?_, ?_, ?_⟩, ?_, ?_⟩⟩,
      hR.values⟩
    · exact List.pairwise_singleton _ _
    · refine ⟨Heap.cell_alloc_next .., ?_, trivial⟩
      exact (Heap.cell_alloc_of_ne (Nat.lt_succ_self _).ne).trans (Heap.cell_alloc_next ..)
    · simp [Level.addrs, Level.entries, top]
    · intro a ha
      rcases htop a ha with rfl | rfl
      · exact Nat.lt_succ_self _
      · exact Nat.lt_add_of_pos_right Nat.two_pos
    · intro a ha hmem
      obtain ⟨hne, hne'⟩ := hcell a hmem
      rcases htop a ha with ha' | ha'
      · exact hne ha'
      · exact hne' ha'
    · refine hR.heap.congr (fun a ha => ?_) ?_
      · obtain ⟨hne, hne'⟩ := hcell a ha
        exact (Heap.cell_alloc_of_ne hne).trans (Heap.cell_alloc_of_ne hne')
      · exact Nat.le_add_right _ 2

end Represents

/-! ## Runs -/

/-- How often a run inserts `v`. -/
def inserted (v : ℤ) : List Op → ℕ
  | [] => 0
  | .insert target _ :: ops => inserted v ops + if target = v then 1 else 0
  | _ :: ops => inserted v ops

/-- How often a run erases `v` with success. -/
def erased (v : ℤ) : List Op → List (Option Bool) → ℕ
  | .erase target :: ops, some true :: answers =>
    erased v ops answers + if target = v then 1 else 0
  | _ :: ops, _ :: answers => erased v ops answers
  | _, _ => 0

theorem inserted_cons (v : ℤ) (op : Op) (ops : List Op) :
    inserted v (op :: ops) = inserted v [op] + inserted v ops := by
  cases op <;> simp only [inserted] <;> omega

/-- The removals of the first call and those of the others. -/
theorem erased_cons (v : ℤ) (op : Op) (answer : Option Bool) (ops : List Op)
    (answers : List (Option Bool)) :
    erased v (op :: ops) (answer :: answers) = erased v [op] [answer] + erased v ops answers := by
  cases op with
  | insert | serach => simp only [erased, Nat.zero_add]
  | erase t =>
    rcases answer with _ | _ | _
    · simp only [erased, Nat.zero_add]
    · simp only [erased, Nat.zero_add]
    · simp only [erased]
      omega

/-- Removing a value that is there takes one copy, and of no other value. -/
theorem count_erase_add {m : Multiset ℤ} {t : ℤ} (ht : t ∈ m) (v : ℤ) :
    (m.erase t).count v + (if t = v then 1 else 0) = m.count v := by
  rw [← Multiset.cons_erase ht, Multiset.erase_cons_head, Multiset.count_cons]
  simp only [eq_comm (a := v)]

/-- Every call can be carried out, and keeps account of every value. -/
theorem step_represents {s : SkipList} {L : Level} {rest : List Level} (h : Represents s L rest)
    (op : Op) :
    ∃ s' answer L' rest', step s op = some (s', answer) ∧ Represents s' L' rest' ∧
      ∀ v, (values L' rest').count v + erased v [op] [answer]
        = (values L rest).count v + inserted v [op] := by
  cases op with
  | insert t coins =>
    obtain ⟨s', L', rest', hinsert, h', hvalues⟩ := h.insert t coins
    refine ⟨s', none, L', rest', by simp [step, hinsert], h', fun v => ?_⟩
    rw [hvalues, Multiset.count_cons]
    simp only [inserted, erased, eq_comm (a := t)]
    omega
  | erase t =>
    obtain ⟨s', L', rest', herase, h', hvalues⟩ := h.erase t
    refine ⟨s', some (decide (t ∈ values L rest)), L', rest', by simp [step, herase], h',
      fun v => ?_⟩
    rw [hvalues]
    by_cases hmem : t ∈ values L rest
    · rw [decide_eq_true hmem]
      simp only [inserted, erased, Nat.zero_add, Nat.add_zero]
      exact count_erase_add hmem v
    · rw [decide_eq_false hmem, Multiset.erase_of_notMem hmem]
      rfl
  | serach t =>
    exact ⟨s, some (decide (t ∈ values L rest)), L, rest, by simp [step, h.serach t], h,
      fun v => rfl⟩

/-- Every run can be carried out, and keeps account of every value. -/
theorem run_represents {s : SkipList} {L : Level} {rest : List Level} (h : Represents s L rest)
    (ops : List Op) :
    ∃ s' answers L' rest', run s ops = some (s', answers) ∧ Represents s' L' rest' ∧
      ∀ v, (values L' rest').count v + erased v ops answers
        = (values L rest).count v + inserted v ops := by
  induction ops generalizing s L rest with
  | nil => exact ⟨s, [], L, rest, rfl, h, fun v => rfl⟩
  | cons op ops ih =>
    obtain ⟨s₁, answer, L₁, rest₁, hstep, h₁, hone⟩ := step_represents h op
    obtain ⟨s', answers, L', rest', hrun, h', hcount⟩ := ih h₁
    refine ⟨s', answer :: answers, L', rest', by simp [run, hstep, hrun], h', fun v => ?_⟩
    have hv := hcount v
    have hv₁ := hone v
    rw [inserted_cons, erased_cons]
    omega

/-- **The skip list refines a multiset.**  Every sequence of `insert`, `erase` and `serach`
calls, with whatever coins, can be carried out without following a dangling pointer.  In the
state it leads to, the levels are sorted and every down pointer leads to a node of the same
value in the level below; the bottom level has each value as often as it was inserted and not
erased since; `serach` tells whether the value was inserted more often than erased; and `erase`
tells the same and removes exactly one copy. -/
theorem refines_multiset (ops : List Op) :
    ∃ s answers L rest, run new ops = some (s, answers) ∧ Represents s L rest ∧
      (∀ v, (values L rest).count v + erased v ops answers = inserted v ops) ∧
      (∀ v, serach s v = some (decide (erased v ops answers < inserted v ops))) ∧
      (∀ v, ∃ s' L' rest',
        erase s v = some (decide (erased v ops answers < inserted v ops), s') ∧
        Represents s' L' rest' ∧ values L' rest' = (values L rest).erase v) ∧
      ∀ v coins, ∃ s' L' rest', insert s v coins = some s' ∧ Represents s' L' rest' ∧
        values L' rest' = v ::ₘ values L rest := by
  obtain ⟨s, answers, L, rest, hrun, h, hcount⟩ := run_represents Represents.new ops
  have hcount' : ∀ v, (values L rest).count v + erased v ops answers = inserted v ops := by
    intro v
    have hv := hcount v
    simpa [values, Level.vals] using hv
  have hmem : ∀ v, decide (v ∈ values L rest)
      = decide (erased v ops answers < inserted v ops) := by
    intro v
    apply decide_eq_decide.mpr
    rw [← Multiset.count_pos]
    have hv := hcount' v
    omega
  refine ⟨s, answers, L, rest, hrun, h, hcount', fun v => ?_, fun v => ?_,
    fun v coins => h.insert v coins⟩
  · rw [h.serach v, hmem v]
  · obtain ⟨s', L', rest', herase, h', hvalues⟩ := h.erase v
    exact ⟨s', L', rest', by rw [herase, hmem v], h', hvalues⟩

end SkipLists
