/-
# The levels of a skip list

A skip list in memory is described by its levels, from the top to the bottom: a head and a
body of entries, each with its address, its value and its down pointer (`Level`).  The levels
form a `Tower`: every body is sorted, and what the down pointers of a level lead to is a
sublist of the level below, value for value (`Above`).

Around a target a level falls into the part the walk passes (`Level.lo`) and the rest
(`Level.hi`).  A walk that enters a level anywhere in the first part ends at its last node
(`moveRight_level`), and that node leads down into the first part of the next level.  So
`serach` ends with the answer of the bottom level (`serachFrom_tower`).
-/
import SystemsDesign.SkipList
import SystemsDesign.SortedBlocks

namespace SkipLists

open PointerHeap SortedBlocks

/-! ## Levels -/

/-- A node of a level, without its right pointer. -/
structure Entry where
  addr : Addr
  val : ℤ
  down : Option Addr
  deriving DecidableEq

namespace Entry

/-- The node in memory, once the successor is known. -/
def node (e : Entry) (r : Option Addr) : Node := ⟨e.val, r, e.down⟩

/-- What the down pointer of an entry has to lead to: an address and a value. -/
def target (e : Entry) : Option Addr × ℤ := (e.down, e.val)

/-- An entry as the target of a down pointer. -/
def self (e : Entry) : Option Addr × ℤ := (some e.addr, e.val)

theorem snd_target (e : Entry) : e.target.2 = e.val := rfl

theorem snd_self (e : Entry) : e.self.2 = e.val := rfl

end Entry

/-- A level: its head node and the nodes that hold values. -/
structure Level where
  hd : Entry
  body : List Entry

namespace Level

/-- All nodes of the level. -/
def entries (L : Level) : List Entry := L.hd :: L.body

/-- The addresses of the level. -/
def addrs (L : Level) : List Addr := L.entries.map Entry.addr

/-- The values of the level are in order. -/
def Sorted (L : Level) : Prop := SortedBlocks.Sorted Entry.val L.body

/-- The values of the level. -/
def vals (L : Level) : Multiset ℤ := (L.body.map Entry.val : List ℤ)

/-- The nodes a walk to `t` passes: the head and the values below `t`. -/
def lo (L : Level) (t : ℤ) : List Entry := L.hd :: below Entry.val t L.body

/-- The nodes a walk to `t` does not pass. -/
def hi (L : Level) (t : ℤ) : List Entry := equal Entry.val t L.body ++ above Entry.val t L.body

/-- The node at which a walk to `t` ends. -/
def pred (L : Level) (t : ℤ) : Entry := (L.lo t).getLast (List.cons_ne_nil _ _)

/-- The level with `x` in front of the values equal to `t`. -/
def insert (L : Level) (t : ℤ) (x : Entry) : Level :=
  { L with body := insertFront Entry.val t x L.body }

/-- The level without the first of the values equal to `t`. -/
def remove (L : Level) (t : ℤ) : Level := { L with body := removeOne Entry.val t L.body }

variable {L : Level} {t : ℤ} {e : Entry}

theorem entries_eq (h : L.Sorted) (t : ℤ) : L.entries = L.lo t ++ L.hi t :=
  congrArg _ (eq_blocks h)

theorem lo_eq (L : Level) (t : ℤ) : L.lo t = (L.lo t).dropLast ++ [L.pred t] :=
  (List.dropLast_append_getLast (List.cons_ne_nil _ _)).symm

theorem pred_mem_lo (L : Level) (t : ℤ) : L.pred t ∈ L.lo t := List.getLast_mem _

/-- What the walk passes behind the head is below `t`. -/
theorem lt_of_mem_lo {mid pre : List Entry} (h : L.lo t = pre ++ e :: mid) :
    ∀ m ∈ mid, m.val < t := by
  intro m hm
  cases pre with
  | nil =>
    obtain ⟨-, hbelow⟩ := List.cons.inj h
    exact (lt_of_mem_below (hbelow ▸ hm : m ∈ below Entry.val t L.body)).2
  | cons a pre =>
    obtain ⟨-, hbelow⟩ := List.cons.inj h
    have hmem : m ∈ below Entry.val t L.body := by
      rw [hbelow]
      exact List.mem_append_right _ (List.mem_cons_of_mem _ hm)
    exact (lt_of_mem_below hmem).2

/-- What the walk does not pass is not below `t`. -/
theorem not_lt_of_mem_hi {m : Entry} (hm : m ∈ L.hi t) : ¬ m.val < t := by
  rcases List.mem_append.mp hm with hm | hm
  · exact (eq_of_mem_equal hm).2.not_lt
  · exact (lt_of_mem_above hm).2.not_gt

end Level

/-! ## Levels in memory -/

/-- The level is linked in the heap, with distinct addresses that were allocated. -/
structure Level.OnHeap (L : Level) (h : Heap Node) : Prop where
  linked : Seg Entry.addr Entry.node h L.entries none
  nodup : L.addrs.Nodup
  fresh : ∀ a ∈ L.addrs, a < h.next

namespace Level.OnHeap

variable {L : Level} {h h' : Heap Node} {t : ℤ} {e : Entry}

/-- A level stays in memory as long as its cells are not touched. -/
theorem congr (hL : L.OnHeap h) (hcell : ∀ a ∈ L.addrs, h'.cell a = h.cell a)
    (hnext : h.next ≤ h'.next) : L.OnHeap h' where
  linked := hL.linked.congr fun e he => hcell e.addr (List.mem_map_of_mem he)
  nodup := hL.nodup
  fresh a ha := (hL.fresh a ha).trans_le hnext

theorem length_le (hL : L.OnHeap h) : L.entries.length ≤ h.next := by
  have hsub : L.addrs ⊆ List.range h.next := fun a ha => List.mem_range.mpr (hL.fresh a ha)
  have hle := (hL.nodup.subperm hsub).length_le
  rwa [List.length_range, Level.addrs, List.length_map] at hle

theorem segs (hL : L.OnHeap h) (hs : L.Sorted) (t : ℤ) :
    Seg Entry.addr Entry.node h (L.lo t) (first Entry.addr (L.hi t) none) ∧
      Seg Entry.addr Entry.node h (L.hi t) none := by
  have hseg := hL.linked
  rw [L.entries_eq hs t] at hseg
  exact seg_append.mp hseg

theorem cell_pred (hL : L.OnHeap h) (hs : L.Sorted) (t : ℤ) :
    h.cell (L.pred t).addr = some ((L.pred t).node (first Entry.addr (L.hi t) none)) := by
  have hseg := (hL.segs hs t).1
  rw [L.lo_eq t] at hseg
  exact hseg.cell

end Level.OnHeap

/-! ## The walk on one level -/

/-- The inner loop passes the nodes below the target and stops at the last of them. -/
theorem moveRight_seg {h : Heap Node} {t : ℤ} {mid hi : List Entry} {e : Entry}
    (hseg : Seg Entry.addr Entry.node h (e :: (mid ++ hi)) none) (hmid : ∀ m ∈ mid, m.val < t)
    (hhi : ∀ m ∈ hi, ¬ m.val < t) {fuel : ℕ} (hfuel : mid.length < fuel) :
    moveRight h t fuel e.addr = some ((e :: mid).getLast (List.cons_ne_nil _ _)).addr := by
  induction mid generalizing e fuel with
  | nil =>
    obtain ⟨fuel, rfl⟩ := Nat.exists_eq_add_one_of_ne_zero hfuel.ne'
    obtain ⟨hcell, hrest⟩ := hseg
    rw [moveRight, hcell]
    cases hi with
    | nil => rfl
    | cons m hi =>
      have hm : ¬ m.val < t := hhi m List.mem_cons_self
      have hcellm : h.cell m.addr = some (m.node (first Entry.addr hi none)) := hrest.1
      simp only [List.nil_append, first, Entry.node, Option.bind_eq_bind, Option.bind_some,
        hcellm, if_neg hm]
      rfl
  | cons m mid ih =>
    obtain ⟨fuel, rfl⟩ := Nat.exists_eq_add_one_of_ne_zero (Nat.ne_zero_of_lt hfuel)
    obtain ⟨hcell, hrest⟩ := hseg
    have hm : m.val < t := hmid m List.mem_cons_self
    have hcellm : h.cell m.addr = some (m.node (first Entry.addr (mid ++ hi) none)) := hrest.1
    rw [moveRight, hcell]
    simp only [List.cons_append, first, Entry.node, Option.bind_eq_bind, Option.bind_some,
      hcellm, if_pos hm]
    rw [ih hrest (fun m' hm' => hmid m' (List.mem_cons_of_mem _ hm')) (by simpa using hfuel)]
    rfl

/-- **The walk on one level** ends at the same node wherever it starts among the nodes below
the target. -/
theorem moveRight_level {L : Level} {h : Heap Node} {t : ℤ} {e : Entry} (hL : L.OnHeap h)
    (hs : L.Sorted) (he : e ∈ L.lo t) :
    moveRight h t (h.next + 1) e.addr = some (L.pred t).addr := by
  obtain ⟨pre, mid, hlo⟩ := List.append_of_mem he
  have hseg := hL.linked
  rw [L.entries_eq hs t, hlo, List.append_assoc] at hseg
  have hlen : mid.length < h.next + 1 := by
    have hle := hL.length_le
    rw [L.entries_eq hs t, hlo] at hle
    simp only [List.length_append, List.length_cons] at hle
    omega
  rw [moveRight_seg (seg_append.mp hseg).2 (Level.lt_of_mem_lo hlo)
    (fun m hm => Level.not_lt_of_mem_hi hm) hlen]
  have hlast : L.pred t = (e :: mid).getLast (List.cons_ne_nil _ _) := by
    unfold Level.pred
    simp only [hlo]
    exact List.getLast_append_of_ne_nil _ (List.cons_ne_nil _ _)
  rw [hlast]

/-- Without a value equal to the target, the walk finds nothing on its right. -/
theorem rightIs_of_equal_nil {L : Level} {h : Heap Node} {t : ℤ} (hL : L.OnHeap h)
    (hs : L.Sorted) (hnil : equal Entry.val t L.body = []) :
    rightIs h ((L.pred t).node (first Entry.addr (L.hi t) none)) t = some none := by
  have hseg := (hL.segs hs t).2
  have hhi : L.hi t = above Entry.val t L.body := by rw [Level.hi, hnil, List.nil_append]
  rw [hhi] at hseg ⊢
  cases habove : above Entry.val t L.body with
  | nil => rfl
  | cons m rest =>
    rw [habove] at hseg
    have hcell : h.cell m.addr = some (m.node (first Entry.addr rest none)) := hseg.1
    have hne : ¬ m.val = t := by
      have hmem : m ∈ above Entry.val t L.body := by rw [habove]; exact List.mem_cons_self
      exact (lt_of_mem_above hmem).2.ne'
    simp only [rightIs, first, Entry.node, Option.bind_eq_bind, hcell, Option.bind_some, if_neg hne]

theorem rightIs_of_equal_cons {L : Level} {h : Heap Node} {t : ℤ} (hL : L.OnHeap h)
    (hs : L.Sorted) {x : Entry} {mid : List Entry} (hcons : equal Entry.val t L.body = x :: mid) :
    rightIs h ((L.pred t).node (first Entry.addr (L.hi t) none)) t
      = some (some (x.addr,
          x.node (first Entry.addr (mid ++ above Entry.val t L.body) none))) := by
  have hseg := (hL.segs hs t).2
  have hhi : L.hi t = x :: (mid ++ above Entry.val t L.body) := by
    rw [Level.hi, hcons, List.cons_append]
  rw [hhi] at hseg ⊢
  have hcell : h.cell x.addr
      = some (x.node (first Entry.addr (mid ++ above Entry.val t L.body) none)) := hseg.1
  have hval : x.val = t := by
    have hmem : x ∈ equal Entry.val t L.body := by rw [hcons]; exact List.mem_cons_self
    exact (eq_of_mem_equal hmem).2
  simp only [rightIs, first, Entry.node, Option.bind_eq_bind, hcell, Option.bind_some, if_pos hval]

/-! ## Towers -/

/-- The level `U` stands on `B`: the down pointer of its head leads to the head of `B`, those
of its other nodes to other nodes of `B`, in order, and each to a node of the same value. -/
structure Above (U B : Level) : Prop where
  hd : U.hd.target = B.hd.self
  body : (U.body.map Entry.target).Sublist (B.body.map Entry.self)

/-- The levels `L :: rest`, from the top to the bottom: sorted, each on the next one, and
without down pointers at the bottom. -/
def Tower : Level → List Level → Prop
  | L, [] => L.Sorted ∧ ∀ e ∈ L.entries, e.down = none
  | L, B :: rest => L.Sorted ∧ Above L B ∧ Tower B rest

/-- The values of a skip list are those of its bottom level. -/
def values : Level → List Level → Multiset ℤ
  | L, [] => L.vals
  | _, B :: rest => values B rest

theorem Tower.sorted {L : Level} {rest : List Level} (h : Tower L rest) : L.Sorted := by
  cases rest with
  | nil => exact h.1
  | cons B rest => exact h.1

namespace Above

variable {U B : Level} {t : ℤ}

theorem exists_below (h : Above U B) {e : Entry} (he : e ∈ U.body) :
    ∃ e' ∈ B.body, e.down = some e'.addr ∧ e'.val = e.val := by
  obtain ⟨e', he', heq⟩ := List.mem_map.mp (h.body.subset (List.mem_map_of_mem he))
  obtain ⟨haddr, hval⟩ := Prod.mk.inj heq
  exact ⟨e', he', haddr.symm, hval⟩

/-- The end of the walk on a level leads into the walk on the level below. -/
theorem down_pred (h : Above U B) (t : ℤ) :
    ∃ e ∈ B.lo t, (U.pred t).down = some e.addr := by
  rcases List.mem_cons.mp (U.pred_mem_lo t) with hhd | hmem
  · exact ⟨B.hd, List.mem_cons_self, by rw [hhd]; exact congrArg Prod.fst h.hd⟩
  · obtain ⟨hbody, hlt⟩ := lt_of_mem_below hmem
    obtain ⟨e, he, hdown, hval⟩ := h.exists_below hbody
    refine ⟨e, List.mem_cons_of_mem _ ?_, hdown⟩
    exact List.mem_filter.mpr ⟨he, by simpa [hval] using hlt⟩

theorem vals_subset (h : Above U B) : U.vals ⊆ B.vals := by
  intro v hv
  obtain ⟨e, he, rfl⟩ := List.mem_map.mp hv
  obtain ⟨e', he', -, hval⟩ := h.exists_below he
  exact List.mem_map.mpr ⟨e', he', hval⟩

theorem remove (h : Above U B) (t : ℤ) : Above (U.remove t) (B.remove t) where
  hd := h.hd
  body := by
    show ((removeOne Entry.val t U.body).map Entry.target).Sublist
      ((removeOne Entry.val t B.body).map Entry.self)
    rw [map_removeOne Entry.snd_target, map_removeOne Entry.snd_self]
    exact removeOne_sublist h.body

theorem insert (h : Above U B) {x y : Entry} (hxy : x.target = y.self) :
    Above (U.insert t x) (B.insert t y) where
  hd := h.hd
  body := by
    show ((insertFront Entry.val t x U.body).map Entry.target).Sublist
      ((insertFront Entry.val t y B.body).map Entry.self)
    rw [map_insertFront Entry.snd_target, map_insertFront Entry.snd_self, hxy]
    exact insertFront_sublist h.body _

theorem insert_lower (h : Above U B) (hB : B.Sorted) (t : ℤ) (y : Entry) :
    Above U (B.insert t y) where
  hd := h.hd
  body := h.body.trans ((sublist_insertFront hB y).map _)

end Above

theorem Tower.down_pred_nil {L : Level} (h : Tower L []) (t : ℤ) : (L.pred t).down = none := by
  apply h.2 _
  rw [L.entries_eq h.1 t]
  exact List.mem_append_left _ (L.pred_mem_lo t)

theorem Tower.vals_subset {L : Level} {rest : List Level} (h : Tower L rest) :
    L.vals ⊆ values L rest := by
  induction rest generalizing L with
  | nil => exact Multiset.Subset.refl _
  | cons B rest ih => exact Multiset.Subset.trans h.2.1.vals_subset (ih h.2.2)

/-- Whether the walk finds the value, in terms of the values of the level. -/
theorem Level.equal_eq_nil_iff {L : Level} {t : ℤ} :
    equal Entry.val t L.body = [] ↔ t ∉ L.vals :=
  SortedBlocks.equal_eq_nil_iff

theorem Level.mem_vals_of_equal_cons {L : Level} {t : ℤ} {x : Entry} {mid : List Entry}
    (hcons : equal Entry.val t L.body = x :: mid) : t ∈ L.vals := by
  by_contra hnot
  rw [Level.equal_eq_nil_iff.mpr hnot] at hcons
  cases hcons

/-! ## Towers in memory -/

/-- The addresses of a list of levels. -/
def addrsOf (Ls : List Level) : List Addr := Ls.flatMap Level.addrs

/-- The levels are in memory and share no nodes. -/
def InHeap (h : Heap Node) : List Level → Prop
  | [] => True
  | L :: Ls => L.OnHeap h ∧ (∀ a ∈ L.addrs, a ∉ addrsOf Ls) ∧ InHeap h Ls

namespace InHeap

variable {h h' : Heap Node} {Ls : List Level}

/-- Levels stay in memory as long as their cells are not touched. -/
theorem congr (hLs : InHeap h Ls) (hcell : ∀ a ∈ addrsOf Ls, h'.cell a = h.cell a)
    (hnext : h.next ≤ h'.next) : InHeap h' Ls := by
  induction Ls with
  | nil => trivial
  | cons L Ls ih =>
    obtain ⟨hL, hdisj, hrest⟩ := hLs
    have hmem : ∀ a, a ∈ L.addrs ∨ a ∈ addrsOf Ls → a ∈ addrsOf (L :: Ls) :=
      fun a ha => List.mem_append.mpr ha
    exact ⟨hL.congr (fun a ha => hcell a (hmem a (Or.inl ha))) hnext, hdisj,
      ih hrest fun a ha => hcell a (hmem a (Or.inr ha))⟩

theorem fresh (hLs : InHeap h Ls) {a : Addr} (ha : a ∈ addrsOf Ls) : a < h.next := by
  induction Ls with
  | nil => simp [addrsOf] at ha
  | cons L Ls ih =>
    obtain ⟨hL, -, hrest⟩ := hLs
    rcases List.mem_append.mp ha with ha | ha
    · exact hL.fresh a ha
    · exact ih hrest ha

theorem length_le (hLs : InHeap h Ls) : Ls.length ≤ h.next := by
  have hnodup : (Ls.map fun L => L.hd.addr).Nodup := by
    induction Ls with
    | nil => simp
    | cons L Ls ih =>
      obtain ⟨-, hdisj, hrest⟩ := hLs
      refine List.nodup_cons.mpr ⟨fun hmem => ?_, ih hrest⟩
      obtain ⟨K, hK, hhd⟩ := List.mem_map.mp hmem
      have hKL : K.hd.addr = L.hd.addr := hhd
      refine hdisj L.hd.addr List.mem_cons_self (List.mem_flatMap.mpr ⟨K, hK, ?_⟩)
      rw [← hKL]
      exact List.mem_cons_self
  have hsub : (Ls.map fun L => L.hd.addr) ⊆ List.range h.next := by
    intro a ha
    obtain ⟨K, hK, rfl⟩ := List.mem_map.mp ha
    exact List.mem_range.mpr (hLs.fresh (List.mem_flatMap.mpr ⟨K, hK, List.mem_cons_self⟩))
  have hle := (hnodup.subperm hsub).length_le
  rwa [List.length_range, List.length_map] at hle

end InHeap

/-! ## `serach` -/

/-- One round of `serach`: the value is on this level, or the search goes on below. -/
theorem serachFrom_level {h : Heap Node} {t : ℤ} {L : Level} {e : Entry} (hL : L.OnHeap h)
    (hs : L.Sorted) (he : e ∈ L.lo t) (fuel : ℕ) :
    serachFrom h t (fuel + 1) (some e.addr)
      = if t ∈ L.vals then some true else serachFrom h t fuel (L.pred t).down := by
  rw [serachFrom, moveRight_level hL hs he]
  simp only [Option.bind_eq_bind, Option.bind_some, hL.cell_pred hs t]
  cases hequal : equal Entry.val t L.body with
  | nil =>
    rw [rightIs_of_equal_nil hL hs hequal, if_neg (Level.equal_eq_nil_iff.mp hequal)]
    rfl
  | cons x mid =>
    have hmem : t ∈ L.vals := Level.mem_vals_of_equal_cons hequal
    rw [rightIs_of_equal_cons hL hs hequal, if_pos hmem]
    rfl

/-- **`serach` on a tower**, entered anywhere the walk may come from. -/
theorem serachFrom_tower {h : Heap Node} {t : ℤ} {rest : List Level} {L : Level} {e : Entry}
    (hT : Tower L rest) (hheap : InHeap h (L :: rest)) (he : e ∈ L.lo t) {fuel : ℕ}
    (hfuel : rest.length < fuel) :
    serachFrom h t fuel (some e.addr) = some (decide (t ∈ values L rest)) := by
  induction rest generalizing L e fuel with
  | nil =>
    obtain ⟨fuel, rfl⟩ := Nat.exists_eq_add_one_of_ne_zero (Nat.ne_zero_of_lt hfuel)
    rw [serachFrom_level hheap.1 hT.sorted he, hT.down_pred_nil t]
    by_cases hmem : t ∈ L.vals
    · simp [values, hmem]
    · simp [values, hmem, serachFrom]
  | cons B rest ih =>
    obtain ⟨fuel, rfl⟩ := Nat.exists_eq_add_one_of_ne_zero (Nat.ne_zero_of_lt hfuel)
    obtain ⟨e', he', hdown⟩ := hT.2.1.down_pred t
    rw [serachFrom_level hheap.1 hT.sorted he, hdown,
      ih hT.2.2 hheap.2.2 he' (by simpa using hfuel)]
    by_cases hmem : t ∈ L.vals
    · have hval : t ∈ values L (B :: rest) := hT.vals_subset hmem
      simp only [if_pos hmem, hval, decide_true]
    · rw [if_neg hmem]
      rfl

end SkipLists
