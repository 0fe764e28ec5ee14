/-
# Subtrees of processes

Where the links are in order, a process and its descendants can be taken away as a whole
(`without`).  `killProcess` does so (`kill_eq`), and the end of `removeProcess` takes one process
away (`discard_eq`).  The children vectors make a forest: every process has one parent, and children
are newer than their parents.
-/
import SystemsDesign.ProcessManager
import SystemsDesign.Forest

namespace ProcessManagers

open PointerHeap TransitionSystem Forest ProcessManager

variable {m m' : ProcessManager} {pid ppid : ℤ} {a b c x : Addr} {p q : Process} {D E : Set Addr}

/-! ## Well-formed tables -/

/-- What holds besides the links: addresses are below the next one, the table has a process under
its pid, children are newer than their parents, and no child is listed twice. -/
structure WellFormed (m : ProcessManager) : Prop where
  bound : ∀ a p, m.heap.cell a = some p → a < m.heap.next
  key : ∀ pid a, m.processTable pid = some a → ∃ p, m.heap.cell a = some p ∧ p.pid = pid
  newer : ∀ a p b, m.heap.cell a = some p → p.parent = some b → b < a
  nodup : ∀ a p, m.heap.cell a = some p → p.children.Nodup

/-- `y` is listed as a child of `x`. -/
def Child (m : ProcessManager) (x y : Addr) : Prop := ∃ p, m.heap.cell x = some p ∧ y ∈ p.children

theorem WellFormed.pid_unique (hw : WellFormed m) {pid' : ℤ} (h : m.processTable pid = some a)
    (h' : m.processTable pid' = some a) : pid = pid' := by
  obtain ⟨p, hp, rfl⟩ := hw.key pid a h
  obtain ⟨p', hp', rfl⟩ := hw.key pid' a h'
  rw [Option.some.inj (hp.symm.trans hp')]

/-- There is no process at the next address. -/
theorem WellFormed.ne_next (hw : WellFormed m) (ha : m.heap.cell a = some p) :
    a ≠ m.heap.next := (hw.bound a p ha).ne

/-- A process has one parent. -/
theorem Linked.child_unique (h : Linked m) (x y z : Addr) (hx : Child m x z) (hy : Child m y z) :
    x = y := by
  obtain ⟨p, hp, hz⟩ := hx
  obtain ⟨q, hq, hz'⟩ := hy
  obtain ⟨-, r, hr, hrx⟩ := h.children x p hp z hz
  obtain ⟨-, r', hr', hry⟩ := h.children y q hq z hz'
  obtain rfl := Option.some.inj (hr.symm.trans hr')
  exact Option.some.inj (hrx.symm.trans hry)

theorem Linked.child_newer (h : Linked m) (hw : WellFormed m) (x y : Addr) (hxy : Child m x y) :
    x < y := by
  obtain ⟨p, hp, hy⟩ := hxy
  obtain ⟨-, q, hq, hqx⟩ := h.children x p hp y hy
  exact hw.newer y q x hq hqx

theorem Linked.child_inTable (h : Linked m) (hc : Child m a c) :
    ∃ pid, m.processTable pid = some c := by
  obtain ⟨p, hp, hmem⟩ := hc
  exact (h.children a p hp c hmem).1

/-! ## Taking processes away -/

/-- Equal tables with equal processes. -/
theorem ext_cells (hcell : ∀ x, m.heap.cell x = m'.heap.cell x) (hnext : m.heap.next = m'.heap.next)
    (htable : ∀ k, m.processTable k = m'.processTable k) : m = m' := by
  obtain ⟨⟨cell, next⟩, table⟩ := m
  obtain ⟨⟨cell', next'⟩, table'⟩ := m'
  obtain rfl : cell = cell' := funext hcell
  obtain rfl : table = table' := funext htable
  obtain rfl : next = next' := hnext
  rfl

section Without

open scoped Classical

/-- The processes of `D` taken away, from memory, from the table and from the vectors. -/
noncomputable def without (m : ProcessManager) (D : Set Addr) : ProcessManager where
  heap := {
    cell := fun x =>
      if x ∈ D then none
      else (m.heap.cell x).map fun p => { p with children := p.children.filter (· ∉ D) }
    next := m.heap.next }
  processTable := fun pid => (m.processTable pid).filter (· ∉ D)

theorem cell_without_of_mem (ha : a ∈ D) : (without m D).heap.cell a = none := if_pos ha

theorem cell_without_of_notMem (ha : a ∉ D) :
    (without m D).heap.cell a
      = (m.heap.cell a).map fun p => { p with children := p.children.filter (· ∉ D) } := if_neg ha

theorem cell_without_eq_some :
    (without m D).heap.cell a = some q ↔ a ∉ D ∧ ∃ p, m.heap.cell a = some p ∧
      { p with children := p.children.filter (· ∉ D) } = q := by
  by_cases ha : a ∈ D
  · rw [cell_without_of_mem ha]
    simp [ha]
  · rw [cell_without_of_notMem ha, Option.map_eq_some_iff]
    simp [ha]

theorem processTable_without_eq_some :
    (without m D).processTable pid = some a ↔ m.processTable pid = some a ∧ a ∉ D := by
  rw [without, Option.filter_eq_some_iff]
  simp only [decide_eq_true_eq]

theorem inTable_without : InTable (without m D) a ↔ InTable m a ∧ a ∉ D := by
  simp only [InTable, processTable_without_eq_some, exists_and_right]

theorem mem_filter_notMem {l : List Addr} : a ∈ l.filter (· ∉ D) ↔ a ∈ l ∧ a ∉ D := by
  rw [List.mem_filter, decide_eq_true_eq]

theorem child_without (x y : Addr) : Child (without m D) x y ↔ Child m x y ∧ x ∉ D ∧ y ∉ D := by
  constructor
  · rintro ⟨q, hq, hy⟩
    obtain ⟨hx, p, hp, rfl⟩ := cell_without_eq_some.mp hq
    obtain ⟨hy, hyD⟩ := mem_filter_notMem.mp hy
    exact ⟨⟨p, hp, hy⟩, hx, hyD⟩
  · rintro ⟨⟨p, hp, hy⟩, hx, hyD⟩
    exact ⟨_, cell_without_eq_some.mpr ⟨hx, p, hp, rfl⟩, mem_filter_notMem.mpr ⟨hy, hyD⟩⟩

theorem without_without : without (without m D) E = without m (D ∪ E) := by
  refine ext_cells (fun x => ?_) rfl fun k => ?_
  · by_cases hD : x ∈ D
    · have hunion : (without m (D ∪ E)).heap.cell x = none := cell_without_of_mem (Or.inl hD)
      rw [hunion]
      by_cases hE : x ∈ E
      · exact cell_without_of_mem hE
      · rw [cell_without_of_notMem hE, cell_without_of_mem hD, Option.map_none]
    · by_cases hE : x ∈ E
      · have hunion : (without m (D ∪ E)).heap.cell x = none := cell_without_of_mem (Or.inr hE)
        rw [cell_without_of_mem hE, hunion]
      · rw [cell_without_of_notMem hE, cell_without_of_notMem hD,
          cell_without_of_notMem (by simp [hD, hE]), Option.map_map]
        congr 1
        funext p
        simp [List.filter_filter, Set.mem_union, not_or, Bool.and_comm]
  · apply Option.ext
    intro x
    rw [processTable_without_eq_some, processTable_without_eq_some, processTable_without_eq_some,
      Set.mem_union, not_or, and_assoc]

theorem without_empty : without m ∅ = m := by
  refine ext_cells (fun x => ?_) rfl fun k => ?_
  · rw [cell_without_of_notMem (Set.notMem_empty x)]
    simp
  · apply Option.ext
    intro x
    rw [processTable_without_eq_some]
    simp

/-- Taking processes away keeps a table well formed. -/
theorem WellFormed.without (hw : WellFormed m) (D : Set Addr) : WellFormed (without m D) where
  bound a q hq := by
    obtain ⟨-, p, hp, rfl⟩ := cell_without_eq_some.mp hq
    exact hw.bound a p hp
  key pid a h := by
    obtain ⟨h, ha⟩ := processTable_without_eq_some.mp h
    obtain ⟨p, hp, rfl⟩ := hw.key pid a h
    exact ⟨_, cell_without_eq_some.mpr ⟨ha, p, hp, rfl⟩, rfl⟩
  newer a q b hq hb := by
    obtain ⟨-, p, hp, rfl⟩ := cell_without_eq_some.mp hq
    exact hw.newer a p b hp hb
  nodup a q hq := by
    obtain ⟨-, p, hp, rfl⟩ := cell_without_eq_some.mp hq
    exact (hw.nodup a p hp).filter _

/-- Taking processes away with all their descendants keeps the links. -/
theorem Linked.without (h : Linked m) (hD : ∀ x y, x ∈ D → Child m x y → y ∈ D) :
    Linked (without m D) where
  parent pid a hpid := by
    obtain ⟨hpid, ha⟩ := processTable_without_eq_some.mp hpid
    obtain ⟨p, hp, hparent⟩ := h.parent pid a hpid
    refine ⟨_, cell_without_eq_some.mpr ⟨ha, p, hp, rfl⟩, fun b hb => ?_⟩
    obtain ⟨hin, q, hq, hmem⟩ := hparent b hb
    -- The parent stays, since its child does.
    have hbD : b ∉ D := fun hbD => ha (hD b a hbD ⟨q, hq, hmem⟩)
    exact ⟨inTable_without.mpr ⟨hin, hbD⟩, _, cell_without_eq_some.mpr ⟨hbD, q, hq, rfl⟩,
      mem_filter_notMem.mpr ⟨hmem, ha⟩⟩
  children a q hq c hc := by
    obtain ⟨-, p, hp, rfl⟩ := cell_without_eq_some.mp hq
    obtain ⟨hc, hcD⟩ := mem_filter_notMem.mp hc
    obtain ⟨hin, r, hr, hra⟩ := h.children a p hp c hc
    exact ⟨inTable_without.mpr ⟨hin, hcD⟩, _, cell_without_eq_some.mpr ⟨hcD, r, hr, rfl⟩, hra⟩

/-- A process that stays and has none of the others as a child does not change. -/
theorem cell_without_eq_self (hx : x ∉ D) (hnot : ∀ c ∈ D, ¬ Child m x c) :
    (without m D).heap.cell x = m.heap.cell x := by
  rw [cell_without_of_notMem hx]
  cases hq : m.heap.cell x with
  | none => rfl
  | some q =>
    have hfilter : q.children.filter (· ∉ D) = q.children := by
      refine List.filter_eq_self.mpr fun c hc => decide_eq_true fun hcD => ?_
      exact hnot c hcD ⟨q, hq, hc⟩
    rw [Option.map_some, hfilter]

/-- Only the parent lists a process. -/
theorem Linked.cell_without_singleton (h : Linked m) (hp : m.heap.cell a = some p) (hx : x ≠ a)
    (hparent : p.parent ≠ some x) :
    (ProcessManagers.without m {a}).heap.cell x = m.heap.cell x := by
  have hxa : x ∉ ({a} : Set Addr) := hx
  apply cell_without_eq_self hxa
  rintro c rfl ⟨q, hq, hmem⟩
  obtain ⟨-, p', hp', hx'⟩ := h.children x q hq c hmem
  exact hparent (Option.some.inj (hp.symm.trans hp') ▸ hx')

/-- Only one entry of the table is the process. -/
theorem WellFormed.processTable_without_singleton (hw : WellFormed m)
    (hpid : m.processTable pid = some a) (k : ℤ) :
    (ProcessManagers.without m {a}).processTable k = Function.update m.processTable pid none k := by
  apply Option.ext
  intro x
  rw [processTable_without_eq_some, Set.mem_singleton_iff]
  by_cases hk : k = pid
  · subst hk
    rw [Function.update_self, hpid, Option.some.injEq]
    simp [eq_comm]
  · rw [Function.update_of_ne hk]
    refine ⟨And.left, fun hx => ⟨hx, ?_⟩⟩
    rintro rfl
    exact hk (hw.pid_unique hx hpid)

/-- **`discard`** takes the process away. -/
theorem discard_eq (h : Linked m) (hw : WellFormed m) (hpid : m.processTable pid = some a)
    (hp : m.heap.cell a = some p) : m.discard pid a p.parent = some (without m {a}) := by
  have htable k := (hw.processTable_without_singleton hpid k).symm
  have hfreed (heap : Heap Process) : (heap.free a).cell a = (without m {a}).heap.cell a := by
    rw [cell_without_of_mem (Set.mem_singleton a)]
    exact Function.update_self ..
  unfold ProcessManager.discard
  cases hparent : p.parent with
  | none =>
    refine congrArg some (ext_cells (fun x => ?_) rfl htable)
    by_cases hx : x = a
    · rw [hx]
      exact hfreed _
    · rw [h.cell_without_singleton hp hx (by rw [hparent]; exact nofun)]
      exact Heap.cell_free_of_ne hx
  | some b =>
    obtain ⟨p', hp', hlisted⟩ := h.parent pid a hpid
    obtain rfl := Option.some.inj (hp.symm.trans hp')
    obtain ⟨-, q, hq, hmem⟩ := hlisted b hparent
    have hba : b ≠ a := (hw.newer a p b hp hparent).ne
    rw [unlink, hq]
    refine congrArg some (ext_cells (fun x => ?_) rfl htable)
    by_cases hx : x = a
    · rw [hx]
      exact hfreed _
    · apply (Heap.cell_free_of_ne hx).trans
      by_cases hxb : x = b
      · rw [hxb, Heap.cell_store_self, cell_without_of_notMem (by simpa using hba), hq]
        simp
      · have hne : p.parent ≠ some x := by
          rw [hparent]
          exact fun heq => hxb (Option.some.inj heq).symm
        rw [Heap.cell_store_of_ne hxb, h.cell_without_singleton hp hx hne]

end Without

/-! ## Changes that leave the links alone -/

/-- A process with the same pid and links. -/
def SameLinks (p p' : Process) : Prop :=
  p'.pid = p.pid ∧ p'.parent = p.parent ∧ p'.children = p.children

/-- The table with the process at `a` replaced. -/
def replaced (m : ProcessManager) (a : Addr) (p : Process) : ProcessManager :=
  { m with heap := m.heap.store a p }

section Replaced

variable {p' : Process} (hp : m.heap.cell a = some p) (hsame : SameLinks p p')

include hp hsame

theorem cell_of_replaced (hq : (replaced m a p').heap.cell x = some q) :
    ∃ r, m.heap.cell x = some r ∧ SameLinks r q := by
  by_cases hx : x = a
  · subst hx
    obtain rfl := Option.some.inj ((Heap.cell_store_self ..).symm.trans hq)
    exact ⟨p, hp, hsame⟩
  · exact ⟨q, (Heap.cell_store_of_ne hx).symm.trans hq, rfl, rfl, rfl⟩

theorem cell_replaced (hq : m.heap.cell x = some q) :
    ∃ r, (replaced m a p').heap.cell x = some r ∧ SameLinks q r := by
  by_cases hx : x = a
  · subst hx
    obtain rfl := Option.some.inj (hp.symm.trans hq)
    exact ⟨p', Heap.cell_store_self .., hsame⟩
  · exact ⟨q, (Heap.cell_store_of_ne hx).trans hq, rfl, rfl, rfl⟩

theorem WellFormed.replaced (hw : WellFormed m) : WellFormed (replaced m a p') where
  bound x q hq := by
    obtain ⟨r, hr, -⟩ := cell_of_replaced hp hsame hq
    exact hw.bound x r hr
  key k x hk := by
    obtain ⟨r, hr, hpid⟩ := hw.key k x hk
    obtain ⟨q, hq, hqr⟩ := cell_replaced hp hsame hr
    exact ⟨q, hq, hqr.1.trans hpid⟩
  newer x q b hq hb := by
    obtain ⟨r, hr, hrq⟩ := cell_of_replaced hp hsame hq
    exact hw.newer x r b hr (hrq.2.1 ▸ hb)
  nodup x q hq := by
    obtain ⟨r, hr, hrq⟩ := cell_of_replaced hp hsame hq
    exact hrq.2.2 ▸ hw.nodup x r hr

theorem Linked.replaced (h : Linked m) : Linked (replaced m a p') where
  parent k x hk := by
    obtain ⟨r, hr, hparent⟩ := h.parent k x hk
    obtain ⟨q, hq, hrq⟩ := cell_replaced hp hsame hr
    refine ⟨q, hq, fun b hb => ?_⟩
    obtain ⟨hin, t, ht, hmem⟩ := hparent b (hrq.2.1 ▸ hb)
    obtain ⟨u, hu, htu⟩ := cell_replaced hp hsame ht
    exact ⟨hin, u, hu, htu.2.2 ▸ hmem⟩
  children x q hq c hc := by
    obtain ⟨r, hr, hrq⟩ := cell_of_replaced hp hsame hq
    obtain ⟨hin, t, ht, htx⟩ := h.children x r hr c (hrq.2.2 ▸ hc)
    obtain ⟨u, hu, htu⟩ := cell_replaced hp hsame ht
    exact ⟨hin, u, hu, htu.2.1.trans htx⟩

end Replaced

/-- A process that is taken away may be changed before. -/
theorem without_replaced : without (replaced m a p) {a} = without m {a} := by
  refine ext_cells (fun x => ?_) rfl fun k => rfl
  by_cases hx : x = a
  · rw [hx, cell_without_of_mem (Set.mem_singleton a), cell_without_of_mem (Set.mem_singleton a)]
  · have hx' : x ∉ ({a} : Set Addr) := hx
    rw [cell_without_of_notMem hx', cell_without_of_notMem hx', replaced, Heap.cell_store_of_ne hx]

/-- The end of `killProcess`: the state is set first. -/
theorem discard_terminated (h : Linked m) (hw : WellFormed m) (hpid : m.processTable pid = some a)
    (hp : m.heap.cell a = some p) :
    { m with heap := m.heap.store a { p with state := .terminated } }.discard pid a p.parent
      = some (without m {a}) := by
  have hsame : SameLinks p { p with state := .terminated } := ⟨rfl, rfl, rfl⟩
  refine (discard_eq (h.replaced hp hsame) (hw.replaced hp hsame) hpid
    (Heap.cell_store_self ..)).trans ?_
  rw [without_replaced]

/-! ## `killProcess` -/

/-- The processes that the loop of `killProcess` takes away. -/
def belowAny (m : ProcessManager) (cs : List Addr) : Set Addr :=
  {x | ∃ c ∈ cs, x ∈ below (Child m) c}

theorem belowAny_nil : belowAny m [] = ∅ := by
  simp [belowAny]

theorem belowAny_cons (cs : List Addr) :
    belowAny m (c :: cs) = below (Child m) c ∪ belowAny m cs := by
  ext x
  simp [belowAny]

/-- The loop over the children, given what the call for one of them does. -/
theorem foldlM_kill {depth : ℕ}
    (hkill : ∀ m pid c, Linked m → WellFormed m → m.processTable pid = some c →
      m.heap.next < c + depth → kill depth m pid = some (without m (below (Child m) c)))
    (cs : List Addr) (h : Linked m) (hw : WellFormed m) (hnodup : cs.Nodup)
    (hchild : ∀ c ∈ cs, Child m a c) (hdepth : ∀ c ∈ cs, m.heap.next < c + depth) :
    cs.foldlM (fun (m : ProcessManager) child =>
        (m.heap.cell child).bind fun c => kill depth m c.pid) m
      = some (without m (belowAny m cs)) := by
  induction cs generalizing m with
  | nil =>
    rw [belowAny_nil, without_empty]
    rfl
  | cons c cs ih =>
    obtain ⟨hc, hcs⟩ := List.nodup_cons.mp hnodup
    have hac := hchild c List.mem_cons_self
    obtain ⟨k, hk⟩ := h.child_inTable hac
    obtain ⟨r, hr, rfl⟩ := hw.key k c hk
    have hkilled := hkill m r.pid c h hw hk (hdepth c List.mem_cons_self)
    have hdisjoint : ∀ d ∈ cs, Disjoint (below (Child m) d) (below (Child m) c) := fun d hd =>
      disjoint_below (h.child_newer hw) h.child_unique (hchild d (List.mem_cons_of_mem _ hd)) hac
        fun hdc => hc (hdc ▸ hd)
    have ha : a ∉ below (Child m) c := fun ha =>
      absurd (le_of_mem_below (h.child_newer hw) ha) (h.child_newer hw a c hac).not_ge
    rw [List.foldlM_cons, hr, Option.bind_some, hkilled]
    refine (ih (h.without fun x y => child_mem_below) (hw.without _) hcs (fun d hd => ?_)
      fun d hd => hdepth d (List.mem_cons_of_mem _ hd)).trans ?_
    · refine (child_without a d).mpr ⟨hchild d (List.mem_cons_of_mem _ hd), ha, ?_⟩
      exact Set.disjoint_left.mp (hdisjoint d hd) self_mem_below
    · -- The subtrees of the other children are not touched.
      have hsame : belowAny (without m (below (Child m) c)) cs = belowAny m cs := by
        ext x
        refine exists_congr fun d => and_congr_right fun hd => ?_
        rw [below_eq_of_disjoint child_without (hdisjoint d hd)]
      rw [hsame, without_without, belowAny_cons]

/-- **`killProcess`** takes the process and its descendants away. -/
theorem kill_eq (depth : ℕ) (m : ProcessManager) (pid : ℤ) (a : Addr) (h : Linked m)
    (hw : WellFormed m) (hpid : m.processTable pid = some a) (hdepth : m.heap.next < a + depth) :
    kill depth m pid = some (without m (below (Child m) a)) := by
  induction depth generalizing m pid a with
  | zero =>
    obtain ⟨p, hp, -⟩ := hw.key pid a hpid
    exact absurd (hw.bound a p hp) hdepth.not_gt
  | succ depth ih =>
    obtain ⟨p, hp, -⟩ := hw.key pid a hpid
    have hnewer := h.child_newer hw
    have hchild : ∀ c ∈ p.children, Child m a c := fun c hc => ⟨p, hp, hc⟩
    have hdepth' : ∀ c ∈ p.children, m.heap.next < c + depth := by
      intro c hc
      have hac : a + 1 ≤ c := hnewer a c (hchild c hc)
      calc m.heap.next < a + (depth + 1) := hdepth
        _ = (a + 1) + depth := by rw [Nat.add_right_comm, Nat.add_assoc]
        _ ≤ c + depth := Nat.add_le_add_right hac depth
    have hloop := foldlM_kill ih p.children h hw (hw.nodup a p hp) hchild hdepth'
    have hmem : ∀ x, x ∈ below (Child m) a ↔ x ∈ belowAny m p.children ∪ {a} := by
      intro x
      rw [mem_below_iff, Set.mem_union, Set.mem_singleton_iff, or_comm]
      refine or_congr_left (exists_congr fun c => and_congr_left fun _ => ?_)
      exact ⟨fun ⟨p', hp', hc⟩ => Option.some.inj (hp.symm.trans hp') ▸ hc, hchild c⟩
    have ha : a ∉ belowAny m p.children := fun ⟨c, hc, hac⟩ =>
      absurd (le_of_mem_below hnewer hac) (hnewer a c (hchild c hc)).not_ge
    -- After the loop the process is still there, without children.
    have h' : Linked (without m (belowAny m p.children)) :=
      h.without fun x y ⟨c, hc, hx⟩ hxy => ⟨c, hc, child_mem_below hx hxy⟩
    have hw' := hw.without (belowAny m p.children)
    have hpid' := processTable_without_eq_some.mpr ⟨hpid, ha⟩
    have hp' := cell_without_eq_some.mpr ⟨ha, p, hp, rfl⟩
    rw [kill, hpid]
    dsimp only
    rw [hp, Option.bind_some, hloop, Option.bind_some, hp', Option.bind_some,
      discard_terminated h' hw' hpid' hp', without_without, Set.ext hmem]

end ProcessManagers
