/-
# The links of the process table

Which calls keep the parent and child links in order.  `killProcess` always does.  `removeProcess`
does exactly for a process without children: the parent pointers of the children would dangle.
`addProcess` does exactly if it does not put a process aside that has links.
-/
import SystemsDesign.ProcessTree

namespace ProcessManagers

open PointerHeap TransitionSystem Forest ProcessManager

variable {m m' : ProcessManager} {pid ppid : ℤ} {a b c x : Addr} {p q : Process}

/-! ## `addProcess` -/

/-- The table with a new process. -/
def added (m : ProcessManager) (pid ppid : ℤ) : ProcessManager where
  heap := {
    cell := fun x =>
      if x = m.heap.next then some { pid := pid, ppid := ppid, parent := m.processTable ppid }
      else (m.heap.cell x).map fun q => { q with
        children := if m.processTable ppid = some x then q.children ++ [m.heap.next]
          else q.children }
    next := m.heap.next + 1 }
  processTable := Function.update m.processTable pid (some m.heap.next)

theorem cell_added_next :
    (added m pid ppid).heap.cell m.heap.next
      = some { pid := pid, ppid := ppid, parent := m.processTable ppid } := if_pos rfl

theorem cell_added_of_ne (hx : x ≠ m.heap.next) :
    (added m pid ppid).heap.cell x = (m.heap.cell x).map fun q => { q with
      children := if m.processTable ppid = some x then q.children ++ [m.heap.next]
        else q.children } := if_neg hx

theorem processTable_added_self : (added m pid ppid).processTable pid = some m.heap.next :=
  Function.update_self ..

theorem processTable_added_of_ne {k : ℤ} (hk : k ≠ pid) :
    (added m pid ppid).processTable k = m.processTable k := Function.update_of_ne hk ..

/-- **`addProcess`** adds the process, and lists it with its parent. -/
theorem addProcess_eq (hw : WellFormed m) (pid ppid : ℤ) :
    m.addProcess pid ppid = some (added m pid ppid) := by
  rw [addProcess]
  cases hparent : m.processTable ppid with
  | none =>
    refine congrArg some (ext_cells (fun x => ?_) rfl fun k => rfl)
    by_cases hx : x = m.heap.next
    · rw [hx, cell_added_next, hparent]
      exact Heap.cell_alloc_next ..
    · rw [cell_added_of_ne hx, hparent]
      apply (Heap.cell_alloc_of_ne hx).trans
      simp
  | some b =>
    obtain ⟨q, hq, -⟩ := hw.key ppid b hparent
    dsimp only
    rw [hq, Option.map_some]
    refine congrArg some (ext_cells (fun x => ?_) rfl fun k => rfl)
    have hb := hw.ne_next hq
    by_cases hx : x = m.heap.next
    · rw [hx, cell_added_next, hparent]
      exact (Heap.cell_store_of_ne hb.symm).trans (Heap.cell_alloc_next ..)
    · rw [cell_added_of_ne hx, hparent]
      by_cases hxb : x = b
      · rw [hxb, hq, Option.map_some, if_pos rfl]
        exact Heap.cell_store_self ..
      · have hne : some b ≠ some x := fun heq => hxb (Option.some.inj heq).symm
        apply ((Heap.cell_store_of_ne hxb).trans (Heap.cell_alloc_of_ne hx)).trans
        simp [hne]

theorem cell_added (hw : WellFormed m) (pid ppid : ℤ) (hq : m.heap.cell x = some q) :
    ∃ r, (added m pid ppid).heap.cell x = some r ∧ r.pid = q.pid ∧ r.parent = q.parent ∧
      ∀ c, c ∈ r.children ↔
        c ∈ q.children ∨ m.processTable ppid = some x ∧ c = m.heap.next := by
  refine ⟨_, (cell_added_of_ne (hw.ne_next hq)).trans (congrArg (Option.map _) hq), rfl, rfl, ?_⟩
  intro c
  by_cases hx : m.processTable ppid = some x
  · simp [hx]
  · simp [hx]

theorem cell_of_added (hq : (added m pid ppid).heap.cell x = some q) :
    x = m.heap.next ∧ q = { pid := pid, ppid := ppid, parent := m.processTable ppid } ∨
      ∃ r, m.heap.cell x = some r := by
  by_cases hx : x = m.heap.next
  · rw [hx, cell_added_next] at hq
    exact Or.inl ⟨hx, (Option.some.inj hq).symm⟩
  · rw [cell_added_of_ne hx] at hq
    obtain ⟨r, hr, -⟩ := Option.map_eq_some_iff.mp hq
    exact Or.inr ⟨r, hr⟩

/-- The process that had the pid before is not in the table any more. -/
theorem notInTable_added (hw : WellFormed m) (ha : m.processTable pid = some a) :
    ¬ InTable (added m pid ppid) a := by
  rintro ⟨k, hk⟩
  obtain ⟨p, hp, -⟩ := hw.key pid a ha
  by_cases hkp : k = pid
  · rw [hkp, processTable_added_self] at hk
    exact hw.ne_next hp (Option.some.inj hk).symm
  · rw [processTable_added_of_ne hkp] at hk
    exact hkp (hw.pid_unique hk ha)

/-- All others still are. -/
theorem inTable_added (ha : InTable m a) (hne : m.processTable pid ≠ some a) :
    InTable (added m pid ppid) a := by
  obtain ⟨k, hk⟩ := ha
  refine ⟨k, (processTable_added_of_ne ?_).trans hk⟩
  rintro rfl
  exact hne hk

theorem inTable_added_next : InTable (added m pid ppid) m.heap.next :=
  ⟨pid, processTable_added_self⟩

theorem WellFormed.added (hw : WellFormed m) (h : Linked m) (pid ppid : ℤ) :
    WellFormed (added m pid ppid) where
  bound x q hq := by
    rcases cell_of_added hq with ⟨rfl, -⟩ | ⟨r, hr⟩
    · exact Nat.lt_succ_self _
    · exact (hw.bound x r hr).trans (Nat.lt_succ_self _)
  key k x hk := by
    by_cases hkp : k = pid
    · rw [hkp, processTable_added_self] at hk
      obtain rfl := Option.some.inj hk
      exact ⟨_, cell_added_next, hkp.symm⟩
    · rw [processTable_added_of_ne hkp] at hk
      obtain ⟨q, hq, rfl⟩ := hw.key k x hk
      obtain ⟨r, hr, hpid, -⟩ := cell_added hw pid ppid hq
      exact ⟨r, hr, hpid⟩
  newer x q b hq hb := by
    rcases cell_of_added hq with ⟨rfl, rfl⟩ | ⟨r, hr⟩
    · obtain ⟨t, ht, -⟩ := hw.key ppid b hb
      exact hw.bound b t ht
    · obtain ⟨r', hr', -, hparent, -⟩ := cell_added hw pid ppid hr
      obtain rfl := Option.some.inj (hr'.symm.trans hq)
      exact hw.newer x r b hr (hparent ▸ hb)
  nodup x q hq := by
    by_cases hx : x = m.heap.next
    · rw [hx, cell_added_next] at hq
      obtain rfl := Option.some.inj hq
      exact List.nodup_nil
    · rw [cell_added_of_ne hx] at hq
      obtain ⟨r, hr, rfl⟩ := Option.map_eq_some_iff.mp hq
      have hnodup := hw.nodup x r hr
      split_ifs
      · apply hnodup.append (List.nodup_singleton _)
        rw [List.disjoint_singleton]
        intro hmem
        obtain ⟨-, t, ht, -⟩ := h.children x r hr _ hmem
        exact hw.ne_next ht rfl
      · exact hnodup

/-- `addProcess` breaks a link if it puts a process aside that has one. -/
theorem Linked.keepsLinks_of_added (h : Linked m) (hw : WellFormed m)
    (h' : Linked (added m pid ppid)) : KeepsLinks m (.addProcess pid ppid) := by
  intro a p ha hp
  have hout : ¬ InTable (added m pid ppid) a := notInTable_added hw ha
  refine ⟨?_, ?_, ?_⟩
  · -- Its parent would still list it.
    by_contra hne
    obtain ⟨b, hb⟩ := Option.ne_none_iff_exists'.mp hne
    obtain ⟨p', hp', hparent⟩ := h.parent pid a ha
    obtain rfl := Option.some.inj (hp.symm.trans hp')
    obtain ⟨-, q, hq, hmem⟩ := hparent b hb
    obtain ⟨r, hr, -, -, hchildren⟩ := cell_added hw pid ppid hq
    exact hout (h'.children b r hr a ((hchildren a).mpr (Or.inl hmem))).1
  · -- Its children would still point to it.
    by_contra hne
    obtain ⟨c, hc⟩ := List.exists_mem_of_ne_nil _ hne
    obtain ⟨⟨k, hk⟩, q, hq, hqa⟩ := h.children a p hp c hc
    have hkp : k ≠ pid := by
      rintro rfl
      obtain rfl := Option.some.inj (ha.symm.trans hk)
      exact absurd (hw.newer a q a hq hqa) (lt_irrefl _)
    obtain ⟨r, hr, hparent⟩ := h'.parent k c ((processTable_added_of_ne hkp).trans hk)
    obtain ⟨r', hr', -, hpr, -⟩ := cell_added hw pid ppid hq
    obtain rfl := Option.some.inj (hr.symm.trans hr')
    exact hout (hparent a (hpr.trans hqa)).1
  · -- It would be the parent of the new process.
    rintro rfl
    obtain ⟨r, hr, hparent⟩ := h'.parent ppid _ processTable_added_self
    obtain rfl := Option.some.inj (cell_added_next.symm.trans hr)
    exact hout (hparent a ha).1

/-- `addProcess` keeps the links otherwise. -/
theorem Linked.added (h : Linked m) (hw : WellFormed m)
    (hkeeps : KeepsLinks m (.addProcess pid ppid)) : Linked (added m pid ppid) where
  parent k x hk := by
    by_cases hkp : k = pid
    · rw [hkp, processTable_added_self] at hk
      obtain rfl := Option.some.inj hk
      refine ⟨_, cell_added_next, fun b hb => ?_⟩
      obtain ⟨q, hq, -⟩ := hw.key ppid b hb
      have hne : m.processTable pid ≠ some b := fun hpid =>
        (hkeeps b q hpid hq).2.2 (hw.pid_unique hb hpid)
      obtain ⟨r, hr, -, -, hchildren⟩ := cell_added hw pid ppid hq
      exact ⟨inTable_added ⟨ppid, hb⟩ hne, r, hr, (hchildren _).mpr (Or.inr ⟨hb, rfl⟩)⟩
    · rw [processTable_added_of_ne hkp] at hk
      obtain ⟨p, hp, hparent⟩ := h.parent k x hk
      obtain ⟨r, hr, -, hpr, -⟩ := cell_added hw pid ppid hp
      refine ⟨r, hr, fun b hb => ?_⟩
      obtain ⟨hin, q, hq, hmem⟩ := hparent b (hpr ▸ hb)
      have hne : m.processTable pid ≠ some b := by
        intro hpid
        rw [(hkeeps b q hpid hq).2.1] at hmem
        exact absurd hmem List.not_mem_nil
      obtain ⟨t, ht, -, -, hchildren⟩ := cell_added hw pid ppid hq
      exact ⟨inTable_added hin hne, t, ht, (hchildren x).mpr (Or.inl hmem)⟩
  children x q hq c hc := by
    rcases cell_of_added hq with ⟨-, rfl⟩ | ⟨r, hr⟩
    · exact absurd hc List.not_mem_nil
    · obtain ⟨r', hr', -, -, hchildren⟩ := cell_added hw pid ppid hr
      obtain rfl := Option.some.inj (hq.symm.trans hr')
      rcases (hchildren c).mp hc with hold | ⟨hx, rfl⟩
      · obtain ⟨hin, t, ht, htx⟩ := h.children x r hr c hold
        have hne : m.processTable pid ≠ some c := by
          intro hpid
          rw [(hkeeps c t hpid ht).1] at htx
          cases htx
        obtain ⟨u, hu, -, hparent, -⟩ := cell_added hw pid ppid ht
        exact ⟨inTable_added hin hne, u, hu, hparent.trans htx⟩
      · exact ⟨inTable_added_next, _, cell_added_next, hx⟩

/-! ## `removeProcess` -/

/-- `removeProcess` keeps the links exactly if the process has no children. -/
theorem linked_without_singleton_iff (h : Linked m) (hw : WellFormed m)
    (hp : m.heap.cell a = some p) : Linked (without m {a}) ↔ p.children = [] := by
  constructor
  · intro h'
    by_contra hne
    obtain ⟨c, hc⟩ := List.exists_mem_of_ne_nil _ hne
    obtain ⟨⟨k, hk⟩, q, hq, hqa⟩ := h.children a p hp c hc
    have hca : c ∉ ({a} : Set Addr) := (hw.newer c q a hq hqa).ne'
    obtain ⟨r, hr, hparent⟩ := h'.parent k c (processTable_without_eq_some.mpr ⟨hk, hca⟩)
    obtain ⟨-, q', hq', rfl⟩ := cell_without_eq_some.mp hr
    obtain rfl := Option.some.inj (hq.symm.trans hq')
    exact (inTable_without.mp (hparent a hqa).1).2 rfl
  · intro hnil
    apply h.without
    rintro x y rfl ⟨p', hp', hy⟩
    obtain rfl := Option.some.inj (hp.symm.trans hp')
    rw [hnil] at hy
    exact absurd hy List.not_mem_nil

/-! ## Every sequence of calls -/

/-- What a call does to links that are in order. -/
def Outcome (m : ProcessManager) (call : Call) : Prop :=
  ∃ m', step m call = some m' ∧ WellFormed m' ∧ (Linked m' ↔ KeepsLinks m call)

theorem update_outcome (h : Linked m) (hw : WellFormed m) (pid : ℤ) {change : Process → Process}
    (hsame : ∀ p, SameLinks p (change p)) :
    ∃ m', m.update pid change = some m' ∧ WellFormed m' ∧ Linked m' := by
  rw [ProcessManager.update]
  cases hpid : m.processTable pid with
  | none => exact ⟨m, rfl, hw, h⟩
  | some a =>
    obtain ⟨p, hp, -⟩ := hw.key pid a hpid
    dsimp only
    rw [hp, Option.map_some]
    exact ⟨_, rfl, hw.replaced hp (hsame p), h.replaced hp (hsame p)⟩

/-- **Every call** has a result where the links are in order, and keeps them in order exactly if it
meets the condition. -/
theorem step_outcome (h : Linked m) (hw : WellFormed m) (call : Call) : Outcome m call := by
  have hother : ∀ pid (change : Process → Process), (∀ p, SameLinks p (change p)) →
      ∃ m', m.update pid change = some m' ∧ WellFormed m' ∧ (Linked m' ↔ True) := by
    intro pid change hsame
    obtain ⟨m', hm', hw', h'⟩ := update_outcome h hw pid hsame
    exact ⟨m', hm', hw', iff_true_intro h'⟩
  cases call with
  | addProcess pid ppid =>
    exact ⟨_, addProcess_eq hw pid ppid, hw.added h pid ppid, h.keepsLinks_of_added hw, h.added hw⟩
  | removeProcess pid =>
    rw [Outcome, step, removeProcess]
    cases hpid : m.processTable pid with
    | none =>
      refine ⟨m, rfl, hw, iff_of_true h fun a p ha _ => ?_⟩
      rw [hpid] at ha
      cases ha
    | some a =>
      obtain ⟨p, hp, -⟩ := hw.key pid a hpid
      dsimp only
      rw [hp, Option.bind_some, discard_eq h hw hpid hp]
      refine ⟨_, rfl, hw.without _, ?_⟩
      rw [linked_without_singleton_iff h hw hp]
      constructor
      · intro hnil a' p' ha' hp'
        obtain rfl := Option.some.inj (hpid.symm.trans ha')
        exact Option.some.inj (hp.symm.trans hp') ▸ hnil
      · exact fun hkeeps => hkeeps a p hpid hp
  | killProcess pid =>
    rw [Outcome, step, killProcess]
    cases hpid : m.processTable pid with
    | none =>
      refine ⟨m, ?_, hw, iff_of_true h trivial⟩
      rw [kill, hpid]
    | some a =>
      refine ⟨_, kill_eq _ m pid a h hw hpid (Nat.lt_add_left a (Nat.lt_succ_self _)),
        hw.without _, iff_of_true (h.without fun x y => child_mem_below) trivial⟩
  | updateState pid state => exact hother pid _ fun p => ⟨rfl, rfl, rfl⟩
  | updateCpuTime pid cpuTime => exact hother pid _ fun p => ⟨rfl, rfl, rfl⟩
  | updateMemoryUsage pid memoryUsage => exact hother pid _ fun p => ⟨rfl, rfl, rfl⟩
  | setState pid state => exact hother pid _ fun p => ⟨rfl, rfl, rfl⟩

theorem wellFormed_new : WellFormed {} where
  bound _ _ hp := by cases hp
  key _ _ h := by cases h
  newer _ _ _ hp := by cases hp
  nodup _ _ hp := by cases hp

theorem linked_new : Linked {} where
  parent _ _ h := by cases h
  children _ _ hp := by cases hp

/-- **The links of the process table** are in order after every call of a sequence exactly if every
`addProcess` is for a pid that is not in the table, or whose process has no links and is not named
as the parent, and every `removeProcess` is for a process without children. -/
theorem processTree_linked_iff (calls : List Call) :
    Always step Linked {} calls ↔ Along step KeepsLinks {} calls := by
  refine always_iff_along (I := WellFormed) (fun m call m' hw h _ hm' => ?_)
    (fun m call m' hw h hm' => ?_) (fun m call hw h hstuck => ?_) wellFormed_new linked_new
  · obtain ⟨m₁, hm₁, hw₁, -⟩ := step_outcome h hw call
    exact Option.some.inj (hm₁.symm.trans hm') ▸ hw₁
  · obtain ⟨m₁, hm₁, -, hiff⟩ := step_outcome h hw call
    exact Option.some.inj (hm₁.symm.trans hm') ▸ hiff
  · obtain ⟨m₁, hm₁, -⟩ := step_outcome h hw call
    rw [hm₁] at hstuck
    cases hstuck

/-- Removing a process leaves the parent pointer of its child dangling, and adding a pid again
leaves the child with a parent that is not in the table. -/
theorem removed_parent_dangles :
    (∃ m, run step {} [.addProcess 1 (-1), .addProcess 2 1, .removeProcess 1] = some m ∧
      ¬ Linked m) ∧
    ∃ m, run step {} [.addProcess 1 (-1), .addProcess 2 1, .addProcess 1 (-1)] = some m ∧
      ¬ Linked m := by
  constructor
  · refine ⟨_, rfl, fun h => ?_⟩
    obtain ⟨p, hp, hparent⟩ := h.parent 2 1 rfl
    obtain rfl := Option.some.inj hp
    obtain ⟨-, q, hq, -⟩ := hparent 0 rfl
    cases hq
  · refine ⟨_, rfl, fun h => ?_⟩
    obtain ⟨p, hp, hparent⟩ := h.parent 2 1 rfl
    obtain rfl := Option.some.inj hp
    obtain ⟨⟨k, hk⟩, -⟩ := hparent 0 rfl
    by_cases h1 : k = 1
    · subst h1
      cases hk
    · by_cases h2 : k = 2
      · subst h2
        cases hk
      · have hnone : Function.update (Function.update (Function.update (fun _ => none) 1 (some 0)) 2
            (some 1)) 1 (some 2) k = some 0 := hk
        rw [Function.update_of_ne h1, Function.update_of_ne h2, Function.update_of_ne h1] at hnone
        cases hnone

end ProcessManagers
