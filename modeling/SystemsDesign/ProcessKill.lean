/-
# What `killProcess` removes

In a table whose links are in order, the processes form a forest, and `killProcess` takes away the
subtree of a process: the process and its descendants leave the table and the memory, the parent no
longer lists the process, and no other process changes.
-/
import SystemsDesign.ProcessLinks

namespace ProcessManagers

open PointerHeap TransitionSystem Forest ProcessManager

variable {m : ProcessManager} {pid : ℤ} {a b x : Addr} {p q : Process}

/-! ## Tables in order -/

/-- The links are in order, and so is the rest. -/
structure InOrder (m : ProcessManager) : Prop where
  linked : Linked m
  wellFormed : WellFormed m

/-- Calls that keep the links lead from one table in order to another, and never access a deleted
process. -/
theorem InOrder.run (h : InOrder m) {calls : List Call} (hcalls : Along step KeepsLinks m calls) :
    ∃ m', run step m calls = some m' ∧ InOrder m' := by
  induction calls generalizing m with
  | nil => exact ⟨m, rfl, h⟩
  | cons call calls ih =>
    obtain ⟨hkeeps, hrest⟩ := along_cons.mp hcalls
    obtain ⟨m₁, hm₁, hw₁, hiff⟩ := step_outcome h.linked h.wellFormed call
    obtain ⟨m', hm', hm'order⟩ := ih ⟨hiff.mpr hkeeps, hw₁⟩ (hrest m₁ hm₁)
    exact ⟨m', by rw [run_cons, hm₁, Option.bind_some, hm'], hm'order⟩

/-! ## The subtree -/

/-- Only the parent of a process lists, from outside, a process of its subtree, and it lists the
process itself. -/
theorem InOrder.child_of_below (h : InOrder m) (hp : m.heap.cell a = some p) {c : Addr}
    (hc : c ∈ below (Child m) a) (hx : x ∉ below (Child m) a) (hchild : Child m x c) :
    c = a ∧ p.parent = some x := by
  have hca : c = a := by
    by_contra hne
    exact hx (parent_mem_below h.linked.child_unique hc hne hchild)
  subst hca
  obtain ⟨q, hq, hmem⟩ := hchild
  obtain ⟨-, r, hr, hparent⟩ := h.linked.children x q hq c hmem
  obtain rfl := Option.some.inj (hp.symm.trans hr)
  exact ⟨rfl, hparent⟩

theorem InOrder.parent_notMem (h : InOrder m) (hp : m.heap.cell a = some p)
    (hb : p.parent = some b) : b ∉ below (Child m) a := by
  intro hmem
  have hle := le_of_mem_below (h.linked.child_newer h.wellFormed) hmem
  exact absurd (h.wellFormed.newer a p b hp hb) hle.not_gt

theorem InOrder.cell_parent (h : InOrder m) (hp : m.heap.cell a = some p)
    (hb : p.parent = some b) (hq : m.heap.cell b = some q) :
    (without m (below (Child m) a)).heap.cell b
      = some { q with children := q.children.filter (· ≠ a) } := by
  have hnotMem := h.parent_notMem hp hb
  refine cell_without_eq_some.mpr ⟨hnotMem, q, hq, ?_⟩
  congr 1
  apply List.filter_congr
  intro c hc
  rw [decide_eq_decide, not_iff_not]
  constructor
  · exact fun hmem => (h.child_of_below hp hmem hnotMem ⟨q, hq, hc⟩).1
  · rintro rfl
    exact self_mem_below

theorem InOrder.cell_other (h : InOrder m) (hp : m.heap.cell a = some p)
    (hx : x ∉ below (Child m) a) (hparent : p.parent ≠ some x) :
    (without m (below (Child m) a)).heap.cell x = m.heap.cell x :=
  cell_without_eq_self hx fun _ hc hchild => hparent (h.child_of_below hp hc hx hchild).2

theorem kill_of_none (hpid : m.processTable pid = none) (depth : ℕ) :
    kill (depth + 1) m pid = some m := by
  rw [kill, hpid]

/-- **`killProcess` removes exactly a subtree.**  After any calls that keep the links (a pid is
added that is not in the table, or whose process has no links and is not to be the parent; a process
is removed that has no children), none of which fails, and for every pid:

* the recursion ends at a depth that the number of processes bounds;
* a pid that is not in the table changes nothing;
* otherwise the table keeps exactly the processes that are not the process or one of its
  descendants, its parent no longer lists it, and every other process is as it was. -/
theorem killProcess_removes_subtree (calls : List Call) (hcalls : Along step KeepsLinks {} calls) :
    ∃ m, run step {} calls = some m ∧ ∀ pid, ∃ m', m.killProcess pid = some m' ∧
      (∀ depth, m.heap.next < depth → kill depth m pid = some m') ∧
      (m.processTable pid = none → m' = m) ∧
      ∀ a p, m.processTable pid = some a → m.heap.cell a = some p →
        (∀ k x, m'.processTable k = some x ↔
          m.processTable k = some x ∧ ¬ Relation.ReflTransGen (Child m) a x) ∧
        (∀ b q, p.parent = some b → m.heap.cell b = some q →
          m'.heap.cell b = some { q with children := q.children.filter (· ≠ a) }) ∧
        ∀ x, ¬ Relation.ReflTransGen (Child m) a x → p.parent ≠ some x →
          m'.heap.cell x = m.heap.cell x := by
  obtain ⟨m, hrun, h⟩ := InOrder.run ⟨linked_new, wellFormed_new⟩ hcalls
  refine ⟨m, hrun, fun pid => ?_⟩
  cases hpid : m.processTable pid with
  | none =>
    refine ⟨m, kill_of_none hpid _, fun depth hdepth => ?_, fun _ => rfl, fun a p ha => ?_⟩
    · obtain ⟨n, rfl⟩ := Nat.exists_eq_succ_of_ne_zero (Nat.ne_zero_of_lt hdepth)
      exact kill_of_none hpid n
    · cases ha
  | some a =>
    have hkill : ∀ depth, m.heap.next < depth →
        kill depth m pid = some (without m (below (Child m) a)) := fun depth hdepth =>
      kill_eq depth m pid a h.linked h.wellFormed hpid (hdepth.trans_le (Nat.le_add_left _ _))
    refine ⟨_, hkill _ (Nat.lt_succ_self _), hkill, fun hnone => absurd hnone (by simp), ?_⟩
    intro a' p ha' hp
    obtain rfl := Option.some.inj ha'
    exact ⟨fun k x => processTable_without_eq_some, fun b q hb hq => h.cell_parent hp hb hq,
      fun x hx hparent => h.cell_other hp hx hparent⟩

/-- A process with a child and a grandchild. -/
theorem killProcess_removes_subtree_three :
    ∃ m, run step {} [.addProcess 1 (-1), .addProcess 2 1, .addProcess 3 2] = some m ∧
      ∃ m', m.killProcess 2 = some m' := by
  have hcalls : Along step KeepsLinks {}
      [.addProcess 1 (-1), .addProcess 2 1, .addProcess 3 2] := by
    refine along_cons.mpr ⟨fun a p ha => ?_, fun t ht => along_cons.mpr ⟨fun a p ha => ?_,
      fun t' ht' => along_cons.mpr ⟨fun a p ha => ?_, fun _ _ => along_nil _ _ _⟩⟩⟩
    · cases ha
    · obtain rfl := Option.some.inj ht
      cases ha
    · obtain rfl := Option.some.inj ht
      obtain rfl := Option.some.inj ht'
      cases ha
  obtain ⟨m, hrun, hkill⟩ := killProcess_removes_subtree _ hcalls
  obtain ⟨m', hm', -⟩ := hkill 2
  exact ⟨m, hrun, m', hm'⟩

end ProcessManagers
