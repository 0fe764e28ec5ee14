/-
# Linearization of the lock-free stack

Until its compare-exchange succeeds, a `push` owns its node: no other call has seen it.  All other
nodes are published, and a published node is never written again.  Since addresses are not reused
either, a `pop` whose compare-exchange finds `head` where it was before also knows the successor:
there is no ABA.  One frame rule says what the step of one call leaves alone for all the others.
-/
import SystemsDesign.LockFreeStack

namespace LockFreeStacks

open PointerHeap TransitionSystem

variable {T : Type*} {s s' : State T} {es : List (Addr × T)} {i j : ℕ} {c c' : Call T} {v : T}

/-! ## Owned and published nodes -/

/-- The node that the call still owns. -/
def Call.owns : Call T → Option Addr
  | .push _ (.load a) | .push _ (.link a _) | .push _ (.expect a) | .push _ (.cas a _) => some a
  | _ => none

/-- The call `i` owns the node `a`. -/
def Owns (s : State T) (i : ℕ) (a : Addr) : Prop :=
  ∃ c, s.calls[i]? = some c ∧ c.owns = some a

/-- A node that no call owns. -/
def Published (s : State T) (a : Addr) : Prop :=
  (∃ node, s.heap.cell a = some node) ∧ ∀ i, ¬ Owns s i a

/-- What the call `i` relies on. -/
def CallOk (s : State T) (i : ℕ) : Call T → Prop
  | .push _ .new | .push _ .done => True
  | .push v (.load a) | .push v (.link a _) | .push v (.expect a) =>
    ∃ next, s.heap.cell a = some ⟨v, next⟩
  | .push v (.cas a expected) => s.heap.cell a = some ⟨v, expected⟩
  | .pop .load _ => (i, .pop) ∉ s.log
  | .pop (.loop none) reads => none ∈ reads ∧ (i, .pop) ∉ s.log
  | .pop (.loop (some a)) _ => Published s a ∧ (i, .pop) ∉ s.log
  | .pop (.cas a next) _ =>
    Published s a ∧ (∃ v, s.heap.cell a = some ⟨v, next⟩) ∧ (i, .pop) ∉ s.log
  | .pop (.readVal a) _ =>
    Published s a ∧ ∃ v next, s.heap.cell a = some ⟨v, next⟩ ∧ Took s.log i v
  | .pop (.popped v) _ => Took s.log i v
  | .pop .empty reads => none ∈ reads

/-- The node of an entry of the list. -/
def entryNode (e : Addr × T) (next : Option Addr) : Node T := ⟨e.2, next⟩

/-- The invariant: `es` are the nodes from `head` on, with their values. -/
structure Valid (s : State T) (es : List (Addr × T)) : Prop where
  head_eq : s.head = first Prod.fst es none
  seg : Seg Prod.fst entryNode s.heap es none
  values : es.map Prod.snd = applied s.log
  published : ∀ e ∈ es, Published s e.1
  bound : ∀ a node, s.heap.cell a = some node → a < s.heap.next
  distinct : ∀ i j a, Owns s i a → Owns s j a → i = j
  calls : ∀ i c, s.calls[i]? = some c → CallOk s i c
  logged : ∀ entry ∈ s.log, entry.1 < s.calls.length

theorem reaches_of_seg {heap : Heap (Node T)} (h : Seg Prod.fst entryNode heap es none) :
    Reaches heap (first Prod.fst es none) (es.map Prod.snd) := by
  induction es with
  | nil => rfl
  | cons e es ih => exact ⟨e.1, _, rfl, h.1, ih h.2⟩

/-- The node that a call owns exists. -/
theorem CallOk.owned (h : CallOk s i c) {a : Addr} (ha : c.owns = some a) :
    ∃ node, s.heap.cell a = some node := by
  rcases c with ⟨v, phase⟩ | ⟨phase, reads⟩
  · cases phase with
    | new => cases ha
    | load b =>
      obtain ⟨next, hnext⟩ := h
      exact ⟨_, Option.some.inj ha ▸ hnext⟩
    | link b head =>
      obtain ⟨next, hnext⟩ := h
      exact ⟨_, Option.some.inj ha ▸ hnext⟩
    | expect b =>
      obtain ⟨next, hnext⟩ := h
      exact ⟨_, Option.some.inj ha ▸ hnext⟩
    | cas b expected => exact ⟨_, Option.some.inj ha ▸ h⟩
    | done => cases ha
  · cases ha

theorem Valid.owned (h : Valid s es) {a : Addr} (ha : Owns s i a) :
    ∃ node, s.heap.cell a = some node := by
  obtain ⟨c, hc, ha⟩ := ha
  exact (h.calls i c hc).owned ha

theorem Valid.head_published (h : Valid s es) {a : Addr} (ha : s.head = some a) :
    Published s a := by
  rw [h.head_eq] at ha
  cases es with
  | nil => cases ha
  | cons e es =>
    obtain rfl : e.1 = a := Option.some.inj ha
    exact h.published e List.mem_cons_self

/-! ## The frame rule -/

/-- A step of the call `i` writes to its own node only, and comes to own new nodes only. -/
structure Frame (s s' : State T) (i : ℕ) : Prop where
  calls : ∀ j, j ≠ i → s'.calls[j]? = s.calls[j]?
  owns : ∀ a, Owns s' i a → s.heap.cell a = none ∨ Owns s i a
  cell : ∀ a node, s.heap.cell a = some node → ¬ Owns s i a → s'.heap.cell a = some node
  log : s'.log = s.log ∨ ∃ op, s'.log = s.log ++ [(i, op)]

theorem Frame.owns_of_ne (h : Frame s s' i) (hj : j ≠ i) {a : Addr} :
    Owns s' j a ↔ Owns s j a := by
  rw [Owns, Owns, h.calls j hj]

theorem Frame.published (h : Frame s s' i) {a : Addr} (ha : Published s a) : Published s' a := by
  obtain ⟨⟨node, hnode⟩, hnone⟩ := ha
  refine ⟨⟨node, h.cell a node hnode (hnone i)⟩, fun j hj => ?_⟩
  by_cases hji : j = i
  · subst hji
    rcases h.owns a hj with hfree | hown
    · rw [hnode] at hfree
      cases hfree
    · exact hnone j hown
  · exact hnone j ((h.owns_of_ne hji).mp hj)

theorem Frame.published_cell (h : Frame s s' i) {a : Addr} (ha : Published s a) {node : Node T}
    (hnode : s.heap.cell a = some node) : s'.heap.cell a = some node :=
  h.cell a node hnode (ha.2 i)

theorem Frame.notMem_log (h : Frame s s' i) (hj : j ≠ i) (hlog : (j, Op.pop) ∉ s.log) :
    (j, Op.pop) ∉ s'.log := by
  rcases h.log with heq | ⟨op, heq⟩
  · rw [heq]
    exact hlog
  · rw [heq, List.mem_append, List.mem_singleton]
    rintro (hmem | hmem)
    · exact hlog hmem
    · exact hj (congrArg Prod.fst hmem)

theorem Frame.took (h : Frame s s' i) (hj : j ≠ i) (ht : Took s.log j v) : Took s'.log j v := by
  rcases h.log with heq | ⟨op, heq⟩
  · rw [heq]
    exact ht
  · rw [heq]
    exact ht.concat hj op

/-- What a call relies on: published nodes, its own node, and what the log says about it. -/
theorem CallOk.mono (hc : CallOk s j c) (hpub : ∀ a, Published s a → Published s' a)
    (hcell : ∀ a node, Published s a ∨ c.owns = some a → s.heap.cell a = some node →
      s'.heap.cell a = some node)
    (hnot : (j, Op.pop) ∉ s.log → (j, Op.pop) ∉ s'.log)
    (htook : ∀ v, Took s.log j v → Took s'.log j v) : CallOk s' j c := by
  rcases c with ⟨v, phase⟩ | ⟨phase, reads⟩
  · cases phase with
    | new => trivial
    | load a => exact hc.imp fun next hnext => hcell a _ (.inr rfl) hnext
    | link a head => exact hc.imp fun next hnext => hcell a _ (.inr rfl) hnext
    | expect a => exact hc.imp fun next hnext => hcell a _ (.inr rfl) hnext
    | cas a expected => exact hcell a _ (.inr rfl) hc
    | done => trivial
  · cases phase with
    | load => exact hnot hc
    | loop oldHead =>
      cases oldHead with
      | none => exact ⟨hc.1, hnot hc.2⟩
      | some a => exact ⟨hpub a hc.1, hnot hc.2⟩
    | cas a next =>
      obtain ⟨ha, ⟨v, hv⟩, hlog⟩ := hc
      exact ⟨hpub a ha, ⟨v, hcell a _ (.inl ha) hv⟩, hnot hlog⟩
    | readVal a =>
      obtain ⟨ha, v, next, hv, ht⟩ := hc
      exact ⟨hpub a ha, v, next, hcell a _ (.inl ha) hv, htook v ht⟩
    | popped v => exact htook v hc
    | empty => exact hc

/-- Two calls own different nodes afterwards. -/
theorem Frame.distinct (h : Frame s s' i) (hv : Valid s es) {k l : ℕ} {a : Addr}
    (hk : Owns s' k a) (hl : Owns s' l a) : k = l := by
  -- A node that only the call `i` owns afterwards was new.
  have hother : ∀ j, j ≠ i → Owns s' j a → ¬ Owns s' i a := by
    intro j hj hja hia
    rw [h.owns_of_ne hj] at hja
    rcases h.owns a hia with hfree | hown
    · obtain ⟨node, hnode⟩ := hv.owned hja
      rw [hnode] at hfree
      cases hfree
    · exact hj (hv.distinct j i a hja hown)
  by_cases hki : k = i
  · by_cases hli : l = i
    · rw [hki, hli]
    · exact absurd (hki ▸ hk) (hother l hli hl)
  · by_cases hli : l = i
    · exact absurd (hli ▸ hl) (hother k hki hk)
    · exact hv.distinct k l a ((h.owns_of_ne hki).mp hk) ((h.owns_of_ne hli).mp hl)

/-- **The frame rule.**  After a step of the call `i` it remains to show what is said about `head`,
the bound of the addresses and the call itself. -/
theorem Frame.valid (h : Frame s s' i) (hv : Valid s es) {es' : List (Addr × T)}
    (hhead : s'.head = first Prod.fst es' none) (hseg : Seg Prod.fst entryNode s'.heap es' none)
    (hvalues : es'.map Prod.snd = applied s'.log) (hpub : ∀ e ∈ es', Published s' e.1)
    (hbound : ∀ a node, s'.heap.cell a = some node → a < s'.heap.next)
    (hcall : ∀ c, s'.calls[i]? = some c → CallOk s' i c)
    (hi : i < s'.calls.length) (hlength : s.calls.length ≤ s'.calls.length) : Valid s' es' where
  head_eq := hhead
  seg := hseg
  values := hvalues
  published := hpub
  bound := hbound
  distinct _ _ _ := h.distinct hv
  calls j d hd := by
    by_cases hj : j = i
    · exact hj ▸ hcall d (hj ▸ hd)
    · rw [h.calls j hj] at hd
      refine (hv.calls j d hd).mono (fun a => h.published) (fun a node ha hnode => ?_)
        (h.notMem_log hj) fun v => h.took hj
      rcases ha with hpublished | hown
      · exact h.published_cell hpublished hnode
      · exact h.cell a node hnode fun hi => hj (hv.distinct j i a ⟨d, hd, hown⟩ hi)
  logged entry hentry := by
    rcases h.log with heq | ⟨op, heq⟩
    · rw [heq] at hentry
      exact (hv.logged entry hentry).trans_le hlength
    · rw [heq, List.mem_append, List.mem_singleton] at hentry
      rcases hentry with hold | rfl
      · exact (hv.logged entry hold).trans_le hlength
      · exact hi

/-- The list does not change when `head` and the log do not. -/
theorem Frame.valid_same (h : Frame s s' i) (hv : Valid s es) (hhead : s'.head = s.head)
    (hlog : s'.log = s.log) (hbound : ∀ a node, s'.heap.cell a = some node → a < s'.heap.next)
    (hcall : ∀ c, s'.calls[i]? = some c → CallOk s' i c) (hi : i < s'.calls.length)
    (hlength : s.calls.length ≤ s'.calls.length) : Valid s' es := by
  refine h.valid hv (hhead.trans hv.head_eq) (hv.seg.congr fun e he => ?_) (hlog ▸ hv.values)
    (fun e he => h.published (hv.published e he)) hbound hcall hi hlength
  obtain ⟨node, hnode⟩ := (hv.published e he).1
  rw [h.published_cell (hv.published e he) hnode, hnode]

/-- The frame of a step that leads the call from `c` to `c'`. -/
theorem frame_of_set (hc : s.calls[i]? = some c) (hcalls : s'.calls = s.calls.set i c')
    (howns : ∀ a, c'.owns = some a → s.heap.cell a = none ∨ c.owns = some a)
    (hcell : ∀ a node, s.heap.cell a = some node → c.owns ≠ some a → s'.heap.cell a = some node)
    (hlog : s'.log = s.log ∨ ∃ op, s'.log = s.log ++ [(i, op)]) : Frame s s' i where
  calls j hj := by rw [hcalls, List.getElem?_set_ne hj.symm]
  owns a := by
    rintro ⟨d, hd, ha⟩
    obtain ⟨hlt, -⟩ := List.getElem?_eq_some_iff.mp hc
    rw [hcalls, List.getElem?_set_self hlt] at hd
    obtain rfl := Option.some.inj hd
    exact (howns a ha).imp_right fun h => ⟨c, hc, h⟩
  cell a node hnode hnot := hcell a node hnode fun ha => hnot ⟨c, hc, ha⟩
  log := hlog

section Steps

variable (hv : Valid s es) (hc : s.calls[i]? = some c)

include hc in
theorem set_call (c' : Call T) : (s.calls.set i c')[i]? = some c' := by
  obtain ⟨hlt, -⟩ := List.getElem?_eq_some_iff.mp hc
  exact List.getElem?_set_self hlt

include hc in
theorem lt_length_set (c' : Call T) : i < (s.calls.set i c').length := by
  rw [List.length_set]
  exact (List.getElem?_eq_some_iff.mp hc).1

include hv hc in
/-- A step that changes the local variables of the call only. -/
theorem Valid.goto (howns : ∀ a, c'.owns = some a → c.owns = some a) (hok : CallOk s i c') :
    Valid (s.goto i c') es := by
  have hframe : Frame s (s.goto i c') i :=
    frame_of_set hc rfl (fun a ha => .inr (howns a ha)) (fun _ _ hnode _ => hnode) (.inl rfl)
  refine hframe.valid_same hv rfl rfl hv.bound (fun d hd => ?_) (lt_length_set hc c')
    (List.length_set ..).ge
  obtain rfl : c' = d := Option.some.inj ((set_call hc c').symm.trans hd)
  exact hok.mono (fun a => hframe.published) (fun _ _ _ hnode => hnode) id fun _ => id

end Steps

/-! ## The steps of `push` -/

/-- The new node is at an address without a node. -/
theorem Valid.pushNew (hv : Valid s es) (hc : s.calls[i]? = some (.push v .new)) :
    Valid { s.goto i (.push v (.load s.heap.next)) with heap := s.heap.alloc ⟨v, none⟩ } es := by
  have hfresh : s.heap.cell s.heap.next = none := by
    by_contra hne
    obtain ⟨node, hnode⟩ := Option.ne_none_iff_exists'.mp hne
    exact absurd (hv.bound _ node hnode) (lt_irrefl _)
  have hframe : Frame s { s.goto i (.push v (.load s.heap.next)) with
      heap := s.heap.alloc ⟨v, none⟩ } i := by
    refine frame_of_set hc rfl (fun a ha => .inl ?_) (fun a node hnode _ => ?_) (.inl rfl)
    · obtain rfl : s.heap.next = a := Option.some.inj ha
      exact hfresh
    · refine (Heap.cell_alloc_of_ne ?_).trans hnode
      rintro rfl
      rw [hfresh] at hnode
      cases hnode
  refine hframe.valid_same hv rfl rfl (fun a node hnode => ?_) (fun d hd => ?_)
    (lt_length_set hc _) (List.length_set ..).ge
  · by_cases ha : a = s.heap.next
    · rw [ha]
      exact Nat.lt_succ_self _
    · rw [Heap.cell_alloc_of_ne ha] at hnode
      exact (hv.bound a node hnode).trans (Nat.lt_succ_self _)
  · obtain rfl := Option.some.inj ((set_call hc _).symm.trans hd)
    exact ⟨none, Heap.cell_alloc_next ..⟩

/-- The call writes to its own node. -/
theorem Valid.pushLink (hv : Valid s es) {a : Addr} {head : Option Addr}
    (hc : s.calls[i]? = some (.push v (.link a head))) {node : Node T}
    (hnode : s.heap.cell a = some node) :
    Valid { s.goto i (.push v (.expect a)) with
      heap := s.heap.store a { node with next := head } } es := by
  obtain ⟨next, hnext⟩ := hv.calls i _ hc
  obtain rfl : node = ⟨v, next⟩ := Option.some.inj (hnode.symm.trans hnext)
  have hframe : Frame s { s.goto i (.push v (.expect a)) with
      heap := s.heap.store a ⟨v, head⟩ } i := by
    refine frame_of_set hc rfl (fun b hb => .inr hb) (fun b n hn hne => ?_) (.inl rfl)
    exact (Heap.cell_store_of_ne fun hba => hne (congrArg some hba.symm)).trans hn
  refine hframe.valid_same hv rfl rfl (fun b n hn => ?_) (fun d hd => ?_)
    (lt_length_set hc _) (List.length_set ..).ge
  · by_cases hb : b = a
    · exact hb ▸ hv.bound a _ hnode
    · rw [Heap.cell_store_of_ne hb] at hn
      exact hv.bound b n hn
  · obtain rfl := Option.some.inj ((set_call hc _).symm.trans hd)
    exact ⟨head, Heap.cell_store_self ..⟩

/-- The node becomes the first of the list, and is published. -/
theorem Valid.pushCas (hv : Valid s es) {a : Addr} {expected : Option Addr}
    (hc : s.calls[i]? = some (.push v (.cas a expected))) (hhead : s.head = expected) :
    Valid { s.goto i (.push v .done) with head := some a, log := s.log ++ [(i, .push v)] }
      ((a, v) :: es) := by
  have hnode : s.heap.cell a = some ⟨v, expected⟩ := hv.calls i _ hc
  have hframe : Frame s { s.goto i (.push v .done) with
      head := some a, log := s.log ++ [(i, .push v)] } i :=
    frame_of_set hc rfl (fun b hb => by cases hb) (fun _ _ hn _ => hn) (.inr ⟨_, rfl⟩)
  refine hframe.valid hv rfl ⟨?_, hv.seg⟩ ?_ (fun e he => ?_) hv.bound (fun d hd => ?_)
    (lt_length_set hc _) (List.length_set ..).ge
  · rw [← hv.head_eq, hhead]
    exact hnode
  · rw [applied_concat, ← hv.values]
    rfl
  · rcases List.mem_cons.mp he with rfl | he
    · refine ⟨⟨_, hnode⟩, fun j hj => ?_⟩
      by_cases hji : j = i
      · obtain ⟨d, hd, hown⟩ := hj
        obtain rfl := Option.some.inj ((set_call hc _).symm.trans (hji ▸ hd))
        cases hown
      · exact hji (hv.distinct j i a ((hframe.owns_of_ne hji).mp hj) ⟨_, hc, rfl⟩)
    · exact hframe.published (hv.published e he)
  · obtain rfl := Option.some.inj ((set_call hc _).symm.trans hd)
    trivial

theorem Valid.pushStep (hv : Valid s es) {phase : PushPhase}
    (hc : s.calls[i]? = some (.push v phase)) {spurious : Bool}
    (hstep : pushStep s i v spurious phase = some s') : ∃ es', Valid s' es' := by
  have hok := hv.calls i _ hc
  cases phase with
  | new =>
    obtain rfl := Option.some.inj hstep
    exact ⟨es, hv.pushNew hc⟩
  | load a =>
    obtain rfl := Option.some.inj hstep
    exact ⟨es, hv.goto hc (fun _ => id) hok⟩
  | link a head =>
    obtain ⟨node, hnode, rfl⟩ := Option.map_eq_some_iff.mp hstep
    exact ⟨es, hv.pushLink hc hnode⟩
  | expect a =>
    obtain ⟨node, hnode, rfl⟩ := Option.map_eq_some_iff.mp hstep
    obtain ⟨next, hnext⟩ := hok
    obtain rfl : node = ⟨v, next⟩ := Option.some.inj (hnode.symm.trans hnext)
    exact ⟨es, hv.goto hc (fun _ => id) hnode⟩
  | cas a expected =>
    rw [LockFreeStacks.pushStep] at hstep
    split_ifs at hstep with hcas
    · obtain rfl := Option.some.inj hstep
      exact ⟨_, hv.pushCas hc hcas.1⟩
    · obtain rfl := Option.some.inj hstep
      exact ⟨es, hv.goto hc (fun _ => id) ⟨expected, hok⟩⟩
  | done => cases hstep

/-! ## The steps of `pop` -/

/-- What a read of `head` gives a `pop`. -/
theorem Valid.callOk_loop (hv : Valid s es) (reads : List (Option Addr))
    (hlog : (i, Op.pop) ∉ s.log) : CallOk s i (.pop (.loop s.head) (s.head :: reads)) := by
  cases hhead : s.head with
  | none => exact ⟨List.mem_cons_self, hlog⟩
  | some a => exact ⟨hv.head_published hhead, hlog⟩

/-- The first node of the list is taken: it has not changed since its successor was read. -/
theorem Valid.popCas (hv : Valid s es) {a : Addr} {next : Option Addr} {reads : List (Option Addr)}
    (hc : s.calls[i]? = some (.pop (.cas a next) reads)) (hhead : s.head = some a)
    (reads' : List (Option Addr)) :
    ∃ es', Valid { s.goto i (.pop (.readVal a) reads') with
      head := next, log := s.log ++ [(i, .pop)] } es' := by
  obtain ⟨hpub, ⟨v, hnode⟩, hlog⟩ := hv.calls i _ hc
  cases es with
  | nil =>
    rw [hv.head_eq] at hhead
    cases hhead
  | cons e rest =>
    obtain rfl : e.1 = a := Option.some.inj (hv.head_eq.symm.trans hhead)
    have heq : entryNode e (first Prod.fst rest none) = ⟨v, next⟩ :=
      Option.some.inj (hv.seg.1.symm.trans hnode)
    obtain ⟨hval, hnext⟩ := Node.mk.inj heq
    have hframe : Frame s { s.goto i (.pop (.readVal e.1) reads') with
        head := next, log := s.log ++ [(i, .pop)] } i :=
      frame_of_set hc rfl (fun b hb => by cases hb) (fun _ _ hn _ => hn) (.inr ⟨_, rfl⟩)
    refine ⟨rest, hframe.valid hv hnext.symm hv.seg.2 ?_ (fun e' he' => ?_) hv.bound
      (fun d hd => ?_) (lt_length_set hc _) (List.length_set ..).ge⟩
    · rw [applied_concat, ← hv.values]
      rfl
    · exact hframe.published (hv.published e' (List.mem_cons_of_mem e he'))
    · obtain rfl := Option.some.inj ((set_call hc _).symm.trans hd)
      refine ⟨hframe.published hpub, v, next, hnode, s.log, [], rfl, ?_, hlog, List.not_mem_nil⟩
      rw [← hv.values, List.map_cons, List.head?_cons, hval]

theorem Valid.popStep (hv : Valid s es) {phase : PopPhase T} {reads : List (Option Addr)}
    (hc : s.calls[i]? = some (.pop phase reads)) {spurious : Bool}
    (hstep : popStep s i reads spurious phase = some s') : ∃ es', Valid s' es' := by
  have hok := hv.calls i _ hc
  cases phase with
  | load =>
    obtain rfl := Option.some.inj hstep
    exact ⟨es, hv.goto hc (fun _ => id) (hv.callOk_loop reads hok)⟩
  | loop oldHead =>
    cases oldHead with
    | none =>
      obtain rfl := Option.some.inj hstep
      exact ⟨es, hv.goto hc (fun _ => id) hok.1⟩
    | some a =>
      obtain ⟨node, hnode, rfl⟩ := Option.map_eq_some_iff.mp hstep
      exact ⟨es, hv.goto hc (fun _ => id) ⟨hok.1, ⟨node.val, hnode⟩, hok.2⟩⟩
  | cas a next =>
    rw [LockFreeStacks.popStep] at hstep
    split_ifs at hstep with hcas
    · obtain rfl := Option.some.inj hstep
      exact hv.popCas hc hcas.1 _
    · obtain rfl := Option.some.inj hstep
      exact ⟨es, hv.goto hc (fun _ => id) (hv.callOk_loop reads hok.2.2)⟩
  | readVal a =>
    obtain ⟨node, hnode, rfl⟩ := Option.map_eq_some_iff.mp hstep
    obtain ⟨-, w, next, hnode', ht⟩ := hok
    obtain rfl : node = ⟨w, next⟩ := Option.some.inj (hnode.symm.trans hnode')
    exact ⟨es, hv.goto hc (fun _ => id) ht⟩
  | popped w => cases hstep
  | empty => cases hstep

/-! ## Every interleaving -/

theorem Valid.spawn (hv : Valid s es) (c : Call T) (howns : c.owns = none)
    (hok : (s.calls.length, Op.pop) ∉ s.log →
      CallOk { s with calls := s.calls ++ [c] } s.calls.length c) :
    Valid { s with calls := s.calls ++ [c] } es := by
  have hnew : (s.calls ++ [c])[s.calls.length]? = some c := List.getElem?_concat_length
  have hframe : Frame s { s with calls := s.calls ++ [c] } s.calls.length := by
    refine ⟨fun j hj => ?_, fun a => ?_, fun _ _ hn _ => hn, .inl rfl⟩
    · rcases Nat.lt_or_gt_of_ne hj with hlt | hgt
      · exact List.getElem?_append_left hlt
      · rw [List.getElem?_eq_none hgt.le]
        exact List.getElem?_eq_none (by rw [List.length_append]; exact hgt)
    · rintro ⟨d, hd, ha⟩
      obtain rfl := Option.some.inj (hnew.symm.trans hd)
      rw [howns] at ha
      cases ha
  refine hframe.valid_same hv rfl rfl hv.bound (fun d hd => ?_) ?_ ?_
  · obtain rfl := Option.some.inj (hnew.symm.trans hd)
    exact hok fun hmem => absurd (hv.logged _ hmem) (lt_irrefl _)
  · simp
  · simp

theorem Valid.step (hv : Valid s es) {a : Action T} (hstep : step s a = some s') :
    ∃ es', Valid s' es' := by
  cases a with
  | push v =>
    obtain rfl := Option.some.inj hstep
    exact ⟨es, hv.spawn _ rfl fun _ => trivial⟩
  | pop =>
    obtain rfl := Option.some.inj hstep
    exact ⟨es, hv.spawn _ rfl fun hnot => hnot⟩
  | step i spurious =>
    rw [LockFreeStacks.step] at hstep
    split at hstep
    · cases hstep
    · next v phase hc => exact hv.pushStep hc hstep
    · next phase reads hc => exact hv.popStep hc hstep

theorem valid_start : Valid ({} : State T) [] where
  head_eq := rfl
  seg := trivial
  values := rfl
  published _ he := absurd he List.not_mem_nil
  bound _ _ hnode := by cases hnode
  distinct _ _ _ := fun ⟨_, hc, _⟩ => by cases hc
  calls _ _ hc := by cases hc
  logged _ he := absurd he List.not_mem_nil

theorem valid_run {schedule : List (Action T)} (h : run step {} schedule = some s) :
    ∃ es, Valid s es :=
  @run_invariant _ _ step (fun t => ∃ es, Valid t es)
    (fun _ _ _ ⟨_, hv⟩ hstep => hv.step hstep) _ _ _ ⟨[], valid_start⟩ h

/-- A call that has not returned can take its next step: it accesses nodes that exist. -/
theorem Valid.progress (hv : Valid s es) (hc : s.calls[i]? = some c) (hnot : ¬ c.Returned)
    (spurious : Bool) : ∃ s', LockFreeStacks.step s (.step i spurious) = some s' := by
  have hok := hv.calls i c hc
  rw [LockFreeStacks.step, hc]
  rcases c with ⟨v, phase⟩ | ⟨phase, reads⟩
  · cases phase with
    | new => exact ⟨_, rfl⟩
    | load a => exact ⟨_, rfl⟩
    | link a head =>
      obtain ⟨next, hnext⟩ := hok
      exact ⟨_, Option.map_eq_some_iff.mpr ⟨_, hnext, rfl⟩⟩
    | expect a =>
      obtain ⟨next, hnext⟩ := hok
      exact ⟨_, Option.map_eq_some_iff.mpr ⟨_, hnext, rfl⟩⟩
    | cas a expected =>
      simp only [LockFreeStacks.pushStep]
      split_ifs
      · exact ⟨_, rfl⟩
      · exact ⟨_, rfl⟩
    | done => exact absurd trivial hnot
  · cases phase with
    | load => exact ⟨_, rfl⟩
    | loop oldHead =>
      cases oldHead with
      | none => exact ⟨_, rfl⟩
      | some a =>
        obtain ⟨node, hnode⟩ := hok.1.1
        exact ⟨_, Option.map_eq_some_iff.mpr ⟨_, hnode, rfl⟩⟩
    | cas a next =>
      simp only [LockFreeStacks.popStep]
      split_ifs
      · exact ⟨_, rfl⟩
      · exact ⟨_, rfl⟩
    | readVal a =>
      obtain ⟨node, hnode⟩ := hok.1.1
      exact ⟨_, Option.map_eq_some_iff.mpr ⟨_, hnode, rfl⟩⟩
    | popped w => exact absurd trivial hnot
    | empty => exact absurd trivial hnot

/-- **The stack is linearizable.**  In every state of every interleaving of any number of calls: the
list from `head` on is the stack after the pushes and pops in the order of their successful
compare-exchanges; a `pop` that returned true returns the top of that stack at its compare-exchange;
a `pop` that returned false found `head` null at one of its reads; and no call ever accesses a node
that does not exist. -/
theorem stack_linearizable (schedule : List (Action T)) (s : State T)
    (h : run step {} schedule = some s) :
    Reaches s.heap s.head (applied s.log) ∧
      (∀ (i : ℕ) v reads, s.calls[i]? = some (.pop (.popped v) reads) → Took s.log i v) ∧
      (∀ (i : ℕ) reads, s.calls[i]? = some (.pop .empty reads) → none ∈ reads) ∧
      ∀ (i : ℕ) c, s.calls[i]? = some c → ¬ c.Returned →
        ∀ spurious, ∃ s', step s (.step i spurious) = some s' := by
  obtain ⟨es, hv⟩ := valid_run h
  refine ⟨?_, fun i v reads hc => hv.calls i _ hc, fun i reads hc => hv.calls i _ hc,
    fun i c hc hnot => hv.progress hc hnot⟩
  rw [hv.head_eq, ← hv.values]
  exact reaches_of_seg hv.seg

/-- A push whose first compare-exchange fails spuriously, while a pop has already started. -/
theorem stack_linearizable_push_pop :
    let schedule : List (Action ℤ) :=
      [.push 5, .step 0 false, .step 0 false, .pop, .step 0 false, .step 0 false, .step 0 true,
        .step 0 false, .step 0 false, .step 0 false, .step 1 false, .step 1 false, .step 1 false,
        .step 1 false]
    (run step {} schedule).isSome ∧
      ∀ s, run step {} schedule = some s → s.head = none ∧ Took s.log 1 5 := by
  refine ⟨rfl, fun s hs => ?_⟩
  have h := stack_linearizable _ s hs
  obtain rfl := Option.some.inj hs
  exact ⟨rfl, h.2.1 1 5 _ rfl⟩

end LockFreeStacks
