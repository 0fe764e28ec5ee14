/-
# Linked lists with iterators

`std::list` as a sequence of nodes at addresses.  An iterator is the address of its node: it
stays valid while other nodes are inserted, erased or moved, and dangles once its own node is
erased.  Addresses are not reused, so a dangling iterator is never mistaken for a live one.

A list of this kind is mostly kept together with a hash map from keys to iterators.  `Indexed`
says that the map is right, and the rules say what the usual pairs of updates do to the values of
the list: the values without a key (`without`) and, in front of them, the one that was touched.
-/
import Mathlib

/-- `std::list<α>`: the nodes from front to back and the next unused address. -/
@[ext] structure IterList (α : Type*) where
  nodes : List (ℕ × α)
  next : ℕ
  nodup : (nodes.map Prod.fst).Nodup
  fresh : ∀ n ∈ nodes, n.1 < next

namespace IterList

variable {α κ : Type*}

/-- The empty list. -/
def empty : IterList α := ⟨[], 0, List.nodup_nil, by simp⟩

/-- The values from front to back. -/
def values (l : IterList α) : List α := l.nodes.map Prod.snd

/-- The iterator points to a node of the list. -/
def Live (l : IterList α) (i : ℕ) : Prop := i ∈ l.nodes.map Prod.fst

instance (l : IterList α) (i : ℕ) : Decidable (l.Live i) :=
  inferInstanceAs (Decidable (i ∈ l.nodes.map Prod.fst))

/-- `*it`, if the iterator is live. -/
def get? (l : IterList α) (i : ℕ) : Option α := (l.nodes.find? fun n => n.1 = i).map Prod.snd

/-- `push_front`; afterwards `begin()` is `l.next`. -/
def pushFront (l : IterList α) (v : α) : IterList α where
  nodes := (l.next, v) :: l.nodes
  next := l.next + 1
  nodup := by
    refine List.nodup_cons.mpr ⟨fun hmem => ?_, l.nodup⟩
    obtain ⟨n, hn, heq⟩ := List.mem_map.mp hmem
    exact (l.fresh n hn).ne heq
  fresh := by
    intro n hn
    rcases List.mem_cons.mp hn with rfl | hn
    · exact Nat.lt_succ_self _
    · exact (l.fresh n hn).trans (Nat.lt_succ_self _)

/-- `erase(it)`. -/
def erase (l : IterList α) (i : ℕ) : IterList α where
  nodes := l.nodes.filter fun n => n.1 ≠ i
  next := l.next
  nodup := l.nodup.sublist ((List.filter_sublist).map _)
  fresh n hn := l.fresh n (List.mem_of_mem_filter hn)

/-- `splice(begin(), *this, it)`: the node moves to the front. -/
def spliceFront (l : IterList α) (i : ℕ) : IterList α where
  nodes := (l.nodes.filter fun n => n.1 = i) ++ l.nodes.filter fun n => n.1 ≠ i
  next := l.next
  nodup := by
    have hperm : ((l.nodes.filter fun n => n.1 = i) ++ l.nodes.filter fun n => n.1 ≠ i).Perm
        l.nodes := by
      have hsplit := List.filter_append_perm (fun n : ℕ × α => decide (n.1 = i)) l.nodes
      simpa only [decide_not] using hsplit
    exact (hperm.map Prod.fst).nodup_iff.mpr l.nodup
  fresh := by
    intro n hn
    rcases List.mem_append.mp hn with hn | hn
    · exact l.fresh n (List.mem_of_mem_filter hn)
    · exact l.fresh n (List.mem_of_mem_filter hn)

/-- `*it = f(*it)`. -/
def modify (l : IterList α) (i : ℕ) (f : α → α) : IterList α where
  nodes := l.nodes.map fun n => if n.1 = i then (n.1, f n.2) else n
  next := l.next
  nodup := by
    have hsame : (l.nodes.map fun n => if n.1 = i then (n.1, f n.2) else n).map Prod.fst
        = l.nodes.map Prod.fst := by
      rw [List.map_map]
      apply List.map_congr_left
      intro n _
      dsimp only [Function.comp]
      split_ifs <;> rfl
    rw [hsame]
    exact l.nodup
  fresh := by
    intro n hn
    obtain ⟨m, hm, rfl⟩ := List.mem_map.mp hn
    split_ifs
    · exact l.fresh m hm
    · exact l.fresh m hm

/-- `back()` and its address, if the list is not empty. -/
def back? (l : IterList α) : Option (ℕ × α) := l.nodes.getLast?

/-- `pop_back`. -/
def popBack (l : IterList α) : IterList α where
  nodes := l.nodes.dropLast
  next := l.next
  nodup := l.nodup.sublist ((List.dropLast_sublist _).map _)
  fresh n hn := l.fresh n (List.mem_of_mem_dropLast hn)

/-! ## Nodes and iterators -/

@[simp] theorem nodes_empty : (empty : IterList α).nodes = [] := rfl

@[simp] theorem nodes_pushFront (l : IterList α) (v : α) :
    (l.pushFront v).nodes = (l.next, v) :: l.nodes := rfl

@[simp] theorem values_pushFront (l : IterList α) (v : α) :
    (l.pushFront v).values = v :: l.values := rfl

@[simp] theorem mem_erase {l : IterList α} {i : ℕ} {n : ℕ × α} :
    n ∈ (l.erase i).nodes ↔ n ∈ l.nodes ∧ n.1 ≠ i := by
  simp [erase]

@[simp] theorem mem_spliceFront {l : IterList α} {i : ℕ} {n : ℕ × α} :
    n ∈ (l.spliceFront i).nodes ↔ n ∈ l.nodes := by
  simp only [spliceFront, List.mem_append, List.mem_filter, decide_eq_true_eq]
  tauto

theorem mem_modify_self {l : IterList α} {i : ℕ} {f : α → α} {v : α} :
    (i, v) ∈ (l.modify i f).nodes ↔ ∃ w, (i, w) ∈ l.nodes ∧ f w = v := by
  simp only [modify, List.mem_map]
  constructor
  · rintro ⟨⟨a, w⟩, hmem, heq⟩
    dsimp only at heq
    split_ifs at heq with ha
    · obtain ⟨rfl, rfl⟩ := Prod.mk.inj heq
      exact ⟨w, hmem, rfl⟩
    · exact absurd (Prod.mk.inj heq).1 ha
  · rintro ⟨w, hmem, rfl⟩
    exact ⟨(i, w), hmem, if_pos rfl⟩

theorem mem_modify_of_ne {l : IterList α} {i a : ℕ} {f : α → α} {v : α} (ha : a ≠ i) :
    (a, v) ∈ (l.modify i f).nodes ↔ (a, v) ∈ l.nodes := by
  simp only [modify, List.mem_map]
  constructor
  · rintro ⟨⟨b, w⟩, hmem, heq⟩
    dsimp only at heq
    split_ifs at heq with hb
    · exact absurd ((Prod.mk.inj heq).1.symm.trans hb) ha
    · exact heq ▸ hmem
  · exact fun hmem => ⟨(a, v), hmem, if_neg ha⟩

/-- A node that is changed and then moved could have been moved first. -/
theorem spliceFront_modify (l : IterList α) (i : ℕ) (f : α → α) :
    (l.modify i f).spliceFront i = (l.spliceFront i).modify i f := by
  have hfst : ∀ n : ℕ × α, (if n.1 = i then (n.1, f n.2) else n).1 = n.1 := by
    intro n
    split_ifs <;> rfl
  have hnodes : ((l.modify i f).spliceFront i).nodes = ((l.spliceFront i).modify i f).nodes := by
    simp only [spliceFront, modify, List.filter_map, List.map_append, Function.comp_def, hfst]
  exact IterList.ext hnodes rfl

/-- A node that is changed and then erased could have been erased at once. -/
theorem erase_modify (l : IterList α) (i : ℕ) (f : α → α) : (l.modify i f).erase i = l.erase i := by
  have hnodes : ((l.modify i f).erase i).nodes = (l.erase i).nodes := by
    simp only [erase, modify, List.filter_map]
    have hfilter : l.nodes.filter ((fun n => decide (n.1 ≠ i)) ∘
        fun n => if n.1 = i then (n.1, f n.2) else n) = l.nodes.filter fun n => n.1 ≠ i := by
      apply List.filter_congr
      intro n _
      dsimp only [Function.comp]
      split_ifs <;> rfl
    rw [hfilter]
    conv_rhs => rw [← List.map_id (l.nodes.filter fun n => n.1 ≠ i)]
    refine List.map_congr_left fun n hn => if_neg ?_
    exact of_decide_eq_true (List.mem_filter.mp hn).2
  exact IterList.ext hnodes rfl

theorem length_values_spliceFront (l : IterList α) (i : ℕ) :
    (l.spliceFront i).values.length = l.values.length := by
  rw [values, values, List.length_map, List.length_map, spliceFront, List.length_append]
  have hsplit := List.length_eq_length_filter_add (l := l.nodes) (fun n => decide (n.1 = i))
  simpa only [decide_not] using hsplit.symm

theorem mem_values {l : IterList α} {v : α} : v ∈ l.values ↔ ∃ i, (i, v) ∈ l.nodes := by
  simp [values]

theorem node_unique {l : IterList α} {m n : ℕ × α} (hm : m ∈ l.nodes) (hn : n ∈ l.nodes)
    (h : m.1 = n.1) : m = n :=
  List.inj_on_of_nodup_map l.nodup hm hn h

theorem get?_eq_some_iff {l : IterList α} {i : ℕ} {v : α} :
    l.get? i = some v ↔ (i, v) ∈ l.nodes := by
  constructor
  · intro h
    obtain ⟨⟨j, w⟩, hfind, rfl⟩ := Option.map_eq_some_iff.mp h
    have hj : j = i := by simpa using List.find?_some hfind
    rw [← hj]
    exact List.mem_of_find?_eq_some hfind
  · intro hmem
    have hlive : (l.nodes.find? fun n => n.1 = i).isSome := by
      rw [List.find?_isSome]
      exact ⟨(i, v), hmem, by simp⟩
    obtain ⟨n, hn⟩ := Option.isSome_iff_exists.mp hlive
    have hni : n.1 = i := by simpa using List.find?_some hn
    have heq : n = (i, v) := node_unique (List.mem_of_find?_eq_some hn) hmem hni
    rw [get?, hn, heq]
    rfl

theorem live_iff {l : IterList α} {i : ℕ} : l.Live i ↔ ∃ v, (i, v) ∈ l.nodes := by
  simp [Live]

theorem Live.lt_next {l : IterList α} {i : ℕ} (h : l.Live i) : i < l.next := by
  obtain ⟨v, hmem⟩ := live_iff.mp h
  exact l.fresh _ hmem

theorem live_pushFront {l : IterList α} {v : α} {j : ℕ} :
    (l.pushFront v).Live j ↔ j = l.next ∨ l.Live j :=
  List.mem_cons

/-- Only the iterator to the erased node dangles. -/
theorem live_erase {l : IterList α} {i j : ℕ} : (l.erase i).Live j ↔ l.Live j ∧ j ≠ i := by
  simp only [live_iff, mem_erase, exists_and_right]

theorem live_spliceFront {l : IterList α} {i j : ℕ} : (l.spliceFront i).Live j ↔ l.Live j := by
  simp only [live_iff, mem_spliceFront]

theorem live_modify {l : IterList α} {i j : ℕ} {f : α → α} : (l.modify i f).Live j ↔ l.Live j := by
  simp only [live_iff]
  by_cases hj : j = i
  · subst hj
    simp only [mem_modify_self]
    constructor
    · exact fun ⟨_, v, hmem, _⟩ => ⟨v, hmem⟩
    · exact fun ⟨v, hmem⟩ => ⟨f v, v, hmem, rfl⟩
  · simp only [mem_modify_of_ne hj]

theorem get?_modify_of_ne {l : IterList α} {i j : ℕ} {f : α → α} (hj : j ≠ i) :
    (l.modify i f).get? j = l.get? j := by
  ext v
  rw [get?_eq_some_iff, get?_eq_some_iff, mem_modify_of_ne hj]

theorem get?_erase_of_ne {l : IterList α} {i j : ℕ} (hj : j ≠ i) :
    (l.erase i).get? j = l.get? j := by
  ext v
  rw [get?_eq_some_iff, get?_eq_some_iff, mem_erase]
  exact and_iff_left hj

theorem get?_pushFront_of_live {l : IterList α} {v : α} {j : ℕ} (hj : l.Live j) :
    (l.pushFront v).get? j = l.get? j := by
  have hne : j ≠ l.next := hj.lt_next.ne
  ext w
  rw [get?_eq_some_iff, get?_eq_some_iff, nodes_pushFront, List.mem_cons]
  refine or_iff_right fun heq => hne (Prod.mk.inj heq).1

theorem back?_eq_none_iff {l : IterList α} : l.back? = none ↔ l.values = [] := by
  simp [back?, values]

theorem back?_eq_some {l : IterList α} {n : ℕ × α} (h : l.back? = some n) :
    l.nodes = l.nodes.dropLast ++ [n] :=
  (List.dropLast_append_getLast? n h).symm

theorem popBack_eq_erase {l : IterList α} {n : ℕ × α} (h : l.back? = some n) :
    l.popBack = l.erase n.1 := by
  have hnodes := back?_eq_some h
  have hnodup := l.nodup
  rw [hnodes, List.map_append, List.nodup_append] at hnodup
  have hother : ∀ m ∈ l.nodes.dropLast, m.1 ≠ n.1 := fun m hm =>
    hnodup.2.2 m.1 (List.mem_map_of_mem hm) n.1 (by simp)
  have hfilter : l.nodes.filter (fun m => m.1 ≠ n.1) = l.nodes.dropLast := by
    rw [hnodes, List.filter_append, List.dropLast_concat]
    simpa using hother
  exact IterList.ext hfilter.symm rfl

/-! ## The map from keys to iterators -/

/-- The map holds exactly the keys of the list, each with the iterator to its node. -/
def Indexed [DecidableEq κ] (key : α → κ) (l : IterList α) (mm : Finmap fun _ : κ => ℕ) : Prop :=
  ∀ k i, mm.lookup k = some i ↔ ∃ v, (i, v) ∈ l.nodes ∧ key v = k

/-- The values whose key is not `k`. -/
def without [DecidableEq κ] (key : α → κ) (k : κ) (vs : List α) : List α :=
  vs.filter fun v => key v ≠ k

section Indexed

variable [DecidableEq κ] {key : α → κ} {l : IterList α} {mm : Finmap fun _ : κ => ℕ}

/-- A key that the map does not have is still missing when another one is erased. -/
theorem lookup_erase_eq_none {k : κ} (k' : κ) (h : mm.lookup k = none) :
    (mm.erase k').lookup k = none := by
  rw [Finmap.lookup_eq_none, Finmap.mem_erase]
  exact fun hmem => Finmap.lookup_eq_none.mp h hmem.2

theorem mem_without {k : κ} {vs : List α} {v : α} :
    v ∈ without key k vs ↔ v ∈ vs ∧ key v ≠ k := by
  simp [without]

theorem without_sublist (k : κ) (vs : List α) : (without key k vs).Sublist vs :=
  List.filter_sublist

theorem mem_map_without {k k' : κ} {vs : List α} :
    k' ∈ (without key k vs).map key ↔ k' ∈ vs.map key ∧ k' ≠ k := by
  simp only [List.mem_map, mem_without]
  constructor
  · rintro ⟨v, ⟨hv, hne⟩, rfl⟩
    exact ⟨⟨v, hv, rfl⟩, hne⟩
  · rintro ⟨⟨v, hv, rfl⟩, hne⟩
    exact ⟨v, ⟨hv, hne⟩, rfl⟩

theorem notMem_map_without (k : κ) (vs : List α) : k ∉ (without key k vs).map key :=
  fun hmem => (mem_map_without.mp hmem).2 rfl

/-- Nothing is taken out where the key does not occur. -/
theorem without_eq_self {k : κ} {vs : List α} (h : ∀ v ∈ vs, key v ≠ k) :
    without key k vs = vs :=
  List.filter_eq_self.mpr fun v hv => decide_eq_true (h v hv)

theorem Indexed.of_empty : Indexed key (empty : IterList α) ∅ := by
  intro k i
  simp

theorem Indexed.found (h : Indexed key l mm) {k : κ} {i : ℕ} (hk : mm.lookup k = some i) :
    ∃ v, (i, v) ∈ l.nodes ∧ key v = k :=
  (h k i).mp hk

/-- A key is missing from the map when no value of the list has it. -/
theorem Indexed.lookup_eq_none_iff (h : Indexed key l mm) {k : κ} :
    mm.lookup k = none ↔ ∀ v ∈ l.values, key v ≠ k := by
  constructor
  · rintro hk v hv rfl
    obtain ⟨i, hmem⟩ := mem_values.mp hv
    rw [(h (key v) i).mpr ⟨v, hmem, rfl⟩] at hk
    exact Option.some_ne_none i hk
  · intro habs
    apply Option.eq_none_iff_forall_ne_some.mpr
    intro i hk
    obtain ⟨v, hmem, hv⟩ := h.found hk
    exact habs v (mem_values.mpr ⟨i, hmem⟩) hv

theorem Indexed.mem_iff (h : Indexed key l mm) {k : κ} : k ∈ mm ↔ k ∈ l.values.map key := by
  rw [← not_iff_not, ← Finmap.lookup_eq_none, h.lookup_eq_none_iff]
  simp

theorem Indexed.addr_eq_iff (h : Indexed key l mm) {k : κ} {i : ℕ} (hk : mm.lookup k = some i)
    {n : ℕ × α} (hn : n ∈ l.nodes) : n.1 = i ↔ key n.2 = k := by
  obtain ⟨v, hmem, hv⟩ := h.found hk
  constructor
  · intro hi
    rw [node_unique hn hmem hi]
    exact hv
  · intro hkey
    have hlook : mm.lookup k = some n.1 := (h k n.1).mpr ⟨n.2, hn, hkey⟩
    exact Option.some.inj (hlook.symm.trans hk)

theorem Indexed.keys_nodup (h : Indexed key l mm) : (l.values.map key).Nodup := by
  rw [values, List.map_map]
  apply (List.Nodup.of_map _ l.nodup).map_on
  intro m hm n hn hkey
  have hlook : mm.lookup (key n.2) = some n.1 := (h _ _).mpr ⟨n.2, hn, rfl⟩
  exact node_unique hm hn ((h.addr_eq_iff hlook hm).mpr hkey)

theorem Indexed.card_keys (h : Indexed key l mm) : mm.keys.card = l.values.length := by
  have hkeys : mm.keys = (l.values.map key).toFinset := by
    ext k
    rw [Finmap.mem_keys, List.mem_toFinset]
    exact h.mem_iff
  rw [hkeys, List.toFinset_card_of_nodup h.keys_nodup, List.length_map]

/-- `push_front` of a new key, and its entry `mm[key] = begin()`. -/
theorem Indexed.pushFront (h : Indexed key l mm) {v : α} (habs : mm.lookup (key v) = none) :
    Indexed key (l.pushFront v) (mm.insert (key v) l.next) := by
  intro k i
  have hold := h k i
  by_cases hk : k = key v
  · subst hk
    rw [Finmap.lookup_insert]
    rw [habs] at hold
    have hnone := fun w hw hkey => (hold.mpr ⟨w, hw, hkey⟩ : none = some i)
    constructor
    · rintro hi
      exact ⟨v, by simp [← Option.some.inj hi], rfl⟩
    · rintro ⟨w, hw, hkey⟩
      rcases List.mem_cons.mp hw with heq | hw
      · rw [(Prod.mk.inj heq).1]
      · cases hnone w hw hkey
  · rw [Finmap.lookup_insert_of_ne _ hk, hold]
    refine exists_congr fun w => and_congr_left fun hkey => ?_
    have hne : w ≠ v := fun hw => hk (hw ▸ hkey.symm)
    simp [hne]

theorem Indexed.erase (h : Indexed key l mm) {k : κ} {i : ℕ} (hk : mm.lookup k = some i) :
    Indexed key (l.erase i) (mm.erase k) := by
  intro k' j
  by_cases hk' : k' = k
  · subst hk'
    rw [Finmap.lookup_erase]
    apply iff_of_false (by simp)
    rintro ⟨v, hv, hkey⟩
    obtain ⟨hmem, hne⟩ := mem_erase.mp hv
    exact hne ((h.addr_eq_iff hk hmem).mpr hkey)
  · rw [Finmap.lookup_erase_ne hk', h k' j]
    refine exists_congr fun v => and_congr_left fun hkey => ?_
    rw [mem_erase]
    refine (and_iff_left_of_imp fun hmem hji => hk' ?_).symm
    exact hkey.symm.trans ((h.addr_eq_iff hk hmem).mp hji)

theorem Indexed.popBack (h : Indexed key l mm) {n : ℕ × α} (hb : l.back? = some n) :
    Indexed key l.popBack (mm.erase (key n.2)) := by
  have hmem : n ∈ l.nodes := List.mem_of_getLast? hb
  rw [popBack_eq_erase hb]
  exact h.erase ((h _ _).mpr ⟨n.2, hmem, rfl⟩)

theorem Indexed.spliceFront (h : Indexed key l mm) (i : ℕ) : Indexed key (l.spliceFront i) mm := by
  intro k j
  simpa only [mem_spliceFront] using h k j

/-- Changing a value but not its key keeps the map right. -/
theorem Indexed.modify (h : Indexed key l mm) (i : ℕ) {f : α → α} (hf : ∀ v, key (f v) = key v) :
    Indexed key (l.modify i f) mm := by
  intro k j
  rw [h k j]
  by_cases hj : j = i
  · subst hj
    simp only [mem_modify_self]
    constructor
    · exact fun ⟨v, hmem, hkey⟩ => ⟨f v, ⟨v, hmem, rfl⟩, (hf v).trans hkey⟩
    · rintro ⟨_, ⟨v, hmem, rfl⟩, hkey⟩
      exact ⟨v, hmem, (hf v).symm.trans hkey⟩
  · simp only [mem_modify_of_ne hj]

/-! ## What the updates do to the values -/

/-- In a list whose keys are distinct, the values with the key of `v` are `v` alone. -/
theorem filter_key_eq {vs : List α} (hnodup : (vs.map key).Nodup) {v : α} (hv : v ∈ vs) :
    vs.filter (fun w => key w = key v) = [v] := by
  induction vs with
  | nil => cases hv
  | cons w vs ih =>
    obtain ⟨hw, hvs⟩ := List.nodup_cons.mp hnodup
    rcases List.mem_cons.mp hv with rfl | hv
    · have hrest : vs.filter (fun w => key w = key v) = [] := by
        rw [List.filter_eq_nil_iff]
        intro u hu hkey
        exact hw ((of_decide_eq_true hkey) ▸ List.mem_map_of_mem hu)
      rw [List.filter_cons_of_pos (by simp), hrest]
    · have hne : key w ≠ key v := fun hkey => hw (hkey ▸ List.mem_map_of_mem hv)
      rw [List.filter_cons_of_neg (by simpa using hne), ih hvs hv]

theorem length_without {vs : List α} (hnodup : (vs.map key).Nodup) {v : α} (hv : v ∈ vs) :
    (without key (key v) vs).length + 1 = vs.length := by
  have hsplit := List.length_eq_length_filter_add (l := vs) (fun w => decide (key w = key v))
  rw [filter_key_eq hnodup hv, List.length_singleton] at hsplit
  have hrest : (without key (key v) vs) = vs.filter fun w => !decide (key w = key v) :=
    List.filter_congr fun w _ => decide_not
  rw [hrest]
  omega

/-- In a list whose keys are distinct, a value is found by its key. -/
theorem find?_key_eq {vs : List α} (hnodup : (vs.map key).Nodup) {v : α} (hv : v ∈ vs) :
    vs.find? (fun w => key w = key v) = some v := by
  rw [← List.head?_filter, filter_key_eq hnodup hv]
  rfl

/-- In a list whose keys are distinct, taking out the key of a value is taking out the value. -/
theorem without_eq_erase [DecidableEq α] {vs : List α} (hnodup : (vs.map key).Nodup) {v : α}
    (hv : v ∈ vs) : without key (key v) vs = vs.erase v := by
  rw [(List.Nodup.of_map _ hnodup).erase_eq_filter, without]
  apply List.filter_congr
  intro w hw
  have hiff : key w ≠ key v ↔ w ≠ v :=
    not_congr ⟨List.inj_on_of_nodup_map hnodup hw hv, congrArg key⟩
  rw [Bool.eq_iff_iff, decide_eq_true_iff, bne_iff_ne]
  exact hiff

theorem filter_map_snd (p : α → Bool) (ns : List (ℕ × α)) :
    (ns.filter fun n => p n.2).map Prod.snd = (ns.map Prod.snd).filter p := by
  rw [List.filter_map]
  rfl

/-- Erasing the iterator of a key leaves the values without the key. -/
theorem Indexed.values_erase (h : Indexed key l mm) {k : κ} {i : ℕ} (hk : mm.lookup k = some i) :
    (l.erase i).values = without key k l.values := by
  have hsame : l.nodes.filter (fun n => n.1 ≠ i) = l.nodes.filter fun n => key n.2 ≠ k :=
    List.filter_congr fun n hn => by rw [decide_eq_decide, Ne, h.addr_eq_iff hk hn]
  show (l.nodes.filter fun n => n.1 ≠ i).map Prod.snd = _
  rw [hsame]
  exact filter_map_snd (fun v => decide (key v ≠ k)) l.nodes

/-- Splicing the iterator of a key puts its value before the others. -/
theorem Indexed.values_spliceFront (h : Indexed key l mm) {k : κ} {i : ℕ} {v : α}
    (hk : mm.lookup k = some i) (hv : (i, v) ∈ l.nodes) :
    (l.spliceFront i).values = v :: without key k l.values := by
  have hkey : key v = k := (h.addr_eq_iff hk hv).mp rfl
  have hfront : (l.nodes.filter fun n => n.1 = i).map Prod.snd = [v] := by
    have hsame : l.nodes.filter (fun n => n.1 = i) = l.nodes.filter fun n => key n.2 = key v :=
      List.filter_congr fun n hn => by rw [decide_eq_decide, hkey, h.addr_eq_iff hk hn]
    rw [hsame, filter_map_snd fun w => decide (key w = key v)]
    exact filter_key_eq h.keys_nodup (mem_values.mpr ⟨i, hv⟩)
  have hrest : (l.nodes.filter fun n => n.1 ≠ i).map Prod.snd = without key k l.values :=
    h.values_erase hk
  rw [values, IterList.spliceFront, List.map_append, hfront, hrest]
  rfl

theorem Indexed.values_modify (h : Indexed key l mm) {k : κ} {i : ℕ} (hk : mm.lookup k = some i)
    (f : α → α) : (l.modify i f).values = l.values.map fun v => if key v = k then f v else v := by
  rw [values, values, IterList.modify, List.map_map, List.map_map]
  apply List.map_congr_left
  intro n hn
  dsimp only [Function.comp]
  by_cases hi : n.1 = i
  · rw [if_pos hi, if_pos ((h.addr_eq_iff hk hn).mp hi)]
  · rw [if_neg hi, if_neg fun hkey => hi ((h.addr_eq_iff hk hn).mpr hkey)]

/-- A value that is spliced and then changed stands, changed, before the others. -/
theorem Indexed.values_spliceFront_modify (h : Indexed key l mm) {k : κ} {i : ℕ} {v : α}
    (hk : mm.lookup k = some i) (hv : (i, v) ∈ l.nodes) (f : α → α) :
    ((l.spliceFront i).modify i f).values = f v :: without key k l.values := by
  have hkey : key v = k := (h.addr_eq_iff hk hv).mp rfl
  rw [(h.spliceFront i).values_modify hk, h.values_spliceFront hk hv, List.map_cons, if_pos hkey]
  have hrest : (without key k l.values).map (fun w => if key w = k then f w else w)
      = without key k l.values := by
    conv_rhs => rw [← List.map_id (without key k l.values)]
    exact List.map_congr_left fun w hw => if_neg (mem_without.mp hw).2
  rw [hrest]

/-- The map finds the value that a search of the list by its key finds. -/
theorem Indexed.find?_eq (h : Indexed key l mm) (k : κ) :
    l.values.find? (fun v => key v = k) = (mm.lookup k).bind l.get? := by
  cases hk : mm.lookup k with
  | none =>
    rw [Option.bind_none, List.find?_eq_none]
    intro v hv
    simpa using h.lookup_eq_none_iff.mp hk v hv
  | some i =>
    obtain ⟨v, hmem, rfl⟩ := h.found hk
    rw [Option.bind_some, get?_eq_some_iff.mpr hmem]
    exact find?_key_eq h.keys_nodup (mem_values.mpr ⟨i, hmem⟩)

/-- **A touched entry.**  The value of a key is changed and moved to the front. -/
theorem Indexed.touch (h : Indexed key l mm) {k : κ} {i : ℕ} (hk : mm.lookup k = some i)
    {f : α → α} (hf : ∀ v, key (f v) = key v) :
    Indexed key ((l.spliceFront i).modify i f) mm ∧
      ∃ v ∈ l.values, l.get? i = some v ∧ key v = k ∧
        ((l.spliceFront i).modify i f).values = f v :: without key k l.values := by
  obtain ⟨v, hmem, hv⟩ := h.found hk
  exact ⟨(h.spliceFront i).modify i hf, v, mem_values.mpr ⟨i, hmem⟩, get?_eq_some_iff.mpr hmem, hv,
    h.values_spliceFront_modify hk hmem f⟩

end Indexed

/-! ## The order of last use

The history lists what was used, the last use first; what stands earlier in it was used more
recently. -/

/-- The most recently used first. -/
def RecencyOrdered [DecidableEq κ] (history ks : List κ) : Prop :=
  ks.Pairwise fun a b => history.idxOf a < history.idxOf b

section Recency

variable [DecidableEq κ] {history ks : List κ} {k : κ}

theorem RecencyOrdered.cons (h : RecencyOrdered history ks) (hk : k ∉ ks) :
    RecencyOrdered (k :: history) ks := by
  refine List.Pairwise.imp_of_mem (fun {a b} ha hb hab => ?_) h
  have hka : k ≠ a := fun heq => hk (heq ▸ ha)
  have hkb : k ≠ b := fun heq => hk (heq ▸ hb)
  rw [List.idxOf_cons_ne _ hka, List.idxOf_cons_ne _ hkb]
  exact Nat.succ_lt_succ hab

theorem RecencyOrdered.use (h : RecencyOrdered history ks) (hk : k ∉ ks) :
    RecencyOrdered (k :: history) (k :: ks) := by
  refine List.pairwise_cons.mpr ⟨fun b hb => ?_, h.cons hk⟩
  have hkb : k ≠ b := fun heq => hk (heq ▸ hb)
  rw [List.idxOf_cons_self, List.idxOf_cons_ne _ hkb]
  exact Nat.succ_pos _

theorem RecencyOrdered.sublist {ks' : List κ} (h : RecencyOrdered history ks)
    (hsub : ks'.Sublist ks) : RecencyOrdered history ks' :=
  List.Pairwise.sublist hsub h

end Recency

end IterList
