/-
# Hash tables that grow while they are walked

A walk over a hash table meets its nodes one after the other, from an iterator that stays at its
node while keys are inserted.  A table is therefore the list of its keys in the order of the nodes,
with the number of keys that fit before the next rehash (`Table`).  What an implementation may do
with a new key is an `Insertion`: it puts the key anywhere, and the other nodes change places only
in a rehash, when the table is full.

* `Grows.fits`: as long as no more keys are inserted than fit, nothing is moved;
* `after k l` is what a walk at `k` has still to meet, and `next` its next node; `after_next` is a
  step of the walk, and `after_mono` says that keys inserted without a rehash hide nothing;
* `chained` is the insertion of libstdc++, where a rehash can turn the order round.
-/
import Mathlib

namespace HashTables

variable {κ : Type*}

/-! ## Tables -/

/-- A table: its keys in the order in which a walk meets them, and how many of them fit before it
is rehashed. -/
structure Table (κ : Type*) where
  order : List κ
  capacity : ℕ
  length_le : order.length ≤ capacity

/-- How a table takes in a key that it does not have. -/
structure Insertion (κ : Type*) where
  insert : Table κ → κ → Table κ
  /-- The key is added. -/
  perm : ∀ (t : Table κ) (k : κ), (insert t k).order.Perm (k :: t.order)
  /-- Without a rehash the nodes stay where they are. -/
  sublist : ∀ (t : Table κ) (k : κ), t.order.length < t.capacity →
    t.order.Sublist (insert t k).order
  /-- Without a rehash there are no new buckets. -/
  capacity_eq : ∀ (t : Table κ) (k : κ), t.order.length < t.capacity →
    (insert t k).capacity = t.capacity

namespace Insertion

variable (H : Insertion κ) {t t' : Table κ} {k : κ}

theorem length_insert (t : Table κ) (k : κ) :
    (H.insert t k).order.length = t.order.length + 1 :=
  (H.perm t k).length_eq

theorem mem_insert {x : κ} : x ∈ (H.insert t k).order ↔ x = k ∨ x ∈ t.order := by
  rw [(H.perm t k).mem_iff, List.mem_cons]

theorem nodup_insert (hk : k ∉ t.order) (h : t.order.Nodup) : (H.insert t k).order.Nodup :=
  (H.perm t k).nodup_iff.mpr (List.nodup_cons.mpr ⟨hk, h⟩)

/-- New keys have been inserted, one after the other. -/
def Grows : Table κ → Table κ → Prop :=
  Relation.ReflTransGen fun t t' => ∃ k, k ∉ t.order ∧ t' = H.insert t k

variable {H}

theorem Grows.subset (h : H.Grows t t') : t.order ⊆ t'.order := by
  induction h with
  | refl => exact List.Subset.refl _
  | tail _ hadd ih =>
    obtain ⟨k, -, rfl⟩ := hadd
    exact fun x hx => H.mem_insert.mpr (.inr (ih hx))

/-- A table does not shrink. -/
theorem Grows.length_le (h : H.Grows t t') : t.order.length ≤ t'.order.length := by
  induction h with
  | refl => exact le_rfl
  | tail _ hadd ih =>
    obtain ⟨k, -, rfl⟩ := hadd
    rw [length_insert]
    omega

/-- **As long as the keys fit, nothing is moved.** -/
theorem Grows.fits (h : H.Grows t t') (hfits : t'.order.length ≤ t.capacity) :
    t.order.Sublist t'.order ∧ t'.capacity = t.capacity := by
  induction h with
  | refl => exact ⟨List.Sublist.refl _, rfl⟩
  | tail _ hadd ih =>
    obtain ⟨k, -, rfl⟩ := hadd
    rw [length_insert] at hfits
    obtain ⟨hsub, hcap⟩ := ih (by omega)
    exact ⟨hsub.trans (H.sublist _ k (by omega)), (H.capacity_eq _ k (by omega)).trans hcap⟩

end Insertion

/-! ## Walks -/

section Walk

variable [DecidableEq κ] {k x y : κ} {l l' : List κ}

/-- The nodes behind the node of `k`. -/
def after (k : κ) : List κ → List κ
  | [] => []
  | x :: l => if x = k then l else after k l

/-- The node that a walk meets after the node of `k`. -/
def next (k : κ) (l : List κ) : Option κ := (after k l).head?

theorem mem_of_mem_after (h : x ∈ after k l) : x ∈ l := by
  induction l with
  | nil => exact h
  | cons a l ih =>
    rw [after] at h
    split_ifs at h
    · exact List.mem_cons_of_mem a h
    · exact List.mem_cons_of_mem a (ih h)

/-- A walk that is at a node has met that one. -/
theorem length_after_lt (h : k ∈ l) : (after k l).length < l.length := by
  induction l with
  | nil => cases h
  | cons a l ih =>
    rw [after, List.length_cons]
    split_ifs with hk
    · exact Nat.lt_succ_self _
    · have hmem : k ∈ l := (List.mem_cons.mp h).resolve_left (Ne.symm hk)
      exact (ih hmem).trans (Nat.lt_succ_self _)

/-- What holds between a node and the later ones. -/
theorem rel_of_mem_after {R : κ → κ → Prop} (h : l.Pairwise R) (hx : x ∈ after k l) : R k x := by
  induction l with
  | nil => cases hx
  | cons a l ih =>
    obtain ⟨ha, hl⟩ := List.pairwise_cons.mp h
    rw [after] at hx
    split_ifs at hx with hk
    · exact hk ▸ ha x hx
    · exact ih hl hx

/-- **A step of a walk.** -/
theorem after_next (hl : l.Nodup) (h : next k l = some y) : after k l = y :: after y l := by
  induction l with
  | nil => cases h
  | cons a l ih =>
    obtain ⟨ha, hl⟩ := List.nodup_cons.mp hl
    by_cases hk : a = k
    · rw [next, after, if_pos hk] at h
      obtain ⟨post, rfl⟩ := List.head?_eq_some_iff.mp h
      have hne : a ≠ y := fun heq => ha (heq ▸ List.mem_cons_self)
      rw [after, if_pos hk, after, if_neg hne, after, if_pos rfl]
    · rw [next, after, if_neg hk, ← next] at h
      have hmem : y ∈ l := mem_of_mem_after (List.mem_of_head? h)
      have hne : a ≠ y := fun heq => ha (heq ▸ hmem)
      rw [after, if_neg hk, ih hl h]
      rw [after, if_neg hne]

/-- Keys that are inserted without a rehash hide no other from the walk. -/
theorem after_mono (h : l.Sublist l') (hx : x ∈ after k l) : x ∈ after k l' := by
  induction h with
  | slnil => exact hx
  | @cons l l' a hsub ih =>
    rw [after]
    split_ifs
    · exact hsub.subset (mem_of_mem_after hx)
    · exact ih hx
  | @cons_cons l l' a hsub ih =>
    rw [after] at hx ⊢
    split_ifs at hx ⊢
    · exact hsub.subset hx
    · exact ih hx

end Walk

/-! ## Chained nodes -/

section Chained

/-- A new node goes before the nodes of its bucket, or to the front when the bucket is empty. -/
def place (bucket : κ → ℕ) (k : κ) (nodes : List κ) : List κ :=
  if nodes.any fun x => bucket x = bucket k then
    (nodes.takeWhile fun x => bucket x ≠ bucket k) ++ k ::
      nodes.dropWhile fun x => bucket x ≠ bucket k
  else k :: nodes

/-- A rehash places the nodes again, one after the other. -/
def rehash (bucket : κ → ℕ) (nodes : List κ) : List κ :=
  nodes.foldl (fun placed k => place bucket k placed) []

/-- The number of buckets after a rehash of a table that is filled key by key: a prime that is at
least the double. -/
def buckets (capacity : ℕ) : ℕ :=
  ([13, 29, 59, 127, 257, 541, 1109, 2357].find? (2 * capacity < ·)).getD (2 * capacity + 1)

theorem place_perm (bucket : κ → ℕ) (k : κ) (nodes : List κ) :
    (place bucket k nodes).Perm (k :: nodes) := by
  rw [place]
  split_ifs
  · refine List.perm_middle.trans (List.Perm.cons k ?_)
    rw [List.takeWhile_append_dropWhile]
  · exact List.Perm.refl _

theorem sublist_place (bucket : κ → ℕ) (k : κ) (nodes : List κ) :
    nodes.Sublist (place bucket k nodes) := by
  rw [place]
  split_ifs
  · conv_lhs =>
      rw [← List.takeWhile_append_dropWhile (p := fun x => bucket x ≠ bucket k) (l := nodes)]
    exact (List.Sublist.refl _).append (List.sublist_cons_self k _)
  · exact List.sublist_cons_self k nodes

theorem rehash_perm (bucket : κ → ℕ) (nodes : List κ) : (rehash bucket nodes).Perm nodes := by
  induction nodes using List.reverseRecOn with
  | nil => exact List.Perm.refl _
  | append_singleton nodes k ih =>
    rw [rehash, List.foldl_append, List.foldl_cons, List.foldl_nil, ← rehash]
    exact (place_perm bucket k _).trans ((ih.cons k).trans
      (List.perm_append_singleton k nodes).symm)

theorem lt_buckets (capacity : ℕ) : 2 * capacity < buckets capacity := by
  unfold buckets
  cases hfind : [13, 29, 59, 127, 257, 541, 1109, 2357].find? (2 * capacity < ·) with
  | none => exact Nat.lt_succ_self _
  | some n =>
    have hlt := List.find?_some hfind
    exact of_decide_eq_true hlt

/-- **The table of libstdc++**, with the load factor 1: the nodes are one list, in which those of
a bucket are next to each other. -/
def chained (hash : κ → ℕ) : Insertion κ where
  insert t k :=
    if h : t.order.length < t.capacity then
      { order := place (fun x => hash x % t.capacity) k t.order
        capacity := t.capacity
        length_le := (place_perm _ k t.order).length_eq.trans_le h }
    else
      let bucket := fun x => hash x % buckets t.capacity
      { order := place bucket k (rehash bucket t.order)
        capacity := buckets t.capacity
        length_le := by
          have hle := t.length_le
          have hlt := lt_buckets t.capacity
          rw [(place_perm _ k _).length_eq, List.length_cons, (rehash_perm _ t.order).length_eq]
          omega }
  perm t k := by
    split_ifs
    · exact place_perm _ k t.order
    · exact (place_perm _ k _).trans ((rehash_perm _ t.order).cons k)
  sublist t k h := by
    rw [dif_pos h]
    exact sublist_place _ k t.order
  capacity_eq t k h := by
    rw [dif_pos h]

end Chained

end HashTables
