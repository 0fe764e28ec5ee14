/-
# The memory allocator

Model of `algorithms/DynamicMemeoryAllocator.cpp`: free and allocated blocks in two ordered maps
from start addresses to sizes.  `custom_malloc` takes the first free block that is large enough and
puts the rest back; `custom_free` joins the block with the free blocks before and after it.

The two maps together tile the memory, and no free block ends where another one starts.
-/
import SystemsDesign.IntervalTiling
import SystemsDesign.OrderedMap
import SystemsDesign.TransitionSystem

namespace MemoryAllocation

open OrderedMap

/-- The fields of `DynamicMemoryAllocator` and the lines printed so far, the last one first. -/
structure DynamicMemoryAllocator where
  available : OrderedMap ℤ ℤ
  allocated : OrderedMap ℤ ℤ := ∅
  printed : List String := []

namespace DynamicMemoryAllocator

/-- The constructor: one free block. -/
def new (totalMemory : ℤ) : DynamicMemoryAllocator :=
  { available := (∅ : OrderedMap ℤ ℤ).insert 0 totalMemory }

/-- `custom_malloc`: the start of the block, or `-1`. -/
def customMalloc (m : DynamicMemoryAllocator) (requestedSize : ℤ) :
    ℤ × DynamicMemoryAllocator :=
  match m.available.toList.find? fun block => requestedSize ≤ block.2 with
  | none => (-1, m)
  | some (blockStart, blockSize) =>
    let available := m.available.erase blockStart
    let available :=
      if requestedSize < blockSize then
        available.insert (blockStart + requestedSize) (blockSize - requestedSize)
      else available
    (blockStart,
      { m with available := available, allocated := m.allocated.insert blockStart requestedSize })

/-- The block at `curr` is joined with the next free block if that starts where it ends. -/
def mergeNext (available : OrderedMap ℤ ℤ) (curr size : ℤ) : OrderedMap ℤ ℤ × ℤ :=
  match available.toList.find? fun block => curr < block.1 with
  | none => (available, size)
  | some (nextStart, nextSize) =>
    if curr + size = nextStart then
      ((available.insert curr (size + nextSize)).erase nextStart, size + nextSize)
    else (available, size)

/-- The block at `curr` is joined with the previous free block if that ends where it starts. -/
def mergePrev (available : OrderedMap ℤ ℤ) (curr size : ℤ) : OrderedMap ℤ ℤ :=
  match available.toList.reverse.find? fun block => block.1 < curr with
  | none => available
  | some (prevStart, prevSize) =>
    if prevStart + prevSize = curr then
      (available.insert prevStart (prevSize + size)).erase curr
    else available

/-- `custom_free`. -/
def customFree (m : DynamicMemoryAllocator) (address : ℤ) : DynamicMemoryAllocator :=
  match m.allocated[address]? with
  | none => { m with printed := "Invalid FREE address!" :: m.printed }
  | some blockSize =>
    let merged := mergeNext (m.available.insert address blockSize) address blockSize
    { m with
      available := mergePrev merged.1 address merged.2
      allocated := m.allocated.erase address }

end DynamicMemoryAllocator

/-- The calls on the allocator. -/
inductive Call where
  | malloc (requestedSize : ℤ)
  | free (address : ℤ)
  deriving DecidableEq, Repr

/-- The allocator after a call. -/
def DynamicMemoryAllocator.step (m : DynamicMemoryAllocator) : Call → DynamicMemoryAllocator
  | .malloc requestedSize => (m.customMalloc requestedSize).2
  | .free address => m.customFree address

/-! ## Free and used blocks

The maps as partial functions: `F` for the free blocks and `A` for the allocated ones. -/

/-- The blocks of both kinds. -/
def block (F A : ℤ → Option ℤ) (x : ℤ) : Option ℤ := (F x).or (A x)

/-- The blocks of both kinds tile the memory, and no block is of both kinds. -/
structure Tiled (T : ℤ) (F A : ℤ → Option ℤ) : Prop where
  tiling : Tiling (block F A) T
  disjoint : ∀ {x s}, F x = some s → A x = none

/-- No free block ends where another one starts. -/
def Separated (F : ℤ → Option ℤ) : Prop := ∀ x s, F x = some s → F (x + s) = none

section Blocks

variable {T : ℤ} {F A : ℤ → Option ℤ} {x s : ℤ}

theorem block_of_free (hx : F x = some s) : block F A x = some s := by
  rw [block, hx, Option.some_or]

theorem Tiled.free_of_used (h : Tiled T F A) (hx : A x = some s) : F x = none := by
  by_contra hne
  obtain ⟨s', hs'⟩ := Option.ne_none_iff_exists'.mp hne
  rw [h.disjoint hs'] at hx
  cases hx

theorem block_eq_none (hx : block F A x = none) : F x = none ∧ A x = none :=
  Option.or_eq_none_iff.mp hx

theorem Tiled.block_eq_some (h : Tiled T F A) :
    block F A x = some s ↔ F x = some s ∨ A x = some s := by
  rw [block, Option.or_eq_some_iff]
  exact ⟨Or.imp_right And.right, fun hx => hx.imp_right fun hused => ⟨h.free_of_used hused, hused⟩⟩

/-- The blocks stay the same when one changes its kind. -/
theorem Tiled.release (h : Tiled T F A) (hx : A x = some s) :
    Tiled T (Function.update F x (some s)) (Function.update A x none) := by
  have hsame : block (Function.update F x (some s)) (Function.update A x none) = block F A := by
    funext y
    by_cases hy : y = x
    · subst hy
      rw [block, block, Function.update_self, h.free_of_used hx, hx]
      rfl
    · rw [block, block, Function.update_of_ne hy, Function.update_of_ne hy]
  refine ⟨hsame ▸ h.tiling, fun {y t} hy => ?_⟩
  by_cases hyx : y = x
  · rw [hyx, Function.update_self]
  · rw [Function.update_of_ne hyx] at hy ⊢
    exact h.disjoint hy

theorem Tiled.allocate (h : Tiled T F A) (hx : F x = some s) :
    Tiled T (Function.update F x none) (Function.update A x (some s)) := by
  have hsame : block (Function.update F x none) (Function.update A x (some s)) = block F A := by
    funext y
    by_cases hy : y = x
    · subst hy
      rw [block, block, Function.update_self, Function.update_self, hx]
      rfl
    · rw [block, block, Function.update_of_ne hy, Function.update_of_ne hy]
  refine ⟨hsame ▸ h.tiling, fun {y t} hy => ?_⟩
  by_cases hyx : y = x
  · rw [hyx, Function.update_self] at hy
    cases hy
  · rw [Function.update_of_ne hyx] at hy ⊢
    exact h.disjoint hy

theorem Tiled.allocate_part (h : Tiled T F A) {r : ℤ} (hx : F x = some s) (hr : 0 < r)
    (hrs : r < s) :
    Tiled T (Function.update (Function.update F x none) (x + r) (some (s - r)))
      (Function.update A x (some r)) := by
  have hmid := block_eq_none
    (h.tiling.inside (block_of_free hx) (by omega) (by omega) : block F A (x + r) = none)
  have hne : x ≠ x + r := by omega
  refine ⟨h.tiling.split (block_of_free hx) hr hrs ?_ ?_ fun y hyx hyr => ?_, fun {y t} hy => ?_⟩
  · rw [block, Function.update_of_ne hne, Function.update_self, Function.update_self]
    rfl
  · exact block_of_free (Function.update_self ..)
  · rw [block, block, Function.update_of_ne hyr, Function.update_of_ne hyx,
      Function.update_of_ne hyx]
  · by_cases hyr : y = x + r
    · rw [hyr, Function.update_of_ne hne.symm]
      exact hmid.2
    · rw [Function.update_of_ne hyr] at hy
      by_cases hyx : y = x
      · rw [hyx, Function.update_self] at hy
        cases hy
      · rw [Function.update_of_ne hyx] at hy ⊢
        exact h.disjoint hy

theorem Tiled.join (h : Tiled T F A) {s' : ℤ} (hx : F x = some s) (hx' : F (x + s) = some s') :
    Tiled T (Function.update (Function.update F x (some (s + s'))) (x + s) none) A := by
  have hpos := h.tiling.bounds (block_of_free hx)
  have hne : x ≠ x + s := by omega
  refine ⟨h.tiling.join (block_of_free hx) (block_of_free hx') ?_ ?_ fun y hyx hys => ?_,
    fun {y t} hy => ?_⟩
  · exact block_of_free (by rw [Function.update_of_ne hne, Function.update_self])
  · rw [block, Function.update_self, h.disjoint hx']
    rfl
  · rw [block, block, Function.update_of_ne hys, Function.update_of_ne hyx]
  · by_cases hys : y = x + s
    · rw [hys, Function.update_self] at hy
      cases hy
    · rw [Function.update_of_ne hys] at hy
      by_cases hyx : y = x
      · exact hyx ▸ h.disjoint hx
      · rw [Function.update_of_ne hyx] at hy
        exact h.disjoint hy

end Blocks

/-! ## `custom_malloc` -/

/-- The invariant. -/
structure Partitioned (T : ℤ) (m : DynamicMemoryAllocator) : Prop where
  tiled : Tiled T (lookup m.available) (lookup m.allocated)
  separated : Separated (lookup m.available)

variable {T : ℤ} {m : DynamicMemoryAllocator}

theorem Separated.drop {F : ℤ → Option ℤ} (h : Separated F) (x : ℤ) :
    Separated (Function.update F x none) := by
  intro y t hy
  have hyx : y ≠ x := by
    rintro rfl
    simp at hy
  rw [Function.update_of_ne hyx] at hy
  by_cases hend : y + t = x
  · rw [hend, Function.update_self]
  · rw [Function.update_of_ne hend]
    exact h y t hy

/-- Free blocks stay apart from one that is added where none of them ends and none begins. -/
theorem Separated.put {F : ℤ → Option ℤ} (h : Separated F) {x s : ℤ} (hs : s ≠ 0)
    (hbefore : ∀ y t, y ≠ x → F y = some t → y + t ≠ x) (hafter : F (x + s) = none) :
    Separated (Function.update F x (some s)) := by
  intro y t hy
  by_cases hyx : y = x
  · subst hyx
    obtain rfl : s = t := by simpa using hy
    rw [Function.update_of_ne (by omega)]
    exact hafter
  · rw [Function.update_of_ne hyx] at hy
    rw [Function.update_of_ne (hbefore y t hyx hy)]
    exact h y t hy

/-- The free blocks stay apart when the first part of a block is taken. -/
theorem Separated.take {F A : ℤ → Option ℤ} (h : Separated F) (ht : Tiled T F A) {x s r : ℤ}
    (hx : F x = some s) (hr : 0 < r) (hrs : r < s) :
    Separated (Function.update (Function.update F x none) (x + r) (some (s - r))) := by
  refine (h.drop x).put (by omega) (fun y t _ hy => ?_) ?_
  · have hyx : y ≠ x := by
      rintro rfl
      simp at hy
    rw [Function.update_of_ne hyx] at hy
    rcases lt_or_gt_of_ne hyx with hlt | hlt
    · have := ht.tiling.disjoint (block_of_free hy) (block_of_free hx) hlt
      omega
    · have := ht.tiling.disjoint (block_of_free hx) (block_of_free hy) hlt
      have := ht.tiling.bounds (block_of_free hy)
      omega
  · have hend : x + r + (s - r) = x + s := by ring
    rw [hend, Function.update_of_ne (by omega)]
    exact h x s hx

/-- **`custom_malloc`** returns `-1` and changes nothing if no free block is large enough; otherwise
it returns the lowest start of one that is. -/
theorem customMalloc_spec (m : DynamicMemoryAllocator) (r : ℤ) :
    (∀ x s, lookup m.available x = some s → s < r) ∧ m.customMalloc r = (-1, m) ∨
      ∃ x s, lookup m.available x = some s ∧ r ≤ s ∧
        (∀ x' s', lookup m.available x' = some s' → r ≤ s' → x ≤ x') ∧
        (m.customMalloc r).1 = x ∧
        lookup (m.customMalloc r).2.allocated
          = Function.update (lookup m.allocated) x (some r) ∧
        lookup (m.customMalloc r).2.available
          = if r < s then
              Function.update (Function.update (lookup m.available) x none) (x + r) (some (s - r))
            else Function.update (lookup m.available) x none := by
  rw [DynamicMemoryAllocator.customMalloc]
  cases hfind : m.available.toList.find? fun block => decide (r ≤ block.2) with
  | none =>
    refine Or.inl ⟨fun x s hx => ?_, rfl⟩
    simpa using find?_toList_eq_none.mp hfind x s hx
  | some b =>
    obtain ⟨x, s⟩ := b
    obtain ⟨hx, hfit, hleast⟩ := find?_toList_eq_some hfind
    refine Or.inr ⟨x, s, hx, of_decide_eq_true hfit, fun x' s' hx' hfit' => ?_, rfl,
      lookup_insert _ _ _, ?_⟩
    · exact hleast x' s' hx' (decide_eq_true hfit')
    · dsimp only
      split_ifs
      · rw [lookup_insert, lookup_erase]
      · rw [lookup_erase]

/-- `custom_malloc` fails exactly when no free block is large enough. -/
theorem Partitioned.customMalloc_eq_neg_one (h : Partitioned T m) {r : ℤ} :
    (m.customMalloc r).1 = -1 ↔ ∀ x s, lookup m.available x = some s → s < r := by
  rcases customMalloc_spec m r with ⟨hall, heq⟩ | ⟨x, s, hx, hfit, -, hresult, -⟩
  · rw [heq]
    exact ⟨fun _ => hall, fun _ => rfl⟩
  · have hb := h.tiled.tiling.bounds (block_of_free hx)
    rw [hresult]
    constructor
    · omega
    · intro hall
      have := hall x s hx
      omega

theorem customMalloc_lowest {r : ℤ} (hne : (m.customMalloc r).1 ≠ -1) :
    (∃ s, lookup m.available (m.customMalloc r).1 = some s ∧ r ≤ s) ∧
      ∀ x s, lookup m.available x = some s → r ≤ s → (m.customMalloc r).1 ≤ x := by
  rcases customMalloc_spec m r with ⟨-, heq⟩ | ⟨x, s, hx, hfit, hleast, hresult, -⟩
  · rw [heq] at hne
    exact absurd rfl hne
  · rw [hresult]
    exact ⟨⟨s, hx, hfit⟩, hleast⟩

theorem Partitioned.customMalloc (h : Partitioned T m) {r : ℤ} (hr : 1 ≤ r) :
    Partitioned T (m.customMalloc r).2 := by
  rcases customMalloc_spec m r with ⟨-, heq⟩ | ⟨x, s, hx, hfit, -, -, hallocated, havailable⟩
  · rw [heq]
    exact h
  · refine ⟨?_, ?_⟩
    · rw [hallocated, havailable]
      split_ifs with hlt
      · exact h.tiled.allocate_part hx (by omega) hlt
      · obtain rfl : r = s := by omega
        exact h.tiled.allocate hx
    · rw [havailable]
      split_ifs with hlt
      · exact h.separated.take h.tiled hx (by omega) hlt
      · exact h.separated.drop x

/-! ## `custom_free` -/

section Merge

variable {available : OrderedMap ℤ ℤ} {A : ℤ → Option ℤ} {x s : ℤ}

/-- The block is joined with the next free one exactly if a free block starts at its end. -/
theorem mergeNext_spec (h : Tiled T (lookup available) A) (hx : lookup available x = some s) :
    (∃ s', lookup available (x + s) = some s' ∧
        DynamicMemoryAllocator.mergeNext available x s
          = ((available.insert x (s + s')).erase (x + s), s + s')) ∨
      lookup available (x + s) = none ∧
        DynamicMemoryAllocator.mergeNext available x s = (available, s) := by
  have hpos := h.tiling.bounds (block_of_free hx)
  rw [DynamicMemoryAllocator.mergeNext]
  cases hfind : available.toList.find? fun block => decide (x < block.1) with
  | none =>
    refine Or.inr ⟨Option.eq_none_iff_forall_ne_some.mpr fun s' hs' => ?_, rfl⟩
    have hnot := find?_toList_eq_none.mp hfind (x + s) s' hs'
    simp only [decide_eq_true_eq] at hnot
    omega
  | some b =>
    obtain ⟨n, s'⟩ := b
    obtain ⟨hn, hlt, hleast⟩ := find?_toList_eq_some hfind
    have hlt : x < n := of_decide_eq_true hlt
    dsimp only
    split_ifs with hend
    · subst hend
      exact Or.inl ⟨s', hn, rfl⟩
    · refine Or.inr ⟨Option.eq_none_iff_forall_ne_some.mpr fun t ht => ?_, rfl⟩
      -- A free block at the end would be the next one.
      have hle := hleast (x + s) t ht (decide_eq_true (by omega))
      have hge := h.tiling.disjoint (block_of_free hx) (block_of_free hn) hlt
      omega

/-- The block is joined with the previous free one exactly if a free block ends at its start. -/
theorem mergePrev_spec (h : Tiled T (lookup available) A) :
    (∃ p t, lookup available p = some t ∧ p + t = x ∧
        DynamicMemoryAllocator.mergePrev available x s = (available.insert p (t + s)).erase x) ∨
      (∀ p t, lookup available p = some t → p + t ≠ x) ∧
        DynamicMemoryAllocator.mergePrev available x s = available := by
  rw [DynamicMemoryAllocator.mergePrev]
  cases hfind : available.toList.reverse.find? fun block => decide (block.1 < x) with
  | none =>
    refine Or.inr ⟨fun p t hp hend => ?_, rfl⟩
    have hpos := h.tiling.bounds (block_of_free hp)
    have hnot := List.find?_eq_none.mp hfind (p, t)
      (List.mem_reverse.mpr (mem_toList_iff.mpr hp))
    simp only [decide_eq_true_eq] at hnot
    omega
  | some b =>
    obtain ⟨p, t⟩ := b
    obtain ⟨hp, hlt, hgreatest⟩ := find?_reverse_toList_eq_some hfind
    have hlt : p < x := of_decide_eq_true hlt
    dsimp only
    split_ifs with hend
    · exact Or.inl ⟨p, t, hp, hend, rfl⟩
    · refine Or.inr ⟨fun p' t' hp' hend' => ?_, rfl⟩
      have hpos := h.tiling.bounds (block_of_free hp')
      have hle := hgreatest p' t' hp' (decide_eq_true (by show p' < x; omega))
      rcases lt_or_eq_of_le hle with hlt' | rfl
      · have := h.tiling.disjoint (block_of_free hp') (block_of_free hp) hlt'
        omega
      · obtain rfl := Option.some.inj (hp.symm.trans hp')
        exact hend hend'

end Merge

/-- No free block ends where another one starts, unless that starts at `a`. -/
def SeparatedBut (F : ℤ → Option ℤ) (a : ℤ) : Prop :=
  ∀ x s, F x = some s → x + s ≠ a → F (x + s) = none

section Free

variable {F A : ℤ → Option ℤ} {a s : ℤ}

/-- After the join with the next block only a block that ends at `a` can have a free neighbour. -/
theorem Separated.joinNext (h : Separated F) {s' : ℤ} (hnext : F (a + s) = some s') :
    SeparatedBut (Function.update (Function.update (Function.update F a (some s)) a
      (some (s + s'))) (a + s) none) a := by
  intro x t hx hne
  by_cases hxs : x = a + s
  · rw [hxs, Function.update_self] at hx
    cases hx
  rw [Function.update_of_ne hxs] at hx
  by_cases hend : x + t = a + s
  · rw [hend, Function.update_self]
  rw [Function.update_of_ne hend, Function.update_of_ne hne, Function.update_of_ne hne]
  by_cases hxa : x = a
  · subst hxa
    rw [Function.update_self] at hx
    obtain rfl := Option.some.inj hx
    rw [← add_assoc]
    exact h (x + s) s' hnext
  · rw [Function.update_of_ne hxa, Function.update_of_ne hxa] at hx
    exact h x t hx

/-- Without a free block at the end of the new one it is the same. -/
theorem Separated.keepNext (h : Separated F) (hnext : F (a + s) = none) :
    SeparatedBut (Function.update F a (some s)) a := by
  intro x t hx hne
  rw [Function.update_of_ne hne]
  by_cases hxa : x = a
  · subst hxa
    rw [Function.update_self] at hx
    obtain rfl := Option.some.inj hx
    exact hnext
  · rw [Function.update_of_ne hxa] at hx
    exact h x t hx

/-- After the join with the previous block the free blocks are apart. -/
theorem SeparatedBut.joinPrev (h : SeparatedBut F a) (ht : Tiled T F A) {p t : ℤ}
    (ha : F a = some s) (hp : F p = some t) (hend : p + t = a) :
    Separated (Function.update (Function.update F p (some (t + s))) a none) := by
  have hposa := ht.tiling.bounds (block_of_free ha)
  have hposp := ht.tiling.bounds (block_of_free hp)
  intro x u hx
  have hxa : x ≠ a := by
    rintro rfl
    simp at hx
  rw [Function.update_of_ne hxa] at hx
  by_cases hxp : x = p
  · subst hxp
    rw [Function.update_self] at hx
    obtain rfl := Option.some.inj hx
    have heq : x + (t + s) = a + s := by rw [← hend]; ring
    rw [heq, Function.update_of_ne (by omega), Function.update_of_ne (by omega)]
    exact h a s ha (by omega)
  · rw [Function.update_of_ne hxp] at hx
    -- Two blocks cannot end at the same address.
    have hne : x + u ≠ a := by
      have hposx := ht.tiling.bounds (block_of_free hx)
      rcases lt_or_gt_of_ne hxp with hlt | hlt
      · have := ht.tiling.disjoint (block_of_free hx) (block_of_free hp) hlt
        omega
      · have := ht.tiling.disjoint (block_of_free hp) (block_of_free hx) hlt
        omega
    have hnone := h x u hx hne
    have hnep : x + u ≠ p := by
      intro heq
      rw [heq, hp] at hnone
      cases hnone
    rw [Function.update_of_ne hne, Function.update_of_ne hnep, hnone]

end Free

/-- An address that is not an allocated start: nothing changes. -/
theorem customFree_invalid {a : ℤ} (ha : lookup m.allocated a = none) :
    m.customFree a = { m with printed := "Invalid FREE address!" :: m.printed } := by
  have ha' : m.allocated[a]? = none := ha
  rw [DynamicMemoryAllocator.customFree, ha']

/-- The first join of `custom_free`. -/
theorem mergeNext_separated {available : OrderedMap ℤ ℤ} {A : ℤ → Option ℤ} {a s : ℤ}
    (h : Separated (lookup available)) (ht : Tiled T (lookup (available.insert a s)) A) :
    ∃ available' s',
      DynamicMemoryAllocator.mergeNext (available.insert a s) a s = (available', s') ∧
      lookup available' a = some s' ∧ Tiled T (lookup available') A ∧
      SeparatedBut (lookup available') a := by
  have ha : lookup (available.insert a s) a = some s := by rw [lookup_insert, Function.update_self]
  have hne : a + s ≠ a := by
    have := ht.tiling.bounds (block_of_free ha)
    omega
  rcases mergeNext_spec ht ha with ⟨s', hs', heq⟩ | ⟨hs', heq⟩
  · refine ⟨_, _, heq, ?_⟩
    have hjoined := ht.join ha hs'
    rw [lookup_insert, Function.update_of_ne hne] at hs'
    rw [lookup_erase, lookup_insert]
    refine ⟨?_, hjoined, ?_⟩
    · rw [Function.update_of_ne hne.symm, Function.update_self]
    · rw [lookup_insert]
      exact h.joinNext hs'
  · refine ⟨_, _, heq, ha, ht, ?_⟩
    rw [lookup_insert, Function.update_of_ne hne] at hs'
    rw [lookup_insert]
    exact h.keepNext hs'

theorem mergePrev_separated {available : OrderedMap ℤ ℤ} {A : ℤ → Option ℤ} {a s : ℤ}
    (h : SeparatedBut (lookup available) a) (ht : Tiled T (lookup available) A)
    (ha : lookup available a = some s) :
    Tiled T (lookup (DynamicMemoryAllocator.mergePrev available a s)) A ∧
      Separated (lookup (DynamicMemoryAllocator.mergePrev available a s)) := by
  rcases mergePrev_spec ht with ⟨p, t, hp, hend, heq⟩ | ⟨hnone, heq⟩
  · rw [heq, lookup_erase, lookup_insert]
    refine ⟨?_, h.joinPrev ht ha hp hend⟩
    subst hend
    exact ht.join hp ha
  · rw [heq]
    exact ⟨ht, fun x u hx => h x u hx (hnone x u hx)⟩

/-- **`custom_free`** keeps the memory partitioned; the address is not an allocated start
afterwards. -/
theorem Partitioned.customFree (h : Partitioned T m) (a : ℤ) :
    Partitioned T (m.customFree a) ∧
      lookup (m.customFree a).allocated = Function.update (lookup m.allocated) a none := by
  cases ha : lookup m.allocated a with
  | none =>
    rw [customFree_invalid ha]
    exact ⟨⟨h.tiled, h.separated⟩, (Function.update_eq_self_iff.mpr ha.symm).symm⟩
  | some s =>
    have ha' : m.allocated[a]? = some s := ha
    have hreleased := h.tiled.release ha
    rw [← lookup_insert, ← lookup_erase] at hreleased
    obtain ⟨available', s', hnext, hs', htiled, hbut⟩ := mergeNext_separated h.separated hreleased
    obtain ⟨htiled', hseparated⟩ := mergePrev_separated hbut htiled hs'
    rw [DynamicMemoryAllocator.customFree, ha']
    simp only [hnext]
    exact ⟨⟨htiled', hseparated⟩, lookup_erase _ _⟩

/-! ## Every sequence of calls -/

theorem partitioned_new (hT : 1 ≤ T) : Partitioned T (DynamicMemoryAllocator.new T) := by
  have hfree : lookup (DynamicMemoryAllocator.new T).available
      = Function.update (fun _ => none) 0 (some T) := by
    rw [DynamicMemoryAllocator.new, lookup_insert]
    congr 1
  have hused : lookup (DynamicMemoryAllocator.new T).allocated = fun _ => none := rfl
  refine ⟨⟨Tiling.single (by omega) ?_ fun y hy => ?_, fun _ => rfl⟩, fun x s hx => ?_⟩
  · exact block_of_free (by rw [hfree, Function.update_self])
  · rw [block, hfree, hused, Function.update_of_ne hy]
    rfl
  · rw [hfree] at hx ⊢
    have hx0 : x = 0 := by
      by_contra hne
      rw [Function.update_of_ne hne] at hx
      cases hx
    rw [hx0, Function.update_self] at hx
    obtain rfl := Option.some.inj hx
    rw [Function.update_of_ne (by omega)]

theorem Partitioned.step (h : Partitioned T m) {c : Call} (hc : ∀ n, c = .malloc n → 1 ≤ n) :
    Partitioned T (m.step c) := by
  cases c with
  | malloc n => exact h.customMalloc (hc n rfl)
  | free a => exact (h.customFree a).1

theorem partitioned_run (hT : 1 ≤ T) {calls : List Call}
    (hcalls : ∀ n, .malloc n ∈ calls → 1 ≤ n) :
    Partitioned T (calls.foldl DynamicMemoryAllocator.step (.new T)) := by
  refine TransitionSystem.foldl_invariant_along (P := fun _ c => c ∈ calls)
    (fun m c h hc => h.step fun n hn => hcalls n (hn ▸ hc)) (partitioned_new hT)
    fun done c rest heq => ?_
  rw [heq]
  simp

/-- When nothing is allocated, the whole memory is one free block. -/
theorem Partitioned.all_free (h : Partitioned T m) (hused : ∀ x, lookup m.allocated x = none) :
    lookup m.available = Function.update (fun _ => none) 0 (some T) := by
  have hblock : ∀ x, block (lookup m.available) (lookup m.allocated) x = lookup m.available x := by
    intro x
    rw [block, hused, Option.or_none]
  obtain ⟨s, hs⟩ := h.tiled.tiling.zero
  have hfree : lookup m.available 0 = some s := (hblock 0).symm.trans hs
  -- A block after the first one would be a free neighbour.
  obtain rfl : s = T := by
    rcases h.tiled.tiling.next hs with hend | ⟨s', hs'⟩
    · omega
    · rw [hblock, h.separated 0 s hfree] at hs'
      cases hs'
  funext x
  by_cases hx : x = 0
  · rw [hx, hfree, Function.update_self]
  · rw [Function.update_of_ne hx]
    apply Option.eq_none_iff_forall_ne_some.mpr
    intro t ht
    have hb := h.tiled.tiling.bounds (block_of_free ht)
    have hd := h.tiled.tiling.apart hs (block_of_free ht) hx
    omega

/-- Freeing takes the addresses out of `allocated`. -/
theorem Partitioned.free_all (h : Partitioned T m) (addresses : List ℤ) :
    Partitioned T (addresses.foldl DynamicMemoryAllocator.customFree m) ∧
      ∀ x, lookup (addresses.foldl DynamicMemoryAllocator.customFree m).allocated x
        = if x ∈ addresses then none else lookup m.allocated x := by
  induction addresses generalizing m with
  | nil => exact ⟨h, fun x => by simp⟩
  | cons a as ih =>
    obtain ⟨hp, hl⟩ := h.customFree a
    obtain ⟨hp', hl'⟩ := ih hp
    refine ⟨hp', fun x => ?_⟩
    rw [List.foldl_cons, hl', hl]
    by_cases hx : x = a
    · simp [hx]
    · simp [hx]

/-- **Allocator tiling.**  For every memory of positive size and all calls with positive requests:
every address is in exactly one block of `available` or `allocated`, all blocks have positive length
and lie in the memory, none is in both maps, and no two free blocks are neighbours; `custom_malloc`
returns `-1` exactly when no free block is large enough and otherwise the lowest start that fits;
`custom_free` of an address that is not an allocated start changes neither map; and freeing all
allocated starts, in any order, leaves the one free block `[0, T)`. -/
theorem allocator_tiling (T : ℤ) (hT : 1 ≤ T) (calls : List Call)
    (hcalls : ∀ n, .malloc n ∈ calls → 1 ≤ n) (m : DynamicMemoryAllocator)
    (hm : calls.foldl DynamicMemoryAllocator.step (.new T) = m) :
    (∀ y, 0 ≤ y → y < T → ∃! b : ℤ × ℤ,
      (m.available[b.1]? = some b.2 ∨ m.allocated[b.1]? = some b.2) ∧ b.1 ≤ y ∧ y < b.1 + b.2) ∧
    (∀ x s : ℤ, m.available[x]? = some s ∨ m.allocated[x]? = some s → 0 ≤ x ∧ 0 < s ∧ x + s ≤ T) ∧
    (∀ x : ℤ, m.available[x]? = none ∨ m.allocated[x]? = none) ∧
    (∀ x s : ℤ, m.available[x]? = some s → m.available[x + s]? = none) ∧
    (∀ r, 1 ≤ r →
      ((m.customMalloc r).1 = -1 ↔ ∀ x s : ℤ, m.available[x]? = some s → s < r) ∧
      ((m.customMalloc r).1 ≠ -1 →
        (∃ s, m.available[(m.customMalloc r).1]? = some s ∧ r ≤ s) ∧
        ∀ x s : ℤ, m.available[x]? = some s → r ≤ s → (m.customMalloc r).1 ≤ x)) ∧
    (∀ a : ℤ, m.allocated[a]? = none →
      (m.customFree a).available = m.available ∧ (m.customFree a).allocated = m.allocated) ∧
    ∀ addresses : List ℤ, (∀ x s : ℤ, m.allocated[x]? = some s → x ∈ addresses) →
      ∀ x : ℤ, (addresses.foldl DynamicMemoryAllocator.customFree m).allocated[x]? = none ∧
        (addresses.foldl DynamicMemoryAllocator.customFree m).available[x]?
          = if x = 0 then some T else none := by
  have h : Partitioned T m := hm ▸ partitioned_run hT hcalls
  refine ⟨fun y h0 hy => ?_, fun x s hx => ?_, fun x => ?_, h.separated, fun r _ => ⟨?_, ?_⟩,
    fun a ha => ?_, fun addresses hall => ?_⟩
  · obtain ⟨b, hb, honly⟩ := h.tiled.tiling.existsUnique h0 hy
    exact ⟨b, ⟨h.tiled.block_eq_some.mp hb.1, hb.2⟩,
      fun b' hb' => honly b' ⟨h.tiled.block_eq_some.mpr hb'.1, hb'.2⟩⟩
  · exact h.tiled.tiling.bounds (h.tiled.block_eq_some.mpr hx)
  · cases hx : lookup m.available x with
    | none => exact Or.inl hx
    | some s => exact Or.inr (h.tiled.disjoint hx)
  · exact h.customMalloc_eq_neg_one
  · exact customMalloc_lowest
  · rw [customFree_invalid ha]
    exact ⟨rfl, rfl⟩
  · obtain ⟨hp, hl⟩ := h.free_all addresses
    have hnone : ∀ x, lookup (addresses.foldl DynamicMemoryAllocator.customFree m).allocated x
        = none := by
      intro x
      rw [hl x]
      split_ifs with hx
      · rfl
      · exact Option.eq_none_iff_forall_ne_some.mpr fun s hs => hx (hall x s hs)
    refine fun x => ⟨hnone x, ?_⟩
    have hx := congrFun (hp.all_free hnone) x
    rw [Function.update_apply] at hx
    exact hx

/-- Two requests in a memory of ten, the first block freed. -/
theorem allocator_tiling_two :
    let m := [Call.malloc 3, .malloc 4, .free 0].foldl DynamicMemoryAllocator.step (.new 10)
    (1 : ℤ) ≤ 10 ∧ (m.customMalloc 4).1 = -1 ∧
      ∀ x s : ℤ, m.available[x]? = some s → m.available[x + s]? = none := by
  have h := allocator_tiling 10 (by omega) [.malloc 3, .malloc 4, .free 0] ?_ _ rfl
  · exact ⟨by omega, by decide, h.2.2.2.1⟩
  · intro n hn
    simp only [List.mem_cons, Call.malloc.injEq, reduceCtorEq, List.not_mem_nil, or_false] at hn
    omega

end MemoryAllocation
