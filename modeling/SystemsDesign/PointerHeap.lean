/-
# Linked lists in a heap of nodes

A heap maps addresses to nodes; an address that was never allocated, or was freed, has
none.  Addresses are not reused, so `next` bounds them all.

`Seg h es r` says that the entries `es` are linked in `h`, one after the other, and that the
last of them points to `r`.  It is generic in what an entry is: `addr` gives its address
and `node` the node that stands there, once the successor is known.  The rules say how
segments compose, that they depend on their own cells only, how an entry is replaced by others and
how the last pointer is redirected.
-/
import Mathlib

namespace PointerHeap

/-- Addresses of nodes. -/
abbrev Addr := ℕ

/-- The nodes in memory and the next free address. -/
structure Heap (N : Type*) where
  cell : Addr → Option N
  next : Addr

namespace Heap

variable {N : Type*}

/-- `new Node(..)`, at the address `h.next`. -/
def alloc (h : Heap N) (n : N) : Heap N := ⟨Function.update h.cell h.next (some n), h.next + 1⟩

/-- Overwrite the node at `a`. -/
def store (h : Heap N) (a : Addr) (n : N) : Heap N :=
  { h with cell := Function.update h.cell a (some n) }

/-- `delete`. -/
def free (h : Heap N) (a : Addr) : Heap N := { h with cell := Function.update h.cell a none }

theorem cell_alloc_next (h : Heap N) (n : N) : (h.alloc n).cell h.next = some n :=
  Function.update_self ..

theorem cell_alloc_of_ne {h : Heap N} {n : N} {a : Addr} (ha : a ≠ h.next) :
    (h.alloc n).cell a = h.cell a := Function.update_of_ne ha ..

theorem cell_store_self (h : Heap N) (a : Addr) (n : N) : (h.store a n).cell a = some n :=
  Function.update_self ..

theorem cell_store_of_ne {h : Heap N} {n : N} {a b : Addr} (hb : b ≠ a) :
    (h.store a n).cell b = h.cell b := Function.update_of_ne hb ..

/-- `delete` leaves the other nodes alone. -/
theorem cell_free_of_ne {h : Heap N} {a b : Addr} (hb : b ≠ a) :
    (h.free a).cell b = h.cell b := Function.update_of_ne hb ..

end Heap

/-! ## Segments -/

section Segments

variable {ε N : Type*} (addr : ε → Addr) (node : ε → Option Addr → N)

/-- The address a segment starts at, where `r` follows it. -/
def first : List ε → Option Addr → Option Addr
  | [], r => r
  | e :: _, _ => some (addr e)

/-- The entries are linked one after the other, and the last one points to `r`. -/
def Seg (h : Heap N) : List ε → Option Addr → Prop
  | [], _ => True
  | e :: es, r => h.cell (addr e) = some (node e (first addr es r)) ∧ Seg h es r

variable {addr node} {h h' : Heap N} {es fs : List ε} {e : ε} {r : Option Addr}

theorem first_append (es fs : List ε) (r : Option Addr) :
    first addr (es ++ fs) r = first addr es (first addr fs r) := by
  cases es <;> rfl

theorem seg_append :
    Seg addr node h (es ++ fs) r
      ↔ Seg addr node h es (first addr fs r) ∧ Seg addr node h fs r := by
  induction es with
  | nil => simp [Seg]
  | cons e es ih => rw [List.cons_append, Seg, Seg, ih, first_append, and_assoc]

theorem Seg.cell (hs : Seg addr node h (es ++ e :: fs) r) :
    h.cell (addr e) = some (node e (first addr fs r)) := (seg_append.mp hs).2.1

theorem Seg.congr (hs : Seg addr node h es r)
    (hcell : ∀ e ∈ es, h'.cell (addr e) = h.cell (addr e)) : Seg addr node h' es r := by
  induction es with
  | nil => trivial
  | cons e es ih =>
    refine ⟨(hcell e List.mem_cons_self).trans hs.1, ih hs.2 fun e' he' => ?_⟩
    exact hcell e' (List.mem_cons_of_mem _ he')

/-- Replacing an entry by a part that starts at its address and leads to where it led. -/
theorem Seg.replace {mid : List ε} (hs : Seg addr node h (es ++ e :: fs) r)
    (hcell : ∀ e' ∈ es ++ fs, h'.cell (addr e') = h.cell (addr e'))
    (hmid : Seg addr node h' mid (first addr fs r))
    (hfirst : first addr mid (first addr fs r) = some (addr e)) :
    Seg addr node h' (es ++ (mid ++ fs)) r := by
  obtain ⟨hes, -, hfs⟩ := seg_append.mp hs
  refine seg_append.mpr ⟨?_, seg_append.mpr ⟨hmid, ?_⟩⟩
  · rw [first_append, hfirst]
    exact hes.congr fun e' he' => hcell e' (List.mem_append_left _ he')
  · exact hfs.congr fun e' he' => hcell e' (List.mem_append_right _ he')

theorem Seg.store_last (hs : Seg addr node h (es ++ [e]) r) (hne : ∀ e' ∈ es, addr e' ≠ addr e)
    (r' : Option Addr) :
    Seg addr node (h.store (addr e) (node e r')) (es ++ [e]) r' := by
  obtain ⟨hes, -⟩ := seg_append.mp hs
  refine seg_append.mpr ⟨hes.congr fun e' he' => Heap.cell_store_of_ne (hne e' he'), ?_⟩
  exact ⟨Heap.cell_store_self .., trivial⟩

end Segments

end PointerHeap
