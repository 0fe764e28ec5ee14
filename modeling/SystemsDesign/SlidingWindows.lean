/-
# Sliding windows

The times at which something happened, in a queue from whose front the old ones are removed late:
`Tracks W now queue history` says that only times that are out of the window of length `W` have been
removed.  Then expiring the queue leaves exactly the times of the window (`Tracks.length_expire`).

`countP_window_le`: if each event of a kind found fewer than `L` of them in the window before it, no
window has more than `L` of them.
-/
import Mathlib

namespace SlidingWindows

variable {T : Type*} [AddCommGroup T] [LinearOrder T] {W now : T}

/-- Remove the times that are out of the window from the front. -/
def expire (W now : T) (queue : List T) : List T := queue.dropWhile fun t => t + W ≤ now

/-- The queue holds the times of the history, in order, but for some that are out of the window. -/
structure Tracks (W now : T) (queue history : List T) : Prop where
  sorted : history.Pairwise (· ≤ ·)
  le_now : ∀ t ∈ history, t ≤ now
  removed : ∃ old, history = old ++ queue ∧ ∀ t ∈ old, t + W ≤ now

namespace Tracks

variable {queue history : List T}

theorem empty (W now : T) : Tracks W now [] [] :=
  ⟨List.Pairwise.nil, fun _ h => absurd h List.not_mem_nil, [], rfl,
    fun _ h => absurd h List.not_mem_nil⟩

theorem later {now' : T} (h : Tracks W now queue history) (hle : now ≤ now') :
    Tracks W now' queue history := by
  obtain ⟨old, heq, hold⟩ := h.removed
  exact ⟨h.sorted, fun t ht => (h.le_now t ht).trans hle, old, heq,
    fun t ht => (hold t ht).trans hle⟩

/-- Expiring the queue removes what is out of the window. -/
theorem expire (h : Tracks W now queue history) :
    Tracks W now (expire W now queue) history := by
  obtain ⟨old, heq, hold⟩ := h.removed
  refine ⟨h.sorted, h.le_now, old ++ queue.takeWhile fun t => t + W ≤ now, ?_, ?_⟩
  · rw [heq, List.append_assoc, SlidingWindows.expire, List.takeWhile_append_dropWhile]
  · intro t ht
    rcases List.mem_append.mp ht with ht | ht
    · exact hold t ht
    · simpa using List.mem_takeWhile_imp ht

/-- **What is left after expiring the queue are the times in the window.** -/
theorem length_expire [IsOrderedAddMonoid T] (h : Tracks W now queue history) :
    (SlidingWindows.expire W now queue).length = history.countP fun t => now < t + W := by
  obtain ⟨old, heq, hold⟩ := h.expire.removed
  have hout : old.countP (fun t => now < t + W) = 0 :=
    List.countP_eq_zero.mpr fun t ht => by simpa using hold t ht
  have hsorted : (SlidingWindows.expire W now queue).Pairwise (· ≤ ·) :=
    (List.pairwise_append.mp (heq ▸ h.sorted)).2.1
  -- the front is in the window, and what comes behind it is not older
  have hin : ∀ t ∈ SlidingWindows.expire W now queue, now < t + W := by
    cases hq : SlidingWindows.expire W now queue with
    | nil => simp
    | cons front rest =>
      rw [hq] at hsorted
      have hfront : now < front + W := by
        have hne : queue.dropWhile (fun t => decide (t + W ≤ now)) ≠ [] := by
          intro hnil
          rw [SlidingWindows.expire, hnil] at hq
          exact List.cons_ne_nil _ _ hq.symm
        have hhead := List.head_dropWhile_not (fun t => decide (t + W ≤ now)) hne
        have heq : (queue.dropWhile fun t => decide (t + W ≤ now)).head hne = front :=
          Option.some.inj ((List.head?_eq_some_head hne).symm.trans (congrArg List.head? hq))
        rw [heq] at hhead
        simpa using hhead
      intro t ht
      rcases List.mem_cons.mp ht with rfl | ht
      · exact hfront
      · have hle : front ≤ t := (List.pairwise_cons.mp hsorted).1 t ht
        exact hfront.trans_le (add_le_add_left hle W)
  rw [heq, List.countP_append, hout, zero_add]
  exact (List.countP_eq_length.mpr fun t ht => by simpa using hin t ht).symm

theorem push (h : Tracks W now queue history) :
    Tracks W now (queue ++ [now]) (history ++ [now]) := by
  obtain ⟨old, heq, hold⟩ := h.removed
  refine ⟨?_, ?_, old, by rw [heq, List.append_assoc], hold⟩
  · refine List.pairwise_append.mpr ⟨h.sorted, List.pairwise_singleton _ _, fun t ht u hu => ?_⟩
    rw [List.mem_singleton.mp hu]
    exact h.le_now t ht
  · intro t ht
    rcases List.mem_append.mp ht with ht | ht
    · exact h.le_now t ht
    · exact (List.mem_singleton.mp ht).le

end Tracks

/-- **No window has more than `L` events of a kind**, if each of them found fewer than `L` earlier
ones in the window that ends with it. -/
theorem countP_window_le [IsOrderedAddMonoid T] {α : Type*} (time : α → T) {p : α → Prop}
    [DecidablePred p] {history : List α} {L : ℕ}
    (h : ∀ done a rest, history = done ++ a :: rest → p a →
      done.countP (fun b => p b ∧ time a < time b + W) < L)
    {first last : T} (hshort : last - first < W) :
    history.countP (fun a => p a ∧ first ≤ time a ∧ time a ≤ last) ≤ L := by
  induction history using List.reverseRecOn with
  | nil => exact Nat.zero_le L
  | append_singleton history a ih =>
    have hbefore : history.countP (fun a => p a ∧ first ≤ time a ∧ time a ≤ last) ≤ L :=
      ih fun done b rest heq => h done b (rest ++ [a]) (by rw [heq]; simp)
    rw [List.countP_append, List.countP_singleton]
    split_ifs with ha
    · obtain ⟨hp, -, hlast⟩ : p a ∧ first ≤ time a ∧ time a ≤ last := by simpa using ha
      -- the window begins after the start of the one that ends at `a`
      have hmono : history.countP (fun b => p b ∧ first ≤ time b ∧ time b ≤ last)
          ≤ history.countP fun b => p b ∧ time a < time b + W := by
        refine List.countP_mono_left fun b _ hb => ?_
        simp only [decide_eq_true_eq] at hb ⊢
        refine ⟨hb.1, ?_⟩
        calc time a ≤ last := hlast
          _ < W + first := sub_lt_iff_lt_add.mp hshort
          _ = first + W := add_comm _ _
          _ ≤ time b + W := add_le_add_left hb.2.1 W
      have hlt := h history a [] rfl hp
      omega
    · exact hbefore

end SlidingWindows
