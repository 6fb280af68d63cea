/-
SqueezeliteMuse/Lib/Evicting.lean

Queues that make room for what is new by dropping what is oldest.

Every item has a cost, and the queue a capacity for the costs of all of them.  `newest` drops from
the front as long as the rest does not fit, so it keeps the longest end of a list that fits
(`newest_eq_drop`).  To append one item after the other, and to drop each time, comes to the same
as to append them all and drop at the end (`newest_append`).
Nothing here is about a particular program.
-/
import Mathlib.Algebra.Order.Ring.Int
import Mathlib.Data.List.Basic
import Mathlib.Algebra.BigOperators.Group.List.Basic
import Mathlib.Tactic.Common

namespace Evicting

variable {α : Type*} (cost : α → ℕ) (cap : ℕ)

/-- What the items of a list cost together. -/
def weight (xs : List α) : ℕ := (xs.map cost).sum

/-- The newest items that fit. -/
def newest : List α → List α
  | [] => []
  | x :: xs => if weight cost (x :: xs) ≤ cap then x :: xs else newest xs

variable {cost cap} {xs : List α} {x y : α}

@[simp] theorem weight_nil : weight cost [] = 0 := rfl

@[simp] theorem weight_cons (x : α) (xs : List α) :
    weight cost (x :: xs) = cost x + weight cost xs := by
  simp [weight]

@[simp] theorem weight_append (xs ys : List α) :
    weight cost (xs ++ ys) = weight cost xs + weight cost ys := by
  simp [weight]

theorem weight_sublist {ys : List α} (h : xs.Sublist ys) : weight cost xs ≤ weight cost ys := by
  induction h with
  | slnil => exact Nat.le_refl _
  | cons x _ ih =>
      rw [weight_cons]
      omega
  | cons_cons x _ ih =>
      rw [weight_cons, weight_cons]
      omega

theorem newest_of_fits (h : weight cost xs ≤ cap) : newest cost cap xs = xs := by
  cases xs with
  | nil => rfl
  | cons x xs => rw [newest, if_pos h]

theorem newest_cons_of_not (h : ¬ weight cost (x :: xs) ≤ cap) :
    newest cost cap (x :: xs) = newest cost cap xs := by
  rw [newest, if_neg h]

theorem weight_newest_le (xs : List α) : weight cost (newest cost cap xs) ≤ cap := by
  induction xs with
  | nil => exact Nat.zero_le _
  | cons x xs ih =>
      rw [newest]
      split
      case isTrue h => exact h
      case isFalse => exact ih

/-- No more is dropped than has to be. -/
theorem newest_eq_drop (xs : List α) :
    ∃ n, newest cost cap xs = xs.drop n ∧ ∀ k < n, cap < weight cost (xs.drop k) := by
  induction xs with
  | nil => exact ⟨0, rfl, fun k hk => absurd hk (Nat.not_lt_zero k)⟩
  | cons x xs ih =>
      by_cases h : weight cost (x :: xs) ≤ cap
      · exact ⟨0, newest_of_fits h, fun k hk => absurd hk (Nat.not_lt_zero k)⟩
      · obtain ⟨n, hn, hleast⟩ := ih
        refine ⟨n + 1, ?_, fun k hk => ?_⟩
        · rw [newest_cons_of_not h, hn, List.drop_succ_cons]
        · rcases k with - | k
          · exact Nat.not_le.mp h
          · rw [List.drop_succ_cons]
            exact hleast k (Nat.lt_of_succ_lt_succ hk)

theorem newest_suffix (xs : List α) : newest cost cap xs <:+ xs := by
  obtain ⟨n, hn, -⟩ : ∃ n, newest cost cap xs = xs.drop n ∧
    ∀ k < n, cap < weight cost (xs.drop k) := newest_eq_drop xs
  rw [hn]
  exact List.drop_suffix n xs

/-- What was dropped before would be dropped later. -/
theorem newest_append (xs : List α) (y : α) :
    newest cost cap (newest cost cap xs ++ [y]) = newest cost cap (xs ++ [y]) := by
  induction xs with
  | nil => rfl
  | cons x xs ih =>
      by_cases h : weight cost (x :: xs) ≤ cap
      · rw [newest_of_fits h]
      · have hmore : ¬ weight cost (x :: (xs ++ [y])) ≤ cap := by
          rw [weight_cons] at h ⊢
          rw [weight_append]
          omega
        rw [newest_cons_of_not h, ih, List.cons_append, newest_cons_of_not hmore]

end Evicting
