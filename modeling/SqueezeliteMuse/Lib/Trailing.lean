/-
SqueezeliteMuse/Lib/Trailing.lean

The run a list ends with.

`trailing p xs` is how many elements at the end of `xs` satisfy `p`: what a
counter holds that goes up on such an element and back to 0 on any other.  A list
is *closed by* `n` such elements in a row when it ends with them and no proper
prefix does.
-/
import Mathlib.Algebra.Order.Ring.Int
import Mathlib.Data.List.Basic
import Mathlib.Data.List.DropRight
import Mathlib.Tactic.Common

namespace Trailing

variable {α : Type*} {p : α → Bool} {xs ys : List α} {n : ℕ}

/-- How many elements at the end satisfy `p`. -/
def trailing (p : α → Bool) (xs : List α) : ℕ := (xs.rtakeWhile p).length

@[simp] theorem trailing_nil (p : α → Bool) : trailing p [] = 0 := rfl

theorem trailing_concat (p : α → Bool) (xs : List α) (x : α) :
    trailing p (xs ++ [x]) = if p x then trailing p xs + 1 else 0 := by
  rw [trailing, List.rtakeWhile_concat]
  split
  · rw [List.length_append, List.length_singleton, trailing]
  · rfl

theorem trailing_concat_le (p : α → Bool) (xs : List α) (x : α) :
    trailing p (xs ++ [x]) ≤ trailing p xs + 1 := by
  rw [trailing_concat]
  split
  · exact Nat.le_refl _
  · exact Nat.zero_le _

theorem trailing_le (p : α → Bool) (xs : List α) : trailing p xs ≤ xs.length :=
  (List.rtakeWhile_suffix p xs).length_le

/-- They are all that is there exactly if they all satisfy `p`. -/
theorem trailing_eq_length_iff : trailing p xs = xs.length ↔ ∀ x ∈ xs, p x := by
  rw [← List.rtakeWhile_eq_self_iff]
  constructor
  · exact (List.rtakeWhile_suffix p xs).eq_of_length
  · intro h
    rw [trailing, h]

/-- An element in front counts only if all the others do. -/
theorem trailing_cons (p : α → Bool) (x : α) (xs : List α) :
    trailing p (x :: xs) =
      if trailing p xs = xs.length ∧ p x then xs.length + 1 else trailing p xs := by
  induction xs using List.reverseRecOn with
  | nil =>
      rw [← List.nil_append [x], trailing_concat]
      simp
  | append_singleton xs y ih =>
      rw [← List.cons_append, trailing_concat, trailing_concat, ih, List.length_append,
        List.length_singleton]
      by_cases hy : p y
      · simp only [hy, if_true, Nat.add_right_cancel_iff]
        split <;> rfl
      · simp [hy]

theorem trailing_tail_le (p : α → Bool) (xs : List α) : trailing p xs.tail ≤ trailing p xs := by
  cases xs with
  | nil => exact Nat.le_refl _
  | cons x xs =>
      rw [List.tail_cons, trailing_cons]
      split
      · exact Nat.le_succ_of_le (trailing_le p xs)
      · exact Nat.le_refl _

/-- Without the first element as many match at the end, unless the list begins with `n` that
match. -/
theorem trailing_tail (h : ¬n ≤ trailing p (xs.take n)) :
    n ≤ trailing p xs ↔ n ≤ trailing p xs.tail := by
  cases xs with
  | nil => rfl
  | cons x xs =>
      rw [trailing_cons, List.tail_cons]
      split
      · rename_i hall
        -- all of them match, so there are fewer than `n`
        have hmatch : ∀ y ∈ x :: xs, p y :=
          List.forall_mem_cons.mpr ⟨hall.2, trailing_eq_length_iff.mp hall.1⟩
        have htake : trailing p ((x :: xs).take n) = ((x :: xs).take n).length :=
          trailing_eq_length_iff.mpr fun y hy => hmatch y (List.mem_of_mem_take hy)
        rw [htake, List.length_take, List.length_cons] at h
        have hle := trailing_le p xs
        omega
      · exact Iff.rfl

/-- The list ends with `n` matching elements in a row, for the first time. -/
structure Closed (p : α → Bool) (n : ℕ) (xs : List α) : Prop where
  ends : n ≤ trailing p xs
  first : ∀ k < xs.length, trailing p (xs.take k) < n

/-- Nothing shorter than the list ends with `n` matching elements. -/
def Open (p : α → Bool) (n : ℕ) (xs : List α) : Prop :=
  ∀ k ≤ xs.length, trailing p (xs.take k) < n

theorem open_nil (hn : 0 < n) : Open p n [] := by
  intro k _
  rw [List.take_nil]
  exact hn

theorem Open.lt (h : Open p n xs) : trailing p xs < n := by
  have hall := h xs.length (Nat.le_refl _)
  rwa [List.take_length] at hall

theorem trailing_eq_zero (h : ∀ x ∈ xs, ¬p x) : trailing p xs = 0 := by
  rw [trailing, List.length_eq_zero_iff, List.rtakeWhile_eq_nil_iff]
  exact fun hne => h _ (List.getLast_mem hne)

/-- A list with no matching element is open. -/
theorem open_of_forall_not (hn : 0 < n) (h : ∀ x ∈ xs, ¬p x) : Open p n xs := by
  intro k _
  rw [trailing_eq_zero fun x hx => h x (List.mem_of_mem_take hx)]
  exact hn

/-- One more element leaves the list open, or closes it. -/
theorem Open.concat (h : Open p n xs) {x : α} :
    (Open p n (xs ++ [x]) ↔ trailing p (xs ++ [x]) < n) ∧
      (Closed p n (xs ++ [x]) ↔ n ≤ trailing p (xs ++ [x])) := by
  have hbefore : ∀ k < (xs ++ [x]).length, trailing p ((xs ++ [x]).take k) < n := by
    intro k hk
    rw [List.length_append, List.length_singleton] at hk
    rw [List.take_append_of_le_length (by omega)]
    exact h k (by omega)
  constructor
  · constructor
    · exact Open.lt
    · intro hlt k hk
      rcases Nat.lt_or_eq_of_le hk with hk | rfl
      · exact hbefore k hk
      · rwa [List.take_length]
  · exact ⟨Closed.ends, fun hends => ⟨hends, hbefore⟩⟩

end Trailing
