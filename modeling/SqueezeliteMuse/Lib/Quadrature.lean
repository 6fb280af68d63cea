/-
SqueezeliteMuse/Lib/Quadrature.lean

Two contacts that follow each other around a circle of four positions.

The positions are numbered so that a quarter turn changes one contact.  `winding` is the sum of the
quarter turns of a walk; a walk in which both contacts change at once has no winding of its own
there.  Nothing here is about a particular program.
-/
import Mathlib.Algebra.Order.Ring.Int
import Mathlib.Data.Fintype.Prod
import Mathlib.Data.Int.Notation
import Mathlib.Data.List.Basic
import Mathlib.Tactic.Common

namespace Quadrature

/-- The contacts `a` and `b`. -/
abbrev Pins := Bool × Bool

/-- The place on the circle, from both closed on: 11, 01, 00, 10 as `ba`. -/
def place : Pins → ℤ
  | (true, true) => 0
  | (true, false) => 1
  | (false, false) => 2
  | (false, true) => 3

/-- The quarter turn from one position to the next: 1, 0 or -1, and 2 for half a turn. -/
def quarter (p q : Pins) : ℤ := (place q - place p + 1) % 4 - 1

/-- At most one contact changes. -/
def Adjacent (p q : Pins) : Prop := p.1 = q.1 ∨ p.2 = q.2

instance (p q : Pins) : Decidable (Adjacent p q) := inferInstanceAs (Decidable (_ ∨ _))

/-- From position to position at most one contact changes. -/
def Walk : Pins → List Pins → Prop
  | _, [] => True
  | p, q :: qs => Adjacent p q ∧ Walk q qs

/-- The quarter turns of a walk. -/
def winding : Pins → List Pins → ℤ
  | _, [] => 0
  | p, q :: qs => quarter p q + winding q qs

instance Walk.decidable : ∀ p qs, Decidable (Walk p qs)
  | _, [] => .isTrue trivial
  | p, q :: qs =>
      have := Walk.decidable q qs
      inferInstanceAs (Decidable (Adjacent p q ∧ Walk q qs))

variable {p : Pins} {qs : List Pins}

theorem quarter_swap : ∀ p q : Pins, Adjacent p q → quarter p.swap q.swap = -quarter p q := by
  decide

/-- With the contacts exchanged it turns the other way. -/
theorem winding_swap (h : Walk p qs) : winding p.swap (qs.map Prod.swap) = -winding p qs := by
  induction qs generalizing p with
  | nil => rfl
  | cons q qs ih => rw [List.map_cons, winding, winding, quarter_swap p q h.1, ih h.2, Int.neg_add]

theorem walk_swap (h : Walk p qs) : Walk p.swap (qs.map Prod.swap) := by
  induction qs generalizing p with
  | nil => trivial
  | cons q qs ih => exact ⟨h.1.symm, ih h.2⟩

end Quadrature
