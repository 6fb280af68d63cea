/-
SqueezeliteMuse/Lib/Extent.lean

Ranges that a program touches, and the block they are to be in.

A range is where it begins and how many places it has; one without places touches nothing.
`records` are ranges of one size, one a fixed step behind the other.
Nothing here is about a particular program.
-/
import Mathlib.Algebra.Order.Ring.Int
import Mathlib.Data.List.Basic
import Mathlib.Tactic.Common

namespace Extent

/-- The range is in a block of so many places. -/
def Within (limit : ℕ) (r : ℕ × ℕ) : Prop := r.2 = 0 ∨ r.1 + r.2 ≤ limit

instance (limit : ℕ) (r : ℕ × ℕ) : Decidable (Within limit r) := instDecidableOr

/-- All ranges are in the block. -/
def AllWithin (limit : ℕ) (rs : List (ℕ × ℕ)) : Prop := ∀ r ∈ rs, Within limit r

instance (limit : ℕ) (rs : List (ℕ × ℕ)) : Decidable (AllWithin limit rs) :=
  List.decidableBAll _ _

/-- `n` ranges of `size` places, the first at `p` and each `step` behind the one before. -/
def records (size step : ℕ) : ℕ → ℕ → List (ℕ × ℕ)
  | 0, _ => []
  | n + 1, p => (p, size) :: records size step n (p + step)

variable {limit size step n p : ℕ} {r : ℕ × ℕ} {rs rs' : List (ℕ × ℕ)}

theorem within_iff (h : 0 < size) : Within limit (p, size) ↔ p + size ≤ limit := by
  constructor
  · rintro (hzero | hle)
    · exact absurd hzero (Nat.ne_of_gt h)
    · exact hle
  · exact .inr

theorem allWithin_nil : AllWithin limit [] := fun _ h => absurd h List.not_mem_nil

theorem allWithin_cons : AllWithin limit (r :: rs) ↔ Within limit r ∧ AllWithin limit rs :=
  List.forall_mem_cons

theorem allWithin_append :
    AllWithin limit (rs ++ rs') ↔ AllWithin limit rs ∧ AllWithin limit rs' :=
  List.forall_mem_append

theorem allWithin_singleton : AllWithin limit [r] ↔ Within limit r := List.forall_mem_singleton

/-- Records are in the block if the last one is. -/
theorem allWithin_records (hsize : 0 < size) :
    AllWithin limit (records size step n p) ↔ n = 0 ∨ p + step * (n - 1) + size ≤ limit := by
  induction n generalizing p with
  | zero => exact ⟨fun _ => .inl rfl, fun _ => allWithin_nil⟩
  | succ n ih =>
    rw [records, allWithin_cons, ih, within_iff hsize]
    cases n with
    | zero => simp
    | succ n =>
      have hlast : p + step * (n + 1 + 1 - 1) + size = p + step + step * (n + 1 - 1) + size := by
        show p + step * (n + 1) + size = p + step + step * n + size
        rw [Nat.mul_succ]
        omega
      rw [hlast]
      constructor
      · rintro ⟨-, hzero | hle⟩
        · cases hzero
        · exact .inr hle
      · rintro (hzero | hle)
        · cases hzero
        · have hback : p + size ≤ p + step + step * (n + 1 - 1) + size := by
            rw [Nat.add_assoc p step]
            omega
          exact ⟨Nat.le_trans hback hle, .inr hle⟩

end Extent
