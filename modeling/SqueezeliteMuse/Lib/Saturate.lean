/-
SqueezeliteMuse/Lib/Saturate.lean

Numbers that do not fit into a word: they saturate, or they wrap around.

A word of `n` bits is read as a signed number.  `saturate n x` is the number of `n` bits nearest
to `x`; what is left of `x` when it is stored in a word is `(BitVec.ofInt n x).toInt`.

Main result: `toInt_ofInt_eq_saturate_iff`: the two are the same exactly if `x` is in range, or
beyond it by a multiple of `2 ^ n`.  Nothing here is about a particular program.
-/
import Mathlib.Algebra.Order.Ring.Int
import Mathlib.Data.Int.Notation
import Mathlib.Tactic.Common

namespace Saturate

/-- Half of the numbers of `n` bits: the negative ones. -/
def half (n : ℕ) : ℤ := 2 ^ n / 2

/-- The numbers of `n` bits. -/
def InRange (n : ℕ) (x : ℤ) : Prop := -half n ≤ x ∧ x < half n

/-- The number of `n` bits nearest to `x`. -/
def saturate (n : ℕ) (x : ℤ) : ℤ := max (-half n) (min x (half n - 1))

variable {n : ℕ} {x : ℤ}

instance : Decidable (InRange n x) := inferInstanceAs (Decidable (_ ∧ _))

theorem two_mul_half (hn : 0 < n) : 2 * half n = 2 ^ n := by
  obtain ⟨k, rfl⟩ : ∃ k, n = k + 1 := ⟨n - 1, by omega⟩
  rw [half, Int.pow_succ]
  omega

theorem half_pos (hn : 0 < n) : 0 < half n := by
  have hpow : (0 : ℤ) < 2 ^ n := Int.pow_pos (by decide)
  have htwo := two_mul_half hn
  omega

theorem saturate_of_inRange (h : InRange n x) : saturate n x = x := by
  obtain ⟨hlow, hhigh⟩ := h
  rw [saturate]
  omega

theorem inRange_saturate (hn : 0 < n) (x : ℤ) : InRange n (saturate n x) := by
  have hpos := half_pos hn
  rw [saturate]
  constructor
  · omega
  · omega

/-- What saturates keeps its sign. -/
theorem saturate_neg_iff (hn : 0 < n) : saturate n x < 0 ↔ x < 0 := by
  have hpos := half_pos hn
  rw [saturate]
  omega

theorem half_mono {m : ℕ} (hnm : n ≤ m) : half n ≤ half m := by
  have hpow : (2 ^ n : ℕ) ≤ 2 ^ m := Nat.pow_le_pow_right (by decide) hnm
  have hcast : (2 : ℤ) ^ n ≤ 2 ^ m := by exact_mod_cast hpow
  rw [half, half]
  omega

/-- The value of a word is in range. -/
theorem inRange_toInt (hn : 0 < n) (v : BitVec n) : InRange n v.toInt := by
  have hlow := BitVec.le_two_mul_toInt (x := v)
  have hhigh := BitVec.two_mul_toInt_lt (x := v)
  have htwo := two_mul_half hn
  constructor
  · omega
  · omega

theorem toInt_ofInt_of_inRange (hn : 0 < n) (h : InRange n x) : (BitVec.ofInt n x).toInt = x := by
  have htwo := two_mul_half hn
  rw [BitVec.toInt_ofInt]
  refine Int.bmod_eq_of_le_mul_two ?_ ?_
  · push_cast
    have := h.1
    omega
  · push_cast
    have := h.2
    omega

/-- A number is stored as its saturation exactly if it is in range, or beyond it by a multiple of
`2 ^ n`. -/
theorem toInt_ofInt_eq_saturate_iff (hn : 0 < n) :
    (BitVec.ofInt n x).toInt = saturate n x ↔ (2 : ℤ) ^ n ∣ saturate n x - x := by
  have htwo := two_mul_half hn
  obtain ⟨hlow, hhigh⟩ := inRange_saturate hn x
  have hcast : ((2 ^ n : ℕ) : ℤ) = 2 ^ n := by push_cast; rfl
  rw [BitVec.toInt_ofInt, Int.bmod_eq_iff (Nat.two_pow_pos n), hcast]
  constructor
  · exact fun h => h.2.2
  · intro hdvd
    exact ⟨by omega, by omega, hdvd⟩

end Saturate
