/-
SqueezeliteMuse/Lib/Significand.lean

Natural numbers as floating-point numbers of `p` binary digits.

`round p n` is the number nearest to `n` that has at most `p` significant
digits, the even one of two.  What it leaves alone are the multiples of the
unit `2 ^ ulp p n` (`round_eq_self_iff`); a difference of such numbers is exact
as long as the number that is taken off is a multiple of the unit too.
-/
import Mathlib.Algebra.Order.Ring.Int
import Mathlib.Data.Nat.Log
import Mathlib.Tactic.Common

namespace Significand

variable {p m n d : ℕ}

/-- The place of the last significant digit. -/
def ulp (p n : ℕ) : ℕ := n.log2 + 1 - p

/-- Nearest, ties to even. -/
def round (p n : ℕ) : ℕ :=
  let u := 2 ^ ulp p n
  let q := n / u
  let r := n % u
  if u < 2 * r ∨ 2 * r = u ∧ q % 2 = 1 then (q + 1) * u else q * u

theorem round_of_dvd (h : 2 ^ ulp p n ∣ n) : round p n = n := by
  have hr : n % 2 ^ ulp p n = 0 := Nat.mod_eq_zero_of_dvd h
  have hu : 0 < 2 ^ ulp p n := Nat.two_pow_pos _
  have hdown : ¬ (2 ^ ulp p n < 2 * 0 ∨ 2 * 0 = 2 ^ ulp p n ∧ n / 2 ^ ulp p n % 2 = 1) := by omega
  rw [round, hr, if_neg hdown, Nat.div_mul_cancel h]

theorem dvd_round : 2 ^ ulp p n ∣ round p n := by
  rw [round]
  split
  · exact Nat.dvd_mul_left _ _
  · exact Nat.dvd_mul_left _ _

theorem round_eq_self_iff : round p n = n ↔ 2 ^ ulp p n ∣ n := by
  refine ⟨fun h => ?_, round_of_dvd⟩
  have hdvd := dvd_round (p := p) (n := n)
  rwa [h] at hdvd

theorem ulp_mono (h : m ≤ n) : ulp p m ≤ ulp p n := by
  have hlog : m.log2 ≤ n.log2 := by
    rw [Nat.log2_eq_log_two, Nat.log2_eq_log_two]
    exact Nat.log_mono_right h
  rw [ulp, ulp]
  omega

/-- The numbers of at most `p` digits are exact. -/
theorem round_of_lt (h : n < 2 ^ p) : round p n = n := by
  rcases Nat.eq_zero_or_pos n with rfl | hn
  · exact round_of_dvd (Nat.dvd_zero _)
  · have hlog : n.log2 < p := (Nat.log2_lt (Nat.pos_iff_ne_zero.mp hn)).mpr h
    have hulp : ulp p n = 0 := by
      rw [ulp]
      omega
    exact round_of_dvd (by rw [hulp]; exact Nat.one_dvd n)

/-- A multiple of the unit can be taken off without rounding. -/
theorem round_sub (h : round p n = n) (hd : 2 ^ ulp p n ∣ d) : round p (n - d) = n - d := by
  refine round_of_dvd (Nat.dvd_trans ?_ (Nat.dvd_sub (round_eq_self_iff.mp h) hd))
  exact Nat.pow_dvd_pow 2 (ulp_mono (Nat.sub_le n d))

end Significand
