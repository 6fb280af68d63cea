/-
SqueezeliteMuse/Lib/Serial.lean

Serial numbers: counters of `w` bits that wrap, compared by the sign of their
difference.

`ahead a b` is the number of steps from `a` up to `b`; it is what the window
between two counters is measured by.  `Before a b` is the order itself, which is
the usual one as long as the two are less than half of the space apart
(`before_iff`).  The other lemmas say how `ahead` changes when a counter moves,
and when it does not matter that two counters are compared as plain numbers
(`lt_iff_iff_near`).
-/
import Mathlib.Algebra.Order.Ring.Int
import Mathlib.Data.Int.Notation
import Mathlib.Tactic.Common

namespace Serial

variable {w : ℕ} {a b c : BitVec w}

/-- The number of steps from `a` up to `b`. -/
def ahead (a b : BitVec w) : ℕ := (b - a).toNat

/-- `b` is after `a`: their difference, read as a signed number, is positive. -/
def Before (a b : BitVec w) : Prop := 0 < (b - a).toInt

instance : Decidable (Before a b) := inferInstanceAs (Decidable (0 < (b - a).toInt))

theorem ahead_lt (a b : BitVec w) : ahead a b < 2 ^ w := (b - a).isLt

/-- `ahead`, from the two numbers. -/
theorem ahead_eq (a b : BitVec w) :
    ahead a b = if a.toNat ≤ b.toNat then b.toNat - a.toNat else 2 ^ w + b.toNat - a.toNat := by
  have ha := a.isLt
  have hb := b.isLt
  rw [ahead, BitVec.toNat_sub]
  split
  · rename_i hle
    rw [show 2 ^ w - a.toNat + b.toNat = (b.toNat - a.toNat) + 2 ^ w by omega,
      Nat.add_mod_right, Nat.mod_eq_of_lt (by omega)]
  · rw [Nat.mod_eq_of_lt (by omega)]
    omega

theorem before_iff : Before a b ↔ 0 < ahead a b ∧ 2 * ahead a b < 2 ^ w := by
  have h := ahead_lt a b
  rw [Before, BitVec.toInt_eq_toNat_cond]
  show (0 < if 2 * ahead a b < 2 ^ w then (ahead a b : ℤ) else (ahead a b : ℤ) - (2 ^ w : ℕ)) ↔ _
  split
  · omega
  · omega

/-- The sign the other way round: `b` is not behind `a`. -/
theorem toInt_sub_nonneg_iff : 0 ≤ (b - a).toInt ↔ 2 * ahead a b < 2 ^ w := by
  have h := ahead_lt a b
  rw [BitVec.toInt_eq_toNat_cond]
  show (0 ≤ if 2 * ahead a b < 2 ^ w then (ahead a b : ℤ) else (ahead a b : ℤ) - (2 ^ w : ℕ)) ↔ _
  split
  · omega
  · omega

@[simp] theorem ahead_self (a : BitVec w) : ahead a a = 0 := by
  rw [ahead_eq, if_pos (Nat.le_refl _), Nat.sub_self]

theorem ahead_eq_zero_iff : ahead a b = 0 ↔ a = b := by
  constructor
  · intro h
    rw [ahead_eq] at h
    have ha := a.isLt
    apply BitVec.eq_of_toNat_eq
    split at h <;> omega
  · rintro rfl
    exact ahead_self a

theorem ahead_inj (h : ahead a b = ahead a c) : b = c := by
  have hsub : b - a = c - a := BitVec.eq_of_toNat_eq h
  have hadd := congrArg (· + a) hsub
  simpa only [BitVec.sub_add_cancel] using hadd

/-- `ahead a b` steps lead from `a` to `b`. -/
theorem add_ahead (a b : BitVec w) : a + BitVec.ofNat w (ahead a b) = b := by
  apply ahead_inj (a := a)
  rw [ahead, BitVec.add_comm, BitVec.add_sub_cancel, BitVec.toNat_ofNat,
    Nat.mod_eq_of_lt (ahead_lt a b)]

/-- Steps add up, as long as they do not go all the way around. -/
theorem ahead_add (h : ahead a b + ahead b c < 2 ^ w) : ahead a c = ahead a b + ahead b c := by
  have ha := a.isLt
  have hb := b.isLt
  have hc := c.isLt
  simp only [ahead_eq] at h ⊢
  split at h <;> split at h <;> split <;> omega

/-- What is left of the way to `c` once `b` is reached. -/
theorem ahead_of_le (h : ahead a b ≤ ahead a c) : ahead b c = ahead a c - ahead a b := by
  have ha := a.isLt
  have hb := b.isLt
  have hc := c.isLt
  simp only [ahead_eq] at h ⊢
  split at h <;> split at h <;> split <;> omega

theorem ahead_add_self (a k : BitVec w) : ahead a (a + k) = k.toNat := by
  rw [ahead, BitVec.add_comm, BitVec.add_sub_cancel]

theorem ahead_succ_self (hw : 0 < w) : ahead a (a + 1) = 1 := by
  have h1 : 1 < 2 ^ w := Nat.one_lt_two_pow (by omega)
  rw [ahead_add_self]
  simp [Nat.mod_eq_of_lt h1]

/-- Steps between two numbers that are taken modulo `2 ^ w`. -/
theorem ahead_ofNat {m n : ℕ} (hle : m ≤ n) (hlt : n - m < 2 ^ w) :
    ahead (BitVec.ofNat w m) (BitVec.ofNat w n) = n - m := by
  have hsum : BitVec.ofNat w n = BitVec.ofNat w m + BitVec.ofNat w (n - m) := by
    rw [← BitVec.ofNat_add, Nat.add_sub_cancel' hle]
  rw [hsum, ahead_add_self, BitVec.toNat_ofNat, Nat.mod_eq_of_lt hlt]

/-- The far counter moves one step on. -/
theorem ahead_succ_right (h : ahead a b + 1 < 2 ^ w) : ahead a (b + 1) = ahead a b + 1 := by
  rcases Nat.eq_zero_or_pos w with rfl | hw
  · omega
  rw [ahead_add (b := b) (by rwa [ahead_succ_self hw]), ahead_succ_self hw]

/-- The near counter moves one step on. -/
theorem ahead_succ_left (h : 0 < ahead a b) : ahead (a + 1) b = ahead a b - 1 := by
  have hlt := ahead_lt a b
  rcases Nat.eq_zero_or_pos w with rfl | hw
  · simp at hlt
    omega
  have hone := ahead_succ_self (a := a) hw
  rw [ahead_of_le (a := a) (by omega), hone]

/-- The two numbers are less than half of the space apart, as they stand: no wrap is between. -/
def Near (a b : BitVec w) : Prop :=
  -2 ^ w ≤ 2 * ((b.toNat : ℤ) - a.toNat) ∧ 2 * ((b.toNat : ℤ) - a.toNat) < 2 ^ w

instance : Decidable (Near a b) := inferInstanceAs (Decidable (_ ∧ _))

/-- To compare the numbers is to look at the sign of the difference, if and only if they are
near. -/
theorem lt_iff_iff_near : (b < a ↔ (b - a).toInt < 0) ↔ Near a b := by
  have ha := a.isLt
  have hb := b.isLt
  have hcast : ((2 ^ w : ℕ) : ℤ) = 2 ^ w := by simp
  have hint : (b - a).toInt =
      if 2 * ahead a b < 2 ^ w then (ahead a b : ℤ) else (ahead a b : ℤ) - (2 ^ w : ℕ) :=
    BitVec.toInt_eq_toNat_cond (b - a)
  rw [BitVec.lt_def, hint, ahead_eq, Near]
  split <;> split <;> omega

end Serial
