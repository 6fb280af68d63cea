/-
SqueezeliteMuse/Lib/BitReversal.lean

The numbers below a power of two with their bits in reverse order, and how elements in a memory
are brought into such an order by exchanging two at a time.
Nothing here is about a particular program.
-/
import Mathlib.Logic.Function.Basic
import Mathlib.Data.Nat.Notation
import Mathlib.Tactic.Common
import Mathlib.Tactic.Ring

namespace BitReversal

/-- The last `n` bits of a number in reverse order. -/
def rev : ℕ → ℕ → ℕ
  | 0, _ => 0
  | n + 1, i => 2 ^ n * (i % 2) + rev n (i / 2)

theorem rev_lt (n i : ℕ) : rev n i < 2 ^ n := by
  induction n generalizing i with
  | zero => exact Nat.one_pos
  | succ n ih =>
    have hrest := ih (i / 2)
    have hbit : 2 ^ n * (i % 2) ≤ 2 ^ n * 1 := Nat.mul_le_mul_left _ (by omega)
    rw [rev, pow_succ]
    omega

theorem rev_zero_right (n : ℕ) : rev n 0 = 0 := by
  induction n with
  | zero => rfl
  | succ n ih => rw [rev, Nat.zero_mod, Nat.zero_div, ih, Nat.mul_zero]

/-- The first bits become the last ones. -/
theorem rev_add (a b i : ℕ) : rev (a + b) i = 2 ^ b * rev a i + rev b (i / 2 ^ a) := by
  induction a generalizing i with
  | zero => rw [Nat.zero_add, rev, pow_zero, Nat.div_one, Nat.mul_zero, Nat.zero_add]
  | succ a ih =>
    have hdiv : i / 2 / 2 ^ a = i / 2 ^ (a + 1) := by
      rw [Nat.div_div_eq_div_mul, pow_succ, Nat.mul_comm]
    rw [Nat.add_right_comm, rev, ih, rev, hdiv, pow_add]
    ring

/-- Only the last bits matter. -/
theorem rev_add_mul (n i k : ℕ) : rev n (i + 2 ^ n * k) = rev n i := by
  induction n generalizing i with
  | zero => rfl
  | succ n ih =>
    have hdouble : 2 ^ (n + 1) * k = 2 * (2 ^ n * k) := by ring
    have hbit : (i + 2 ^ (n + 1) * k) % 2 = i % 2 := by omega
    have hhalf : (i + 2 ^ (n + 1) * k) / 2 = i / 2 + 2 ^ n * k := by omega
    rw [rev, rev, hbit, hhalf, ih]

theorem rev_rev {n i : ℕ} (h : i < 2 ^ n) : rev n (rev n i) = i := by
  induction n generalizing i with
  | zero =>
    rw [pow_zero] at h
    rw [rev]
    omega
  | succ n ih =>
    have hhalf : i / 2 < 2 ^ n := by
      rw [pow_succ] at h
      omega
    have hlt := rev_lt n (i / 2)
    -- the last bit of i is the first of what is reversed again
    have hfirst : (2 ^ n * (i % 2) + rev n (i / 2)) / 2 ^ n = i % 2 := by
      rw [Nat.mul_add_div (Nat.two_pow_pos n), Nat.div_eq_of_lt hlt, Nat.add_zero]
    have hlast : rev 1 (i % 2) = i % 2 := by
      rw [rev, rev]
      omega
    calc rev (n + 1) (rev (n + 1) i)
      _ = rev (n + 1) (2 ^ n * (i % 2) + rev n (i / 2)) := rfl
      _ = 2 ^ 1 * rev n (rev n (i / 2) + 2 ^ n * (i % 2)) + rev 1 (i % 2) := by
          rw [rev_add n 1, hfirst, Nat.add_comm (2 ^ n * (i % 2))]
      _ = 2 * (i / 2) + i % 2 := by rw [rev_add_mul, ih hhalf, hlast, pow_one]
      _ = i := Nat.div_add_mod i 2

/-! ### Exchanges -/

variable {α : Type*}

/-- Two elements change places. -/
def exchange (x : ℕ → α) (i j : ℕ) : ℕ → α :=
  Function.update (Function.update x j (x i)) i (x j)

/-- The places below `m` in turn, each with the one it belongs to where that comes later. -/
def permute (σ : ℕ → ℕ) (x : ℕ → α) : ℕ → (ℕ → α)
  | 0 => x
  | m + 1 => if m < σ m then exchange (permute σ x m) m (σ m) else permute σ x m

theorem exchange_apply (x : ℕ → α) (i j p : ℕ) :
    exchange x i j p = if p = i then x j else if p = j then x i else x p := by
  rw [exchange, Function.update_apply, Function.update_apply]

/-- Each pair is exchanged when the first of the two is reached. -/
theorem permute_apply {σ : ℕ → ℕ} {N : ℕ} (hlt : ∀ i < N, σ i < N) (hinv : ∀ i < N, σ (σ i) = i)
    (x : ℕ → α) {m : ℕ} (hm : m ≤ N) (p : ℕ) :
    permute σ x m p = if p < N ∧ min p (σ p) < m then x (σ p) else x p := by
  induction m generalizing p with
  | zero => rw [permute, if_neg (by omega)]
  | succ m ih =>
    have hσ := hinv m (by omega)
    have hσlt := hlt m (by omega)
    have hback : σ p = m → p < N → p = σ m := fun h hp => by rw [← h, hinv p hp]
    rw [permute]
    split
    case isTrue hlater =>
      rw [exchange_apply, ih (by omega), ih (by omega), ih (by omega), hσ]
      by_cases hpm : p = m
      · subst hpm
        rw [if_pos rfl, if_neg (by omega), if_pos (by omega)]
      · rw [if_neg hpm]
        by_cases hpσ : p = σ m
        · subst hpσ
          rw [if_pos rfl, hσ, if_neg (by omega), if_pos (by omega)]
        · rw [if_neg hpσ]
          have hsame : (p < N ∧ min p (σ p) < m) ↔ (p < N ∧ min p (σ p) < m + 1) := by
            constructor
            · omega
            · rintro ⟨hp, hmin⟩
              have hne : σ p ≠ m := fun h => hpσ (hback h hp)
              omega
          simp only [hsame]
    case isFalse hnot =>
      rw [ih (by omega)]
      by_cases hp : p < N ∧ min p (σ p) < m
      · rw [if_pos hp, if_pos (by omega)]
      · rw [if_neg hp]
        split
        case isTrue hnext =>
          -- it is its own place, or it was reached before
          obtain ⟨hpN, hmin⟩ := hnext
          by_cases hpm : p = m
          · subst hpm
            have hfix : σ p = p := by omega
            rw [hfix]
          · have hσp : σ p = m := by omega
            have hpσ := hback hσp hpN
            omega
        case isFalse => rfl

end BitReversal
