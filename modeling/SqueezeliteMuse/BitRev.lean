/-
SqueezeliteMuse/BitRev.lean

The order of the spectrum: dsps_bit_rev_fc32_ansi(), that displayer.c brings what the Fourier
transform leaves into its order with.

Main result: the function returns for every length; it puts every element where its index with the
bits in reverse order says, and a second call undoes the first.
-/
import SqueezeliteMuse.Lib.BitReversal

namespace SqueezeliteMuse.BitRev

open BitReversal (rev rev_lt rev_rev exchange permute)
open Function (update)

/-! ### The source -/

/-- `esp_err_t` -/
inductive EspErr
  | ok | invalidLength

/-- `dsp_is_power_of_two` -/
def isPowerOfTwo (x : ℕ) : Bool := x ≠ 0 && (x &&& (x - 1)) = 0

section Source

variable {R : Type*}

/-- The loop over `k` of `dsps_bit_rev_fc32_ansi` with the addition behind it; `none` where it does
not end. -/
def carry (k j : ℕ) : Option ℕ :=
  if k ≤ j then
    if _h : k = 0 then none else carry (k / 2) (j - k)
  else some (j + k)
termination_by k
decreasing_by omega

/-- The elements `i` and `j` change places, by `r_temp` and `i_temp`. -/
def swap (data : ℕ → R) (i j : ℕ) : ℕ → R :=
  let rTemp := data (j * 2)
  let data := update data (j * 2) (data (i * 2))
  let data := update data (i * 2) rTemp
  let iTemp := data (j * 2 + 1)
  let data := update data (j * 2 + 1) (data (i * 2 + 1))
  update data (i * 2 + 1) iTemp

/-- The loop of `dsps_bit_rev_fc32_ansi`, for so many rounds from `i` on. -/
def bitRevLoop (N : ℕ) : ℕ → ℕ → ℕ → (ℕ → R) → Option (ℕ → R)
  | 0, _, _, data => some data
  | rounds + 1, i, j, data =>
      match carry (N / 2) j with
      | none => none
      | some j => bitRevLoop N rounds (i + 1) j (if i < j then swap data i j else data)

/-- `dsps_bit_rev_fc32_ansi` -/
def bitRev (data : ℕ → R) (N : ℕ) : Option (EspErr × (ℕ → R)) :=
  if isPowerOfTwo N then (bitRevLoop N (N - 2) 1 0 data).map (.ok, ·)
  else some (.invalidLength, data)

end Source

/-! ### The reversal of the indices -/

section Reversal

variable {R : Type*}

theorem isPowerOfTwo_pow (n : ℕ) : isPowerOfTwo (2 ^ n) = true := by
  simp [isPowerOfTwo, Nat.and_two_pow_sub_one_eq_mod]

/-- The lengths that are taken are the powers of two. -/
theorem isPowerOfTwo_iff (x : ℕ) : isPowerOfTwo x = true ↔ ∃ n, x = 2 ^ n := by
  constructor
  · intro h
    induction x using Nat.strongRecOn with
    | ind x ih =>
      simp only [isPowerOfTwo, ne_eq, Bool.and_eq_true, decide_eq_true_eq] at h ih
      obtain ⟨hne, hand⟩ := h
      have hhalf : x / 2 &&& (x - 1) / 2 = 0 := by rw [← Nat.and_div_two, hand]
      rcases Nat.mod_two_eq_zero_or_one x with heven | hodd
      · have hpred : (x - 1) / 2 = x / 2 - 1 := by omega
        rw [hpred] at hhalf
        obtain ⟨n, hn⟩ := ih (x / 2) (by omega) ⟨by omega, hhalf⟩
        exact ⟨n + 1, by rw [pow_succ]; omega⟩
      · have hpred : (x - 1) / 2 = x / 2 := by omega
        rw [hpred, Nat.and_self] at hhalf
        exact ⟨0, by omega⟩
  · rintro ⟨n, rfl⟩
    exact isPowerOfTwo_pow n

/-- The bits are counted up from the first to the last. -/
theorem carry_rev {n i : ℕ} (h : i + 1 < 2 ^ n) :
    carry (2 ^ n / 2) (rev n i) = some (rev n (i + 1)) := by
  induction n generalizing i with
  | zero => simp at h
  | succ n ih =>
    have hlt := rev_lt n (i / 2)
    have hpow : 2 ^ (n + 1) / 2 = 2 ^ n := by
      rw [pow_succ]
      omega
    rw [hpow, carry, rev, rev]
    rw [pow_succ] at h
    rcases Nat.mod_two_eq_zero_or_one i with heven | hodd
    · have hnext : (i + 1) % 2 = 1 := by omega
      have hhalf : (i + 1) / 2 = i / 2 := by omega
      rw [heven, hnext, hhalf, Nat.mul_zero, Nat.zero_add, Nat.mul_one, if_neg (by omega),
        Nat.add_comm]
    · have hnext : (i + 1) % 2 = 0 := by omega
      have hhalf : (i + 1) / 2 = i / 2 + 1 := by omega
      rw [hodd, hnext, hhalf, Nat.mul_zero, Nat.zero_add, Nat.mul_one, if_pos (by omega),
        dif_neg (Nat.two_pow_pos n).ne', Nat.add_sub_cancel_left]
      exact ih (by omega)

/-- The element at an index: its two numbers. -/
def element (data : ℕ → R) (p : ℕ) : R × R := (data (p * 2), data (p * 2 + 1))

theorem element_swap (data : ℕ → R) {i j : ℕ} (hne : i ≠ j) :
    element (swap data i j) = exchange (element data) i j := by
  funext p
  rw [BitReversal.exchange_apply]
  split
  case isTrue hi =>
    subst hi
    refine Prod.ext ?_ ?_ <;> simp only [element, swap, Function.update_apply] <;> grind
  case isFalse hi =>
    split
    case isTrue hj =>
      subst hj
      refine Prod.ext ?_ ?_ <;> simp only [element, swap, Function.update_apply] <;> grind
    case isFalse hj =>
      refine Prod.ext ?_ ?_ <;> simp only [element, swap, Function.update_apply] <;> grind

theorem bitRevLoop_eq (n : ℕ) {rounds i : ℕ} (hi : 0 < i) (hrounds : i + rounds < 2 ^ n)
    (data : ℕ → R) :
    ∃ out, bitRevLoop (2 ^ n) rounds i (rev n (i - 1)) data = some out ∧
      ∀ x : ℕ → R × R, element data = permute (rev n) x i →
        element out = permute (rev n) x (i + rounds) := by
  induction rounds generalizing i data with
  | zero => exact ⟨data, rfl, fun x hx => hx⟩
  | succ rounds ih =>
    have hnext := @carry_rev n (i - 1) (by omega)
    rw [Nat.sub_add_cancel hi] at hnext
    obtain ⟨out, hout, hperm⟩ := @ih (i + 1) (Nat.succ_pos i) (by omega)
      (if i < rev n i then swap data i (rev n i) else data)
    rw [Nat.add_sub_cancel] at hout
    refine ⟨out, ?_, fun x hx => ?_⟩
    · rw [bitRevLoop, hnext]
      exact hout
    · rw [hperm x, Nat.add_right_comm, Nat.add_assoc]
      rw [permute]
      split
      case isTrue hlt => rw [element_swap data (Nat.ne_of_lt hlt), hx]
      case isFalse => exact hx

/-- The function returns, has every element at its place, and nothing behind them is touched. -/
theorem bitRev_eq (n : ℕ) (data : ℕ → R) :
    ∃ out, bitRev data (2 ^ n) = some (.ok, out) ∧
      ∀ p, element out p = if p < 2 ^ n then element data (rev n p) else element data p := by
  rw [bitRev, if_pos (isPowerOfTwo_pow n)]
  cases n with
  | zero =>
    refine ⟨data, rfl, fun p => ?_⟩
    split
    case isTrue hp =>
      have hzero : p = 0 := by simpa using hp
      rw [hzero, BitReversal.rev_zero_right]
    case isFalse => rfl
  | succ n =>
    have htwo : 2 ≤ 2 ^ (n + 1) := by
      have hpos := Nat.two_pow_pos n
      rw [pow_succ]
      omega
    obtain ⟨out, hout, hperm⟩ := @bitRevLoop_eq R (n + 1) (2 ^ (n + 1) - 2) 1 Nat.one_pos
      (by omega) data
    rw [Nat.sub_self, BitReversal.rev_zero_right] at hout
    refine ⟨out, by rw [hout, Option.map_some], fun p => ?_⟩
    have hfirst : permute (rev (n + 1)) (element data) 1 = element data := by
      rw [permute, if_neg (by rw [BitReversal.rev_zero_right]; omega), permute]
    rw [hperm (element data) hfirst.symm, BitReversal.permute_apply (fun i _ => rev_lt (n + 1) i)
      (fun i hi => rev_rev hi) (element data) (by omega)]
    by_cases hp : p < 2 ^ (n + 1)
    · have hlt := rev_lt (n + 1) p
      rw [if_pos hp]
      split
      case isTrue => rfl
      case isFalse hlast =>
        -- the last element is its own place
        have hfix : rev (n + 1) p = p := by omega
        rw [hfix]
    · rw [if_neg hp, if_neg fun h => hp h.1]

theorem element_injective {f g : ℕ → R} (h : ∀ p, element f p = element g p) : f = g := by
  funext q
  rcases Nat.mod_two_eq_zero_or_one q with heven | hodd
  · have hq : q / 2 * 2 = q := by omega
    have hfirst := congrArg Prod.fst (h (q / 2))
    simp only [element] at hfirst
    rwa [hq] at hfirst
  · have hq : q / 2 * 2 + 1 = q := by omega
    have hsecond := congrArg Prod.snd (h (q / 2))
    simp only [element] at hsecond
    rwa [hq] at hsecond

/-- The function always returns.  It takes the powers of two, where the bits of the indices are
reversed and a second call undoes the first, and leaves the data alone otherwise. -/
theorem bitRev_reverses (data : ℕ → R) (N : ℕ) :
    (∃ n out, N = 2 ^ n ∧ bitRev data N = some (.ok, out) ∧
        (∀ p < N, element out p = element data (rev n p)) ∧
        (∀ p, N ≤ p → element out p = element data p) ∧ bitRev out N = some (.ok, data)) ∨
      (∀ n, N ≠ 2 ^ n) ∧ bitRev data N = some (.invalidLength, data) := by
  by_cases hpow : isPowerOfTwo N = true
  · obtain ⟨n, rfl⟩ := (isPowerOfTwo_iff N).mp hpow
    obtain ⟨out, hout, helement⟩ := bitRev_eq n data
    obtain ⟨back, hback, hundone⟩ := bitRev_eq n out
    have hsame : back = data := by
      refine element_injective fun p => ?_
      rw [hundone]
      split
      case isTrue hp => rw [helement, if_pos (rev_lt n p), rev_rev hp]
      case isFalse hp => rw [helement, if_neg hp]
    refine .inl ⟨n, out, rfl, hout, fun p hp => ?_, fun p hp => ?_, hsame ▸ hback⟩
    · rw [helement, if_pos hp]
    · rw [helement, if_neg (by omega)]
  · refine .inr ⟨fun n hn => hpow ?_, if_neg hpow⟩
    exact (isPowerOfTwo_iff N).mpr ⟨n, hn⟩

end Reversal

end SqueezeliteMuse.BitRev
