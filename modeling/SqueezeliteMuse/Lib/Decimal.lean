/-
SqueezeliteMuse/Lib/Decimal.lean

Numbers in decimal, and what the C library reads of them.

Nothing here is about a particular program.
-/
import SqueezeliteMuse.Lib.CString

namespace CString

/-- `%u` of `printf` -/
def decimal (n : ℕ) : List UInt8 := (Nat.toDigits 10 n).map fun c => UInt8.ofNat c.toNat

variable {p r s x : List UInt8} {c : UInt8} {n k : ℕ} {f : UInt8 → Bool}

theorem takeWhile_append_stop (hc : f c = false) (s x : List UInt8) :
    (s ++ c :: x).takeWhile f = s.takeWhile f := by
  induction s with
  | nil => rw [List.nil_append, List.takeWhile_cons_of_neg (by simp [hc]), List.takeWhile_nil]
  | cons d s ih =>
      rw [List.cons_append, List.takeWhile_cons, List.takeWhile_cons, ih]

theorem dropWhile_append_stop (hc : f c = false) (s x : List UInt8) :
    (s ++ c :: x).dropWhile f = s.dropWhile f ++ c :: x := by
  induction s with
  | nil => rw [List.nil_append, List.dropWhile_cons_of_neg (by simp [hc]), List.dropWhile_nil]; rfl
  | cons d s ih =>
      rw [List.cons_append, List.dropWhile_cons, List.dropWhile_cons, ih]
      split <;> rfl

theorem digit_range (h : isdigit c = true) : 48 ≤ c ∧ c ≤ 57 := by
  rw [isdigit, Bool.and_eq_true, decide_eq_true_iff, decide_eq_true_iff] at h
  exact h

theorem digit_ne {d : UInt8} (h : isdigit c = true) (hd : isdigit d = false) : c ≠ d := by
  rintro rfl
  rw [h] at hd
  cases hd

theorem not_isspace (h : isdigit c = true) : isspace c = false := by
  obtain ⟨hlow, -⟩ := digit_range h
  have hne : c ≠ 32 := digit_ne h (by decide)
  have hhigh : ¬ c ≤ 13 := fun hle => absurd (UInt8.le_trans hlow hle) (by decide)
  simp [isspace, hne, hhigh]

/-- Something else ends the digits. -/
theorem digits_append (hc : isdigit c = false) (s x : List UInt8) :
    digits (s ++ c :: x) = digits s := by
  rw [digits, takeWhile_append_stop hc, digits]

/-- And the number. -/
theorem atol_append (hdigit : isdigit c = false) (hspace : isspace c = false) (hminus : c ≠ 45)
    (hplus : c ≠ 43) (s x : List UInt8) : atol (s ++ c :: x) = atol s := by
  rw [atol, atol, dropWhile_append_stop hspace]
  rcases s.dropWhile isspace with - | ⟨d, t⟩
  · simp only [List.nil_append, if_neg hminus, if_neg hplus, digits_of_not_digit hdigit]
    rfl
  · simp only [List.cons_append, digits_append hdigit]
    rw [← List.cons_append, digits_append hdigit]

theorem atol_digits (hne : p ≠ []) (hp : ∀ c ∈ p, isdigit c = true) :
    atol p = min (2 ^ 31 - 1) (digits p : ℤ) := by
  obtain ⟨c, p, rfl⟩ := List.exists_cons_of_ne_nil hne
  have hc := hp c List.mem_cons_self
  have hspace : (c :: p).dropWhile isspace = c :: p :=
    List.dropWhile_cons_of_neg (by simp [not_isspace hc])
  have hminus : c ≠ 45 := digit_ne hc (by decide)
  have hplus : c ≠ 43 := digit_ne hc (by decide)
  rw [atol, hspace]
  simp only [if_neg hminus, if_neg hplus]

theorem decimal_ne_nil (n : ℕ) : decimal n ≠ [] := by
  simp [decimal]

theorem length_decimal_le (hk : 0 < k) (h : n < 10 ^ k) : (decimal n).length ≤ k := by
  rw [decimal, List.length_map]
  exact (Nat.length_toDigits_le_iff (by decide) hk).mpr h

theorem toNat_digit {d : Char} (h : d.isDigit = true) : (UInt8.ofNat d.toNat).toNat = d.toNat ∧
    48 ≤ d.toNat ∧ d.toNat ≤ 57 := by
  rw [Char.isDigit, Bool.and_eq_true, decide_eq_true_iff, decide_eq_true_iff] at h
  have hlow : 48 ≤ d.toNat := UInt32.le_iff_toNat_le.mp h.1
  have hhigh : d.toNat ≤ 57 := UInt32.le_iff_toNat_le.mp h.2
  refine ⟨?_, hlow, hhigh⟩
  rw [UInt8.toNat_ofNat']
  omega

theorem isdigit_decimal : ∀ c ∈ decimal n, isdigit c = true := by
  intro c hc
  obtain ⟨d, hd, rfl⟩ := List.mem_map.mp hc
  obtain ⟨hval, hlow, hhigh⟩ := toNat_digit (Nat.isDigit_of_mem_toDigits (by decide) (by decide) hd)
  rw [isdigit, Bool.and_eq_true, decide_eq_true_iff, decide_eq_true_iff, UInt8.le_iff_toNat_le,
    UInt8.le_iff_toNat_le, hval]
  exact ⟨hlow, hhigh⟩

theorem digits_decimal (n : ℕ) : digits (decimal n) = n := by
  have hall : (decimal n).takeWhile isdigit = decimal n :=
    List.takeWhile_eq_self_iff.mpr isdigit_decimal
  have hfold (cs : List Char) (hcs : ∀ d ∈ cs, d.isDigit = true) (m : ℕ) :
      (cs.map fun c => UInt8.ofNat c.toNat).foldl (fun n c => 10 * n + (c.toNat - 48)) m
        = Nat.ofDigitChars 10 cs m := by
    induction cs generalizing m with
    | nil => rfl
    | cons d cs ih =>
        rw [List.map_cons, List.foldl_cons, ih fun e he => hcs e (List.mem_cons_of_mem _ he),
          Nat.ofDigitChars_cons, (toNat_digit (hcs d List.mem_cons_self)).1]
        rfl
  rw [digits, hall, decimal,
    hfold _ fun d hd => Nat.isDigit_of_mem_toDigits (by decide) (by decide) hd,
    Nat.ofDigitChars_ten_toDigits]

theorem atol_decimal (h : n < 2 ^ 31) : atol (decimal n) = n := by
  rw [atol_digits (decimal_ne_nil n) isdigit_decimal, digits_decimal]
  omega

end CString
