/-
SqueezeliteMuse/Lib/Regroup.lean

Bits in other groups.

`bits w v` are the low `w` bits of a number, the most significant first, and
`value` is the number that bits make.  `regroup w` reads a list of bits in groups
of `w`, the last one filled up with zeros.
-/
import Mathlib.Algebra.Order.Ring.Int
import Mathlib.Data.List.Basic
import Mathlib.Tactic.Common

namespace Regroup

/-- The low `w` bits of `v`, the most significant first. -/
def bits : ℕ → ℕ → List Bool
  | 0, _ => []
  | w + 1, v => bits w (v / 2) ++ [decide (v % 2 = 1)]

attribute [local simp] bits

/-- The number of which these are the bits. -/
def value (bs : List Bool) : ℕ := bs.foldl (fun n b => 2 * n + b.toNat) 0

/-- The numbers that groups of `w` bits make. -/
def regroup (w : ℕ) (bs : List Bool) : List ℕ :=
  (List.range ((bs.length + (w - 1)) / w)).map fun i =>
    value (((bs ++ List.replicate w false).drop (w * i)).take w)

variable {w m : ℕ} {bs cs : List Bool}

@[simp] theorem length_bits (w v : ℕ) : (bits w v).length = w := by
  induction w generalizing v with
  | zero => rfl
  | succ w ih => rw [bits, List.length_append, ih, List.length_singleton]

theorem value_concat (bs : List Bool) (b : Bool) : value (bs ++ [b]) = 2 * value bs + b.toNat := by
  rw [value, List.foldl_append]
  rfl

theorem value_bits (w v : ℕ) : value (bits w v) = v % 2 ^ w := by
  induction w generalizing v with
  | zero => exact (Nat.mod_one v).symm
  | succ w ih =>
      have hbit : (decide (v % 2 = 1)).toNat = v % 2 := by
        rcases Nat.mod_two_eq_zero_or_one v with h | h <;> rw [h] <;> rfl
      rw [bits, value_concat, ih, hbit, Nat.pow_succ, Nat.mul_comm (2 ^ w) 2, Nat.mod_mul]
      omega

/-- The bits of a number are those of its upper part and those of the rest. -/
theorem bits_add (w m v : ℕ) : bits (w + m) v = bits w (v / 2 ^ m) ++ bits m v := by
  induction m generalizing v with
  | zero => rw [Nat.pow_zero, Nat.div_one, bits, List.append_nil, Nat.add_zero]
  | succ m ih =>
      rw [← Nat.add_assoc, bits, bits, ih, Nat.div_div_eq_div_mul, ← Nat.pow_succ',
        List.append_assoc]

/-- Nothing above the low `w` bits counts. -/
theorem bits_mod (w v : ℕ) : bits w (v % 2 ^ w) = bits w v := by
  induction w generalizing v with
  | zero => rfl
  | succ w ih =>
      have hhigh : v % 2 ^ (w + 1) / 2 = v / 2 % 2 ^ w := by
        rw [Nat.pow_succ', Nat.mod_mul, Nat.add_comm, Nat.mul_add_div (by decide),
          Nat.div_eq_of_lt (Nat.mod_lt v (by decide)), Nat.add_zero]
      have hlow : v % 2 ^ (w + 1) % 2 = v % 2 :=
        Nat.mod_mod_of_dvd v ⟨2 ^ w, Nat.pow_succ'⟩
      rw [bits, bits, hhigh, hlow, ih]

theorem bits_append {v : ℕ} (u : ℕ) (hv : v < 2 ^ m) :
    bits w u ++ bits m v = bits (w + m) (u * 2 ^ m + v) := by
  have hpos : 0 < 2 ^ m := Nat.two_pow_pos m
  rw [bits_add, Nat.add_comm, Nat.add_mul_div_right v u hpos, Nat.div_eq_of_lt hv, Nat.zero_add,
    ← bits_mod m (v + u * 2 ^ m), Nat.add_mul_mod_self_right, Nat.mod_eq_of_lt hv]

theorem replicate_false (w : ℕ) : List.replicate w false = bits w 0 := by
  induction w with
  | zero => rfl
  | succ w ih => rw [List.replicate_succ', ih, bits, Nat.zero_div]; rfl

/-- A whole group in front. -/
theorem regroup_append (hw : 0 < w) (h : bs.length = w) (cs : List Bool) :
    regroup w (bs ++ cs) = value bs :: regroup w cs := by
  have hcount : ((bs ++ cs).length + (w - 1)) / w = (cs.length + (w - 1)) / w + 1 := by
    rw [List.length_append, h, Nat.add_assoc, Nat.add_div_left _ hw]
  rw [regroup, hcount, List.range_succ_eq_map, List.map_cons, List.map_map, regroup]
  congr 1
  · rw [Nat.mul_zero, List.drop_zero, List.append_assoc, ← h, List.take_left]
  · apply List.map_congr_left
    intro i _
    rw [Function.comp_apply, Nat.succ_eq_add_one, Nat.mul_add, Nat.mul_one, Nat.add_comm,
      ← List.drop_drop, List.append_assoc, ← h, List.drop_left]

/-- The last group, filled up. -/
theorem regroup_last (hpos : bs ≠ []) (hle : bs.length ≤ w) :
    regroup w bs = [value (bs ++ List.replicate (w - bs.length) false)] := by
  have hlen := List.length_pos_of_ne_nil hpos
  have hcount : (bs.length + (w - 1)) / w = 1 := by
    apply Nat.div_eq_of_lt_le
    · omega
    · omega
  rw [regroup, hcount, List.range_one, List.map_singleton, Nat.mul_zero, List.drop_zero,
    List.take_append, List.take_of_length_le hle, List.take_replicate, Nat.min_eq_left (by omega)]

@[simp] theorem regroup_nil (hw : 0 < w) : regroup w [] = [] := by
  rw [regroup, List.length_nil, Nat.zero_add, Nat.div_eq_of_lt (by omega)]
  rfl

end Regroup
