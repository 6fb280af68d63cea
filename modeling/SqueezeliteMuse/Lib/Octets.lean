/-
SqueezeliteMuse/Lib/Octets.lean

Byte memories, numbers stored in them, and blocks laid over old contents.

`be m off k` and `le m off k` read the `k` bytes from cell `off` as one number.
A computation on a memory is *isolated* at a block `xs` if, with the block
stored at the start of the memory, what is behind the block does not show in
the result.  Numbers that are in the block are read as the same (`Agree.be_eq`,
`Agree.le_eq`); to show a computation not isolated, two memories behind the
block are enough (`not_isolated`).

`Holds m p xs` says that the list `xs` is in the memory from cell `p` on; what is
read there is what is in the list (`Holds.be_eq`, `Holds.le_eq`), and a number
that was put into the list is read back (`Holds.be_putBe`, `Holds.le_putLe`).
-/
import SqueezeliteMuse.Lib.Ring

namespace Octets

variable {β γ : Type*}

/-! ### Agreement -/

/-- The two memories hold the same below cell `n`. -/
def Agree (n : ℕ) (m m' : ℕ → β) : Prop := ∀ i < n, m i = m' i

theorem Agree.symm {n : ℕ} {m m' : ℕ → β} (h : Agree n m m') : Agree n m' m :=
  fun i hi => (h i hi).symm

theorem agree_write (m m' : ℕ → β) (xs : List β) :
    Agree xs.length (Ring.write m 0 xs) (Ring.write m' 0 xs) := by
  intro i hi
  have hm := Ring.write_add (m := m) (p := 0) hi
  have hm' := Ring.write_add (m := m') (p := 0) hi
  rw [Nat.zero_add] at hm hm'
  rw [hm, hm']

theorem Agree.map_range {n off k : ℕ} {m m' : ℕ → β} (h : Agree n m m') (hk : off + k ≤ n) :
    (List.range k).map (fun i => m (off + i)) = (List.range k).map (fun i => m' (off + i)) :=
  List.map_congr_left fun i hi => h _ (by have := List.mem_range.mp hi; omega)

/-! ### Isolation -/

/-- What is behind the block `xs` does not show in the result of `f`. -/
def Isolated (f : (ℕ → β) → γ) (xs : List β) : Prop :=
  ∀ m m', f (Ring.write m 0 xs) = f (Ring.write m' 0 xs)

/-- Two memories behind the block that a projection of the result tells apart. -/
theorem not_isolated {δ : Type*} {f : (ℕ → β) → γ} {xs : List β} (g : γ → δ) (m m' : ℕ → β)
    (h : g (f (Ring.write m 0 xs)) ≠ g (f (Ring.write m' 0 xs))) : ¬ Isolated f xs :=
  fun hf => h (congrArg g (hf m m'))

/-! ### Numbers -/

/-- The `k` bytes from cell `off`, the first of them the highest. -/
def be (m : ℕ → UInt8) (off : ℕ) : ℕ → ℕ
  | 0 => 0
  | k + 1 => 256 * be m off k + (m (off + k)).toNat

/-- The `k` bytes from cell `off`, the first of them the lowest. -/
def le (m : ℕ → UInt8) (off : ℕ) : ℕ → ℕ
  | 0 => 0
  | k + 1 => le m off k + 256 ^ k * (m (off + k)).toNat

/-- The memory with the `k` bytes from cell `off` in the other order. -/
def swap (m : ℕ → UInt8) (off k : ℕ) : ℕ → UInt8 := fun i =>
  if off ≤ i ∧ i < off + k then m (off + (off + k - 1 - i)) else m i

theorem swap_of_lt {m : ℕ → UInt8} {off k i : ℕ} (h : i < off) : swap m off k i = m i :=
  if_neg (by omega)

/-- The same bytes, from cells of their own. -/
theorem be_congr_of {m m' : ℕ → UInt8} {off off' k : ℕ}
    (h : ∀ i < k, m (off + i) = m' (off' + i)) : be m off k = be m' off' k := by
  induction k with
  | zero => rfl
  | succ k ih => rw [be, be, ih fun i hi => h i (by omega), h k (by omega)]

theorem le_congr_of {m m' : ℕ → UInt8} {off off' k : ℕ}
    (h : ∀ i < k, m (off + i) = m' (off' + i)) : le m off k = le m' off' k := by
  induction k with
  | zero => rfl
  | succ k ih => rw [le, le, ih fun i hi => h i (by omega), h k (by omega)]

theorem be_congr {m m' : ℕ → UInt8} {off k : ℕ} (h : ∀ i < k, m (off + i) = m' (off + i)) :
    be m off k = be m' off k := be_congr_of h

theorem le_congr {m m' : ℕ → UInt8} {off k : ℕ} (h : ∀ i < k, m (off + i) = m' (off + i)) :
    le m off k = le m' off k := le_congr_of h

theorem Agree.be_eq {n : ℕ} {m m' : ℕ → UInt8} (h : Agree n m m') (off k : ℕ) (hk : off + k ≤ n) :
    be m off k = be m' off k :=
  be_congr fun i hi => h _ (by omega)

theorem Agree.le_eq {n : ℕ} {m m' : ℕ → UInt8} (h : Agree n m m') (off k : ℕ) (hk : off + k ≤ n) :
    le m off k = le m' off k :=
  le_congr fun i hi => h _ (by omega)

theorem be_lt (m : ℕ → UInt8) (off k : ℕ) : be m off k < 256 ^ k := by
  induction k with
  | zero => simp [be]
  | succ k ih =>
      have hb := (m (off + k)).toNat_lt
      rw [be, Nat.pow_succ]
      omega

theorem le_lt (m : ℕ → UInt8) (off k : ℕ) : le m off k < 256 ^ k := by
  induction k with
  | zero => exact Nat.one_pos
  | succ k ih =>
      have hb : (m (off + k)).toNat + 1 ≤ 256 := (m (off + k)).toNat_lt
      have htop := Nat.mul_le_mul_left (256 ^ k) hb
      rw [le, Nat.pow_succ]
      rw [Nat.mul_add, Nat.mul_one] at htop
      omega

/-- A number of `j + k` bytes, cut. -/
theorem be_add (m : ℕ → UInt8) (off j k : ℕ) :
    be m off (j + k) = 256 ^ k * be m off j + be m (off + j) k := by
  induction k with
  | zero => simp [be]
  | succ k ih =>
      rw [← Nat.add_assoc, be, ih, be, Nat.pow_succ, Nat.add_assoc off j k]
      grind

theorem be_zero {m : ℕ → UInt8} {off k : ℕ} (h : ∀ i < k, m (off + i) = 0) : be m off k = 0 := by
  induction k with
  | zero => rfl
  | succ k ih =>
      rw [be, ih fun i hi => h i (by omega), h k (by omega)]
      rfl

section Cut

variable {m m' : ℕ → UInt8} {off j k : ℕ}

/-- A number of which the last `k` bytes are zero. -/
theorem be_cut (hzero : ∀ i, off + j ≤ i → m i = 0) : be m off (j + k) = 256 ^ k * be m off j := by
  have hnone : be m (off + j) k = 0 := be_zero fun i _ => hzero _ (by omega)
  rw [be_add, hnone, Nat.add_zero]

/-- Other bytes in their place add less than one unit of the rest. -/
theorem Agree.missing (h : Agree (off + j) m m') (hzero : ∀ i, off + j ≤ i → m i = 0) :
    ∃ d < 256 ^ k, be m' off (j + k) = be m off (j + k) + d := by
  refine ⟨be m' (off + j) k, be_lt .., ?_⟩
  rw [be_cut hzero, h.be_eq off j (Nat.le_refl _), be_add]

end Cut

/-- Zeros, but for the `k` bytes from cell `off`, which are the number `v`. -/
def put (off k v : ℕ) : ℕ → UInt8 := fun i =>
  if off ≤ i ∧ i < off + k then UInt8.ofNat (v / 256 ^ (off + k - 1 - i)) else 0

theorem be_put {off k v : ℕ} (hv : v < 256 ^ k) : be (put off k v) off k = v := by
  induction k generalizing v with
  | zero => simp at hv; simp [be, hv]
  | succ k ih =>
      have hhigh : be (put off (k + 1) v) off k = be (put off k (v / 256)) off k := by
        apply be_congr
        intro i hi
        have hexp : off + (k + 1) - 1 - (off + i) = off + k - 1 - (off + i) + 1 := by omega
        rw [put, put, if_pos (by omega), if_pos (by omega), hexp, Nat.pow_succ', Nat.div_div_eq_div_mul]
      have hlow : put off (k + 1) v (off + k) = UInt8.ofNat v := by
        rw [put, if_pos (by omega)]
        simp
      rw [be, hhigh, hlow, ih (by rw [Nat.pow_succ] at hv; omega), UInt8.toNat_ofNat']
      omega

/-! ### Lists in a memory -/

/-- The list is in the memory from cell `p` on. -/
def Holds (m : ℕ → β) (p : ℕ) (xs : List β) : Prop := ∀ i (h : i < xs.length), m (p + i) = xs[i]

theorem holds_append {m : ℕ → β} {p : ℕ} {xs ys : List β} :
    Holds m p (xs ++ ys) ↔ Holds m p xs ∧ Holds m (p + xs.length) ys := by
  constructor
  · intro h
    refine ⟨fun i hi => ?_, fun i hi => ?_⟩
    · rw [h i (by rw [List.length_append]; omega), List.getElem_append_left hi]
    · rw [Nat.add_assoc, h (xs.length + i) (by rw [List.length_append]; omega),
        List.getElem_append_right (by omega)]
      simp
  · rintro ⟨hx, hy⟩ i hi
    rcases Nat.lt_or_ge i xs.length with hlt | hge
    · rw [hx i hlt, List.getElem_append_left hlt]
    · rw [List.length_append] at hi
      rw [List.getElem_append_right hge, ← hy (i - xs.length) (by omega)]
      congr 1
      omega

/-- A block that is stored behind the list makes it longer. -/
theorem Holds.write_append {m : ℕ → β} {p : ℕ} {xs : List β} (h : Holds m p xs) (ys : List β) :
    Holds (Ring.write m (p + xs.length) ys) p (xs ++ ys) := by
  rw [holds_append]
  constructor
  · intro i hi
    rw [Ring.write_of_lt (by omega), h i hi]
  · intro i hi
    exact Ring.write_add hi

theorem holds_nil (m : ℕ → β) (p : ℕ) : Holds m p [] := fun _ h => absurd h (Nat.not_lt_zero _)

theorem Holds.map_range {m : ℕ → β} {p : ℕ} {xs : List β} (h : Holds m p xs) :
    (List.range xs.length).map (fun i => m (p + i)) = xs := by
  refine List.ext_getElem (by simp) fun i hi hi' => ?_
  simpa using h i hi'

/-- A list as a memory, with zeros behind it. -/
def ofList (xs : List UInt8) : ℕ → UInt8 := fun i => xs.getD i 0

theorem holds_ofList (xs : List UInt8) : Holds (ofList xs) 0 xs := fun i hi => by
  rw [Nat.zero_add, ofList, List.getD_eq_getElem?_getD, List.getElem?_eq_getElem hi,
    Option.getD_some]

section Lists
variable {m : ℕ → UInt8} {p : ℕ} {xs : List UInt8}

theorem Holds.ofList (h : Holds m p xs) {i : ℕ} (hi : i < xs.length) :
    m (p + i) = ofList xs i := by
  rw [h i hi, Octets.ofList, List.getD_eq_getElem?_getD, List.getElem?_eq_getElem hi,
    Option.getD_some]

theorem Holds.be_eq (h : Holds m p xs) (off k : ℕ) (hk : off + k ≤ xs.length) :
    be m (p + off) k = be (Octets.ofList xs) off k :=
  be_congr_of fun i hi => by rw [Nat.add_assoc]; exact h.ofList (by omega)

theorem Holds.le_eq (h : Holds m p xs) (off k : ℕ) (hk : off + k ≤ xs.length) :
    le m (p + off) k = le (Octets.ofList xs) off k :=
  le_congr_of fun i hi => by rw [Nat.add_assoc]; exact h.ofList (by omega)

end Lists

/-- The `k` bytes of a number, the highest first. -/
def putBe (k v : ℕ) : List UInt8 := (List.range k).map (put 0 k v)

/-- The `k` bytes of a number, the lowest first. -/
def putLe (k v : ℕ) : List UInt8 := (List.range k).map fun i => UInt8.ofNat (v / 256 ^ i)

@[simp] theorem length_putBe (k v : ℕ) : (putBe k v).length = k := by simp [putBe]

@[simp] theorem length_putLe (k v : ℕ) : (putLe k v).length = k := by simp [putLe]

theorem Holds.be_putBe {m : ℕ → UInt8} {p k v : ℕ} (h : Holds m p (putBe k v))
    (hv : v < 256 ^ k) : be m p k = v := by
  refine (be_congr_of fun i hi => ?_).trans (@be_put 0 k v hv)
  rw [h i (by simpa using hi), Nat.zero_add]
  simp [putBe]

theorem le_of_digits {m : ℕ → UInt8} {p k v : ℕ}
    (h : ∀ i < k, m (p + i) = UInt8.ofNat (v / 256 ^ i)) : le m p k = v % 256 ^ k := by
  induction k with
  | zero => simp [le, Nat.mod_one]
  | succ k ih =>
      rw [le, ih fun i hi => h i (by omega), h k (by omega), UInt8.toNat_ofNat',
        Nat.mod_pow_succ (b := 256)]

theorem Holds.le_putLe {m : ℕ → UInt8} {p k v : ℕ} (h : Holds m p (putLe k v))
    (hv : v < 256 ^ k) : le m p k = v := by
  rw [le_of_digits (v := v), Nat.mod_eq_of_lt hv]
  intro i hi
  rw [h i (by simpa using hi)]
  simp [putLe]

end Octets
