/-
SqueezeliteMuse/Lib/Ring.lean

Cyclic memories and bounded queues, over an arbitrary element type.

`slice m n r k` is what is read from the ring `m` of `n` cells by starting at
cell `r` and going on for `k` cells, wrapping at `n`; `write m p bs` stores the
block `bs` at the cells `p, p+1, ..`; `gap n r w` is the number of cells from
`r` forward to `w`.  A ring with a read index `r` and a write index `w` stands
for the bounded queue `slice m n r (gap n r w)`: consuming drops a prefix
(`drop_slice`), and storing a block that fits below the end of the memory and
short of `r` appends it (`slice_write_append`).

`BoundedFifo` is the abstract queue: its bound is a field.
-/
import Mathlib.Algebra.Order.Ring.Int
import Mathlib.Data.List.Basic
import Mathlib.Tactic.Common

namespace Ring

variable {α : Type*}

/-! ### Reading a ring -/

/-- The `k` elements read from cell `r` of a ring of `n` cells. -/
def slice (m : ℕ → α) (n r k : ℕ) : List α :=
  (List.range k).map fun i => m ((r + i) % n)

@[simp] theorem length_slice (m : ℕ → α) (n r k : ℕ) : (slice m n r k).length = k := by
  simp [slice]

@[simp] theorem slice_zero (m : ℕ → α) (n r : ℕ) : slice m n r 0 = [] := rfl

theorem slice_add (m : ℕ → α) (n r j k : ℕ) :
    slice m n r (j + k) = slice m n r j ++ slice m n (r + j) k := by
  simp only [slice, List.range_add, List.map_append, List.map_map]
  congr 1
  exact List.map_congr_left fun i _ => by simp [Nat.add_assoc]

/-- Only the cell a start index falls on matters. -/
theorem slice_mod (m : ℕ → α) (n r k : ℕ) : slice m n (r % n) k = slice m n r k := by
  simp [slice]

theorem slice_sub (m : ℕ → α) {n r : ℕ} (k : ℕ) (h : n ≤ r) :
    slice m n (r - n) k = slice m n r k := by
  rw [← slice_mod m n r, ← slice_mod m n (r - n), Nat.mod_eq_sub_mod h]

theorem drop_slice (m : ℕ → α) (n r : ℕ) {j k : ℕ} (h : j ≤ k) :
    (slice m n r k).drop j = slice m n (r + j) (k - j) := by
  obtain ⟨l, rfl⟩ := Nat.exists_eq_add_of_le h
  rw [slice_add, List.drop_left' (length_slice ..), Nat.add_sub_cancel_left]

theorem slice_congr {m m' : ℕ → α} {n r k : ℕ}
    (h : ∀ i < k, m ((r + i) % n) = m' ((r + i) % n)) : slice m n r k = slice m' n r k :=
  List.map_congr_left fun i hi => h i (List.mem_range.mp hi)

/-- Short of the end of the memory nothing wraps. -/
theorem slice_of_le (m : ℕ → α) {n r k : ℕ} (h : r + k ≤ n) :
    slice m n r k = (List.range k).map fun i => m (r + i) :=
  List.map_congr_left fun i hi => by
    rw [Nat.mod_eq_of_lt (by have := List.mem_range.mp hi; omega)]

/-! ### Writing a block -/

/-- Store the block `bs` at the cells `p, p+1, ..`. -/
def write (m : ℕ → α) (p : ℕ) (bs : List α) : ℕ → α := fun i =>
  if p ≤ i then bs.getD (i - p) (m i) else m i

theorem write_nil (m : ℕ → α) (p : ℕ) : write m p [] = m := by
  funext i
  simp [write]

theorem write_of_lt {m : ℕ → α} {p i : ℕ} {bs : List α} (h : i < p) :
    write m p bs i = m i := by
  simp [write, Nat.not_le.mpr h]

theorem write_of_ge {m : ℕ → α} {p i : ℕ} {bs : List α} (h : p + bs.length ≤ i) :
    write m p bs i = m i := by
  simp only [write]
  split
  · rw [List.getD_eq_getElem?_getD, List.getElem?_eq_none (by omega), Option.getD_none]
  · rfl

theorem write_add {m : ℕ → α} {p i : ℕ} {bs : List α} (h : i < bs.length) :
    write m p bs (p + i) = bs[i] := by
  simp [write, h]

/-- A block is stored value by value. -/
theorem write_cons (m : ℕ → α) (p : ℕ) (b : α) (bs : List α) :
    write m p (b :: bs) = write (Function.update m p b) (p + 1) bs := by
  funext i
  rcases Nat.lt_trichotomy i p with hlt | rfl | hgt
  · rw [write_of_lt hlt, write_of_lt (by omega), Function.update_of_ne (by omega)]
  · rw [write_of_lt (Nat.lt_succ_self i), Function.update_self]
    simp [write]
  · obtain ⟨k, rfl⟩ : ∃ k, i = p + 1 + k := ⟨i - (p + 1), by omega⟩
    have hoff : p + 1 + k - p = k + 1 := by omega
    simp only [write]
    rw [if_pos (by omega), if_pos (by omega), hoff, List.getD_cons_succ, Nat.add_sub_cancel_left,
      Function.update_of_ne (by omega)]

/-- What is read back where a block was stored is the block. -/
theorem slice_write_self (m : ℕ → α) {n p : ℕ} {bs : List α} (h : p + bs.length ≤ n) :
    slice (write m p bs) n p bs.length = bs := by
  rw [slice_of_le _ h]
  apply List.ext_getElem (by simp)
  intro i h₁ h₂
  simp [write_add h₂]

/-! ### Distances -/

/-- The number of cells from `r` forward to `w`. -/
def gap (n r w : ℕ) : ℕ := if r ≤ w then w - r else n - (r - w)

/-- The two shapes of a gap: the target ahead, or behind and reached by wrapping. -/
theorem gap_cases (n r w : ℕ) :
    (r ≤ w ∧ gap n r w = w - r) ∨ (w < r ∧ gap n r w = n - (r - w)) := by
  unfold gap; split <;> omega

theorem gap_lt {n r w : ℕ} (hr : r < n) (hw : w < n) : gap n r w < n := by
  have := gap_cases n r w
  omega

@[simp] theorem gap_self (n r : ℕ) : gap n r r = 0 := by simp [gap]

/-- Going forward by the gap ends on the target. -/
theorem add_gap_mod {n r w : ℕ} (hr : r < n) (hw : w < n) : (r + gap n r w) % n = w := by
  unfold gap
  split
  · rename_i h
    rw [Nat.add_sub_cancel' h, Nat.mod_eq_of_lt hw]
  · have h : r + (n - (r - w)) = w + n := by omega
    rw [h, Nat.add_mod_right, Nat.mod_eq_of_lt hw]

/-- Moving forward inside the gap shortens it by the move. -/
theorem gap_advance {n r w j r' : ℕ} (hr : r < n) (hw : w < n) (hj : j ≤ gap n r w)
    (hr' : r' < n) (he : r' = r + j ∨ r' + n = r + j) : gap n r' w = gap n r w - j := by
  have h := gap_cases n r w
  have h' := gap_cases n r' w
  omega

/-- Moving the target forward lengthens the gap, while it stays below `n`. -/
theorem gap_extend {n r w j w' : ℕ} (hr : r < n) (hw : w < n) (hj : gap n r w + j < n)
    (hw' : w' < n) (he : w' = w + j ∨ w' + n = w + j) : gap n r w' = gap n r w + j := by
  have h := gap_cases n r w
  have h' := gap_cases n r w'
  omega

/-- A block stored at the write index, below the end of the memory and short
of the read index, is appended to what the ring holds. -/
theorem slice_write_append (m : ℕ → α) {n r w : ℕ} {bs : List α} (hr : r < n) (hw : w < n)
    (hend : w + bs.length ≤ n) (hroom : gap n r w + bs.length < n) :
    slice (write m w bs) n r (gap n r w + bs.length) = slice m n r (gap n r w) ++ bs := by
  rw [slice_add, ← slice_mod _ n (r + gap n r w), add_gap_mod hr hw, slice_write_self m hend]
  congr 1
  apply slice_congr
  intro i hi
  -- a cell already in use is not one of the cells the block is stored at
  have hgap := gap_cases n r w
  have hcell : (r + i) % n < w ∨ w + bs.length ≤ (r + i) % n := by
    rcases Nat.lt_or_ge (r + i) n with h | h
    · rw [Nat.mod_eq_of_lt h]
      omega
    · rw [Nat.mod_eq_sub_mod h, Nat.mod_eq_of_lt (by omega)]
      omega
  rcases hcell with h | h
  · exact write_of_lt h
  · exact write_of_ge h

/-! ### The abstract queue -/

/-- A queue that never holds as many elements as its size. -/
structure BoundedFifo (α : Type*) where
  /-- One more than the number of elements there is room for. -/
  size : ℕ
  /-- The elements, the next one to be read first. -/
  items : List α
  bounded : items.length < size

namespace BoundedFifo

/-- The empty queue. -/
def empty (size : ℕ) (h : 0 < size) : BoundedFifo α := ⟨size, [], h⟩

/-- The elements there is still room for. -/
def room (q : BoundedFifo α) : ℕ := q.size - q.items.length - 1

theorem length_add_room (q : BoundedFifo α) : q.items.length + q.room + 1 = q.size := by
  have := q.bounded
  unfold room; omega

/-- Append a block there is room for. -/
def push (q : BoundedFifo α) (bs : List α) (h : bs.length ≤ q.room) : BoundedFifo α :=
  ⟨q.size, q.items ++ bs, by
    have := q.length_add_room
    rw [List.length_append]; omega⟩

/-- Remove the first `k` elements. -/
def pop (q : BoundedFifo α) (k : ℕ) : BoundedFifo α :=
  ⟨q.size, q.items.drop k, by
    have := q.bounded
    rw [List.length_drop]; omega⟩

end BoundedFifo

end Ring
