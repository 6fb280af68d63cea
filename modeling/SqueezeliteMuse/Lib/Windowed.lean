/-
SqueezeliteMuse/Lib/Windowed.lean

Memories that are written through a window, and buffers that shadow one another.

A windowed memory has a rectangle of cells and a cursor in it.  What is written goes to the
cell at the cursor, which moves to the next column, from the last column to the next row, and
from the last row back to the first.  Setting the columns moves the cursor to the first
column, setting the rows moves it to the first row.

Main results: `Memory.write_rows` (a block of whole rows, written from the first column,
fills the rectangle row by row and leaves the cursor at the first column behind it), and
`slice_rows` (a contiguous piece of a buffer is such a block).  Nothing here is about a
particular device.
-/
import Mathlib.Algebra.Order.Ring.Int
import Mathlib.Data.List.Basic
import Mathlib.Tactic.Common

namespace Windowed

variable {α : Type*}

/-! ### Blocks of rows -/

/-- `len` elements of a buffer, from `start`. -/
def slice (f : ℕ → α) (start len : ℕ) : List α := (List.range len).map fun k => f (start + k)

/-- A block of `n` rows of `w` elements. -/
def block (f : ℕ → ℕ → α) (n w : ℕ) : List α := (List.range n).flatMap fun i => (List.range w).map (f i)

@[simp] theorem length_slice (f : ℕ → α) (start len : ℕ) : (slice f start len).length = len := by
  simp [slice]

@[simp] theorem block_zero (f : ℕ → ℕ → α) (w : ℕ) : block f 0 w = [] := rfl

theorem block_succ (f : ℕ → ℕ → α) (n w : ℕ) :
    block f (n + 1) w = block f n w ++ (List.range w).map (f n) := by
  rw [block, List.range_succ, List.flatMap_append, List.flatMap_singleton]
  rfl

theorem block_congr {f g : ℕ → ℕ → α} {n w : ℕ} (h : ∀ i < n, ∀ j < w, f i j = g i j) :
    block f n w = block g n w := by
  induction n with
  | zero => rfl
  | succ n ih =>
      rw [block_succ, block_succ, ih fun i hi => h i (Nat.lt_succ_of_lt hi)]
      congr 1
      exact List.map_congr_left fun j hj => h n (Nat.lt_succ_self n) j (List.mem_range.mp hj)

/-- A contiguous piece of a buffer, cut into rows. -/
theorem slice_rows (f : ℕ → α) (start n w : ℕ) :
    slice f start (n * w) = block (fun i j => f (start + (i * w + j))) n w := by
  induction n with
  | zero => rw [Nat.zero_mul]; rfl
  | succ n ih =>
      rw [block_succ, ← ih, slice, slice, Nat.succ_mul, List.range_add, List.map_append,
        List.map_map]
      rfl

/-! ### The memory -/

structure Memory (α : Type*) where
  cell : ℕ → ℕ → α
  colStart : ℕ
  colEnd : ℕ
  rowStart : ℕ
  rowEnd : ℕ
  /-- the cursor -/
  row : ℕ
  col : ℕ

namespace Memory

variable (m : Memory α)

/-- Set the first and the last column. -/
def setCols (first last : ℕ) : Memory α := { m with colStart := first, colEnd := last, col := first }

/-- Set the first and the last row. -/
def setRows (first last : ℕ) : Memory α := { m with rowStart := first, rowEnd := last, row := first }

/-- Move the cursor to the first cell of the rectangle. -/
def rewind : Memory α := { m with row := m.rowStart, col := m.colStart }

/-- Write one element. -/
def put (v : α) : Memory α :=
  { m with
    cell := fun r c => if r = m.row ∧ c = m.col then v else m.cell r c
    col := if m.col = m.colEnd then m.colStart else m.col + 1
    row := if m.col = m.colEnd then if m.row = m.rowEnd then m.rowStart else m.row + 1 else m.row }

def write (vs : List α) : Memory α := vs.foldl put m

@[simp] theorem write_nil : m.write [] = m := rfl

theorem write_append (vs vs' : List α) : m.write (vs ++ vs') = (m.write vs).write vs' :=
  List.foldl_append ..

variable {m}

/-- A part of a row. -/
theorem write_part (g : ℕ → α) (hcol : m.col = m.colStart) {k : ℕ} (hk : m.colStart + k ≤ m.colEnd) :
    m.write ((List.range k).map g) =
      { m with
        cell := fun r c =>
          if r = m.row ∧ m.colStart ≤ c ∧ c < m.colStart + k then g (c - m.colStart)
          else m.cell r c
        col := m.colStart + k } := by
  induction k with
  | zero =>
      have hnone : (fun r c => if r = m.row ∧ m.colStart ≤ c ∧ c < m.colStart + 0 then
          g (c - m.colStart) else m.cell r c) = m.cell := by
        funext r c
        rw [if_neg (by omega)]
      rw [hnone, Nat.add_zero]
      rcases m with ⟨cell, colStart, colEnd, rowStart, rowEnd, row, col⟩
      cases hcol
      rfl
  | succ k ih =>
      rw [List.range_succ, List.map_append, write_append, ih (by omega)]
      show put _ (g k) = _
      rw [put]
      have hne : m.colStart + k ≠ m.colEnd := by omega
      simp only [if_neg hne]
      congr 1
      funext r c
      by_cases hr : r = m.row
      · by_cases hc : c = m.colStart + k
        · rw [if_pos ⟨hr, hc⟩, if_pos ⟨hr, by omega, by omega⟩, hc, Nat.add_sub_cancel_left]
        · rw [if_neg (fun h => hc h.2)]
          by_cases hin : m.colStart ≤ c ∧ c < m.colStart + k
          · rw [if_pos ⟨hr, hin⟩, if_pos ⟨hr, hin.1, by omega⟩]
          · rw [if_neg (fun h => hin h.2), if_neg (by omega)]
      · rw [if_neg (fun h => hr h.1), if_neg (fun h => hr h.1), if_neg (fun h => hr h.1)]

/-- A row. -/
theorem write_row (g : ℕ → α) (hcol : m.col = m.colStart) {w : ℕ} (hw : 0 < w)
    (hend : m.colEnd + 1 = m.colStart + w) :
    m.write ((List.range w).map g) =
      { m with
        cell := fun r c =>
          if r = m.row ∧ m.colStart ≤ c ∧ c < m.colStart + w then g (c - m.colStart)
          else m.cell r c
        col := m.colStart
        row := if m.row = m.rowEnd then m.rowStart else m.row + 1 } := by
  obtain ⟨k, rfl⟩ : ∃ k, w = k + 1 := ⟨w - 1, by omega⟩
  rw [List.range_succ, List.map_append, write_append, write_part g hcol (by omega)]
  show put _ (g k) = _
  rw [put]
  have heq : m.colStart + k = m.colEnd := by omega
  simp only [if_pos heq]
  congr 1
  funext r c
  by_cases hr : r = m.row
  · by_cases hc : c = m.colStart + k
    · rw [if_pos ⟨hr, hc⟩, if_pos ⟨hr, by omega, by omega⟩, hc, Nat.add_sub_cancel_left]
    · rw [if_neg (fun h => hc h.2)]
      by_cases hin : m.colStart ≤ c ∧ c < m.colStart + k
      · rw [if_pos ⟨hr, hin⟩, if_pos ⟨hr, hin.1, by omega⟩]
      · rw [if_neg (fun h => hin h.2), if_neg (by omega)]
  · rw [if_neg (fun h => hr h.1), if_neg (fun h => hr h.1), if_neg (fun h => hr h.1)]

/-- A block of rows that fits. -/
theorem write_rows (f : ℕ → ℕ → α) (hcol : m.col = m.colStart) {n w : ℕ} (hw : 0 < w)
    (hend : m.colEnd + 1 = m.colStart + w) (hn : m.row + n ≤ m.rowEnd + 1) :
    m.write (block f n w) =
      { m with
        cell := fun r c =>
          if m.row ≤ r ∧ r < m.row + n ∧ m.colStart ≤ c ∧ c < m.colStart + w then
            f (r - m.row) (c - m.colStart)
          else m.cell r c
        row := if 0 < n ∧ m.row + n = m.rowEnd + 1 then m.rowStart else m.row + n } := by
  induction n with
  | zero =>
      have hnone : (fun r c => if m.row ≤ r ∧ r < m.row + 0 ∧ m.colStart ≤ c ∧ c < m.colStart + w
          then f (r - m.row) (c - m.colStart) else m.cell r c) = m.cell := by
        funext r c
        rw [if_neg (by omega)]
      rw [hnone, if_neg (by omega)]
      rfl
  | succ n ih =>
      rw [block_succ, write_append, ih (by omega)]
      have hrow : ¬ (0 < n ∧ m.row + n = m.rowEnd + 1) := by omega
      simp only [if_neg hrow]
      rw [write_row (f n) (by exact hcol) hw (by exact hend)]
      congr 1
      · funext r c
        show (if r = m.row + n ∧ m.colStart ≤ c ∧ c < m.colStart + w then f n (c - m.colStart)
          else if _ then _ else _) = _
        by_cases hr : r = m.row + n
        · by_cases hc : m.colStart ≤ c ∧ c < m.colStart + w
          · rw [if_pos ⟨hr, hc⟩, if_pos ⟨by omega, by omega, hc⟩, hr, Nat.add_sub_cancel_left]
          · rw [if_neg (fun h => hc h.2), if_neg (fun h => hc h.2.2), if_neg (fun h => hc h.2.2)]
        · rw [if_neg (fun h => hr h.1)]
          by_cases hin : m.row ≤ r ∧ r < m.row + n ∧ m.colStart ≤ c ∧ c < m.colStart + w
          · rw [if_pos hin, if_pos ⟨hin.1, by omega, hin.2.2⟩]
          · rw [if_neg hin, if_neg (by omega)]
      · show (if m.row + n = m.rowEnd then m.rowStart else m.row + n + 1) = _
        by_cases hlast : m.row + n = m.rowEnd
        · rw [if_pos hlast, if_pos (by omega)]
        · rw [if_neg hlast, if_neg (by omega)]
          rfl
      · exact hcol.symm

end Memory

end Windowed
