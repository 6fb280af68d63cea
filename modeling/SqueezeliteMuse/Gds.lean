/-
SqueezeliteMuse/Gds.lean

The displays: a framebuffer, the shadow of what was sent, and the controller.

A driver compares the framebuffer with its shadow and sends what has changed.  The controller
is a memory that is written through a window: its commands set the first and last column and
row, each of which moves the cursor along its own axis, and what is sent then fills the
window row by row.  A column is one or more bytes, and the memory is taken by bytes.

`Layout` says where the display lies in the memory, and which byte of the framebuffer each
byte of it shows.  `Current` is what an update relies on: where the shadow is what the
framebuffer is, the memory shows it.
-/
import SqueezeliteMuse.Lib.Windowed

namespace SqueezeliteMuse

open Windowed

namespace Gds

/-- A buffer, by address. -/
abbrev Frame := ℕ → UInt8

/-- `memcpy` of `n` bytes at `a`, from the same place. -/
def Frame.copy (f g : Frame) (a n : ℕ) : Frame := fun i => if a ≤ i ∧ i < a + n then g i else f i

/-- The words of `n` bytes at `a` differ. -/
def Frame.differs (f g : Frame) (a n : ℕ) : Bool := slice f a n != slice g a n

namespace Frame

variable {f g : Frame} {a n : ℕ}

theorem differs_eq_false_iff : f.differs g a n = false ↔ ∀ k < n, f (a + k) = g (a + k) := by
  rw [differs, bne_eq_false_iff_eq, slice, slice, List.map_inj_left]
  exact ⟨fun h k hk => h k (List.mem_range.mpr hk), fun h k hk => h k (List.mem_range.mp hk)⟩

theorem differs_congr {f' : Frame} (h : ∀ k < n, f (a + k) = f' (a + k)) :
    f.differs g a n = f'.differs g a n := by
  rw [differs, differs, show slice f a n = slice f' a n from
    List.map_congr_left fun k hk => h k (List.mem_range.mp hk)]

theorem copy_in {i : ℕ} (h : a ≤ i ∧ i < a + n) : f.copy g a n i = g i := if_pos h

theorem copy_out {i : ℕ} (h : ¬ (a ≤ i ∧ i < a + n)) : f.copy g a n i = f i := if_neg h

@[simp] theorem copy_zero : f.copy g a 0 = f := by
  funext i
  exact copy_out (by omega)

theorem copy_copy (k : ℕ) : (f.copy g a n).copy g (a + n) k = f.copy g a (n + k) := by
  funext i
  by_cases h₂ : a + n ≤ i ∧ i < a + n + k
  · rw [copy_in h₂, copy_in (by omega)]
  · rw [copy_out h₂]
    by_cases h₁ : a ≤ i ∧ i < a + n
    · rw [copy_in h₁, copy_in (by omega)]
    · rw [copy_out h₁, copy_out (by omega)]

/-- One row of `w` bytes after another. -/
theorem copy_row (n w : ℕ) :
    (f.copy g 0 (n * w)).copy g (n * w) w = f.copy g 0 ((n + 1) * w) := by
  have hcopy := copy_copy (f := f) (g := g) (a := 0) (n := n * w) w
  rw [Nat.zero_add] at hcopy
  rw [hcopy, Nat.succ_mul]

theorem copy_rows {w q b : ℕ} (hq : q < n) (hb : b < w) :
    f.copy g 0 (n * w) (q * w + b) = g (q * w + b) := by
  refine copy_in ⟨Nat.zero_le _, ?_⟩
  calc q * w + b < (q + 1) * w := by
        rw [Nat.succ_mul]
        omega
    _ ≤ n * w := Nat.mul_le_mul_right w hq
    _ = 0 + n * w := (Nat.zero_add _).symm

/-- Copying where nothing differs changes nothing. -/
theorem copy_of_differs_false (h : f.differs g a n = false) : f.copy g a n = f := by
  funext i
  by_cases hi : a ≤ i ∧ i < a + n
  · rw [copy_in hi]
    have hk := differs_eq_false_iff.mp h (i - a) (by omega)
    rw [Nat.add_sub_cancel' hi.1] at hk
    exact hk.symm
  · exact copy_out hi

/-- Words that lie next to each other. -/
theorem differs_add_eq_false_iff (k : ℕ) : f.differs g a (n + k) = false ↔
    f.differs g a n = false ∧ f.differs g (a + n) k = false := by
  simp only [differs_eq_false_iff]
  constructor
  · intro h
    refine ⟨fun i hi => h i (by omega), fun i hi => ?_⟩
    rw [Nat.add_assoc]
    exact h (n + i) (by omega)
  · rintro ⟨h₁, h₂⟩ i hi
    by_cases hlt : i < n
    · exact h₁ i hlt
    · have h := h₂ (i - n) (by omega)
      rwa [Nat.add_assoc, Nat.add_sub_cancel' (Nat.not_lt.mp hlt)] at h

/-- A copy further down does not matter. -/
theorem differs_copy (m : ℕ) : (f.copy g a n).differs g (a + n) m = f.differs g (a + n) m :=
  differs_congr fun k _ => copy_out (by omega)

end Frame

/-! ### The controller -/

/-- What an update works on. -/
structure Panel where
  /-- `Private->Shadowbuffer` -/
  shadow : Frame
  /-- the memory of the controller -/
  ctrl : Memory UInt8
  /-- where the copies into `Private->iRAM` have ended -/
  copies : List ℕ

namespace Panel

/-- `SetColumnAddress`, of columns of `unit` bytes; the arguments are taken modulo `size`. -/
def setColumnAddress (d : Panel) (size unit first last : ℕ) : Panel :=
  { d with ctrl := d.ctrl.setCols (first % size * unit) (last % size * unit + (unit - 1)) }

/-- `SetRowAddress`, or `SetPageAddress`. -/
def setRowAddress (d : Panel) (size first last : ℕ) : Panel :=
  { d with ctrl := d.ctrl.setRows (first % size) (last % size) }

/-- `Device->WriteData`, of bytes for the memory. -/
def writeData (d : Panel) (bytes : List UInt8) : Panel := { d with ctrl := d.ctrl.write bytes }

/-- A copy into `Private->iRAM` that ends at `stop`. -/
def bounce (d : Panel) (stop : ℕ) : Panel := { d with copies := d.copies ++ [stop] }

end Panel

/-! ### What the memory shows -/

/-- Where a display lies in the memory of its controller. -/
structure Layout where
  rows : ℕ
  rowBytes : ℕ
  rowOffset : ℕ
  colOffset : ℕ
  /-- the bytes of a word are sent the other way round -/
  swapped : Bool

namespace Layout

variable (l : Layout)

/-- The byte of a row of the framebuffer that is shown at byte `b`. -/
def byte (b : ℕ) : ℕ := if l.swapped then (if b % 2 = 0 then b + 1 else b - 1) else b

/-- Its address. -/
def addr (r b : ℕ) : ℕ := r * l.rowBytes + l.byte b

/-- Row `r` of the display is what the framebuffer is. -/
def Shows (m : Memory UInt8) (f : Frame) (r : ℕ) : Prop :=
  ∀ b < l.rowBytes, m.cell (l.rowOffset + r) (l.colOffset + b) = f (l.addr r b)

/-- Row `r` of the display is what the framebuffer is, where the shadow is. -/
def Current (m : Memory UInt8) (s f : Frame) (r : ℕ) : Prop :=
  ∀ b < l.rowBytes, s (l.addr r b) = f (l.addr r b) →
    m.cell (l.rowOffset + r) (l.colOffset + b) = f (l.addr r b)

variable {l}

theorem byte_lt (hl : l.swapped = true → l.rowBytes % 2 = 0) {b : ℕ} (hb : b < l.rowBytes) :
    l.byte b < l.rowBytes := by
  rw [byte]
  split
  · rename_i h
    have heven := hl h
    split <;> omega
  · exact hb

/-- What shows the shadow is current, whatever the framebuffer is. -/
theorem Shows.current {m : Memory UInt8} {s : Frame} {r : ℕ} (h : l.Shows m s r) (f : Frame) :
    l.Current m s f r := fun b hb hs => (h b hb).trans hs

theorem Current.shows {m : Memory UInt8} {s f : Frame} {r : ℕ} (h : l.Current m s f r)
    (hs : ∀ b < l.rowBytes, s (l.addr r b) = f (l.addr r b)) : l.Shows m f r :=
  fun b hb => h b hb (hs b hb)

end Layout

/-- An update has done its work: the shadow is the framebuffer, and the memory shows it. -/
structure Updated (l : Layout) (frame : Frame) (d : Panel) : Prop where
  shadow : ∀ q < l.rows, ∀ b < l.rowBytes, d.shadow (l.addr q b) = frame (l.addr q b)
  shows : ∀ q < l.rows, l.Shows d.ctrl frame q

end Gds

end SqueezeliteMuse
