/-
SqueezeliteMuse/SsdRows.lean

The monochrome displays that are updated by rows of bytes: `Update` of the SSD1306, of which a
row is a page of eight pixels, and `Update1` of the SSD1326.

Of each row, what lies between the first and the last byte that has changed is sent.  The
columns of the window stay as they are if they are little wider than that, and the row is
set only if it is not the next one: the window goes to the last row, and the cursor is at
its first column behind a row that was filled.

Main result: `rows_show`: an update leaves the shadow and the memory as the framebuffer is.
-/
import SqueezeliteMuse.Gds
import Mathlib.Data.Int.Notation

namespace SqueezeliteMuse

open Windowed

namespace Gds

/-! ### The update -/

/-- What is found in a row: `first` is a column and one, or zero. -/
structure ByteScan where
  shadow : Frame
  first : ℕ
  last : ℕ

/-- Look at one byte, and update the shadow; the columns are bytes as well. -/
def scanByte (frame : Frame) (base : ℕ) (s : ByteScan) (c : ℕ) : ByteScan where
  shadow := s.shadow.copy frame (base + c) 1
  first :=
    if frame (base + c) ≠ s.shadow (base + c) then
      if s.first = 0 then (c + 1) % 256 else s.first
    else s.first
  last := if frame (base + c) ≠ s.shadow (base + c) then c % 256 else s.last

def scanBytes (frame : Frame) (base width : ℕ) (shadow : Frame) : ByteScan :=
  (List.range width).foldl (scanByte frame base) ⟨shadow, 0, 0⟩

structure Rows where
  panel : Panel
  currentRow : ℤ
  firstCol : ℤ
  lastCol : ℤ

/-- Only set the columns when useful. -/
def Rows.setColumns (t : Rows) (first last : ℕ) : Rows :=
  if (t.firstCol < first ∧ first ≤ t.firstCol + 4) ∧ last < t.lastCol ∧ t.lastCol - 4 ≤ last then t
  else
    { t with
      panel := t.panel.setColumnAddress 256 1 first last
      firstCol := first
      lastCol := last }

/-- Set the row only when needed, and send the columns of the window. -/
def Rows.sendRow (t : Rows) (width rows r : ℕ) : Rows :=
  let panel := if (r : ℤ) ≠ t.currentRow then t.panel.setRowAddress 256 r (rows - 1) else t.panel
  { t with
    panel := panel.writeData (slice panel.shadow (r * width + t.firstCol.toNat)
      (t.lastCol.toNat - t.firstCol.toNat + 1))
    currentRow := r + 1 }

def rowStep (width rows : ℕ) (frame : Frame) (t : Rows) (r : ℕ) : Rows :=
  let scan := scanBytes frame (r * width) width t.panel.shadow
  let t := { t with panel := { t.panel with shadow := scan.shadow } }
  if scan.first = 0 then t
  else (t.setColumns (scan.first - 1) scan.last).sendRow width rows r

def updateRows (width rows : ℕ) (frame : Frame) (d : Panel) : Panel :=
  ((List.range rows).foldl (rowStep width rows frame) ⟨d, -1, -1, -1⟩).panel

/-- `Update` of the SSD1306. -/
def update1306 (width height : ℕ) : Frame → Panel → Panel := updateRows width (height / 8)

/-- `Update1` of the SSD1326. -/
def update1 (width height : ℕ) : Frame → Panel → Panel := updateRows (width / 8) height

/-- The layout of both. -/
def layoutRows (width rows : ℕ) : Layout where
  rows := rows
  rowBytes := width
  rowOffset := 0
  colOffset := 0
  swapped := false

/-! ### Looking for changes -/

/-- What is known when `n` bytes of a row have been looked at. -/
structure Scanned (s frame : Frame) (base n : ℕ) (scan : ByteScan) : Prop where
  shadow : scan.shadow = s.copy frame base n
  none : scan.first = 0 → ∀ c < n, s (base + c) = frame (base + c)
  bound : scan.first ≠ 0 → scan.first ≤ scan.last + 1 ∧ scan.last < n
  some : scan.first ≠ 0 → ∀ c < n, s (base + c) ≠ frame (base + c) →
    scan.first ≤ c + 1 ∧ c ≤ scan.last

theorem scanBytes_spec (s frame : Frame) (base : ℕ) {n : ℕ} (hn : n ≤ 255) :
    Scanned s frame base n (scanBytes frame base n s) := by
  induction n with
  | zero =>
      refine ⟨Frame.copy_zero.symm, fun _ c hc => ?_, fun h => absurd rfl h, fun h => absurd rfl h⟩
      exact absurd hc (Nat.not_lt_zero c)
  | succ n ih =>
      have hscan := ih (by omega)
      have hsucc : scanBytes frame base (n + 1) s = scanByte frame base (scanBytes frame base n s) n := by
        rw [scanBytes, List.range_succ, List.foldl_append]
        rfl
      rw [hsucc]
      generalize scanBytes frame base n s = scan at hscan
      obtain ⟨hshadow, hnone, hbound, hsome⟩ := hscan
      have hat : scan.shadow (base + n) = s (base + n) := by
        rw [hshadow]
        exact Frame.copy_out (by omega)
      have hsmall : (n + 1) % 256 = n + 1 ∧ n % 256 = n := by omega
      refine ⟨?_, ?_, ?_, ?_⟩
      all_goals simp only [scanByte, hat, hsmall.1, hsmall.2]
      · rw [hshadow, Frame.copy_copy]
      · intro h0 c hc
        split at h0
        · split at h0
          · omega
          · exact absurd h0 ‹_›
        · rename_i hsame
          rcases Nat.lt_succ_iff_lt_or_eq.mp hc with hc | rfl
          · exact hnone h0 c hc
          · exact (Decidable.not_not.mp hsame).symm
      · split
        · split
          · omega
          · rename_i h
            have := hbound h
            omega
        · intro h
          have := hbound h
          omega
      · split
        · split
          · rename_i h0
            intro _ c hc hdiff
            rcases Nat.lt_succ_iff_lt_or_eq.mp hc with hc | rfl
            · exact absurd (hnone h0 c hc) hdiff
            · omega
          · rename_i h
            have hb := hbound h
            intro _ c hc hdiff
            rcases Nat.lt_succ_iff_lt_or_eq.mp hc with hc | rfl
            · have := hsome h c hc hdiff
              omega
            · omega
        · rename_i hsame
          intro h c hc hdiff
          rcases Nat.lt_succ_iff_lt_or_eq.mp hc with hc | rfl
          · exact hsome h c hc hdiff
          · exact absurd (Decidable.not_not.mp hsame).symm hdiff

/-! ### The window -/

/-- The window has the columns `first` to `last`, with the cursor at the first one; if rows up to `k`
have been sent, it goes to the last row, and the cursor is at row `k`. -/
structure Rows.Window (t : Rows) (rows first last : ℕ) : Prop where
  firstCol : t.firstCol = first
  lastCol : t.lastCol = last
  le : first ≤ last
  start : t.panel.ctrl.colStart = first
  stop : t.panel.ctrl.colEnd = last
  cursor : t.panel.ctrl.col = first
  row : ∀ k : ℕ, t.currentRow = k → k < rows →
    t.panel.ctrl.row = k ∧ t.panel.ctrl.rowEnd = rows - 1

/-- Before the first row that is sent. -/
def Rows.Unset (t : Rows) : Prop := t.currentRow = -1 ∧ t.firstCol = -1 ∧ t.lastCol = -1

/-- The columns that are set hold those that have changed. -/
theorem Rows.setColumns_window {t : Rows} {rows width first last : ℕ} (hle : first ≤ last)
    (hlast : last < width) (hwidth : width ≤ 255)
    (h : t.Unset ∨ ∃ f l, t.Window rows f l ∧ l < width) :
    ∃ f l, (t.setColumns first last).Window rows f l ∧ f ≤ first ∧ last ≤ l ∧ l < width ∧
      (t.setColumns first last).currentRow = t.currentRow ∧
      (t.setColumns first last).panel.shadow = t.panel.shadow ∧
      (t.setColumns first last).panel.ctrl.cell = t.panel.ctrl.cell ∧
      (t.setColumns first last).panel.copies = t.panel.copies := by
  rw [setColumns]
  split
  · -- the columns stay: they are there, and hold the others
    rename_i hkeep
    rcases h with ⟨-, hfirst, hlast'⟩ | ⟨f, l, hw, hl⟩
    · omega
    · have hf := hw.firstCol
      have hl' := hw.lastCol
      exact ⟨f, l, hw, by omega, by omega, hl, rfl, rfl, rfl, rfl⟩
  · refine ⟨first, last, ⟨rfl, rfl, hle, ?_, ?_, ?_, fun k hk hlt => ?_⟩, Nat.le_refl _,
      Nat.le_refl _, hlast, rfl, rfl, rfl, rfl⟩
    · show first % 256 * 1 = first
      omega
    · show last % 256 * 1 + 0 = last
      omega
    · show first % 256 * 1 = first
      omega
    · rcases h with ⟨hrow, -, -⟩ | ⟨f, l, hw, -⟩
      · have hk' : t.currentRow = k := hk
        omega
      · exact hw.row k hk hlt

/-- A row is sent: its columns show the shadow, and the cursor is at the next one. -/
theorem Rows.sendRow_window {t : Rows} {rows r f l : ℕ} (width : ℕ) (hr : r < rows)
    (hrows : rows ≤ 256) (h : t.Window rows f l) :
    (t.sendRow width rows r).Window rows f l ∧
      (t.sendRow width rows r).panel.shadow = t.panel.shadow ∧
      (t.sendRow width rows r).panel.copies = t.panel.copies ∧
      (t.sendRow width rows r).panel.ctrl.cell = fun q c =>
        if q = r ∧ f ≤ c ∧ c ≤ l then t.panel.shadow (r * width + c) else t.panel.ctrl.cell q c := by
  -- the cursor is at the row in either case
  have hset : ∃ p : Panel, (if (r : ℤ) ≠ t.currentRow then
        t.panel.setRowAddress 256 r (rows - 1) else t.panel) = p ∧
      p.shadow = t.panel.shadow ∧ p.copies = t.panel.copies ∧ p.ctrl.cell = t.panel.ctrl.cell ∧
      p.ctrl.colStart = f ∧ p.ctrl.colEnd = l ∧ p.ctrl.col = f ∧ p.ctrl.row = r ∧
      p.ctrl.rowEnd = rows - 1 := by
    refine ⟨_, rfl, ?_⟩
    split
    · refine ⟨rfl, rfl, rfl, h.start, h.stop, h.cursor, ?_, ?_⟩
      · show r % 256 = r
        omega
      · show (rows - 1) % 256 = rows - 1
        omega
    · rename_i hsame
      obtain ⟨hrow, hend⟩ := h.row r (Decidable.not_not.mp hsame).symm hr
      exact ⟨rfl, rfl, rfl, h.start, h.stop, h.cursor, hrow, hend⟩
  obtain ⟨p, hp, hshadow, hcopies, hcell, hstart, hstop, hcursor, hrow, hend⟩ := hset
  have hle := h.le
  have hwrite : p.ctrl.write (slice p.shadow (r * width + f) (l - f + 1)) = _ :=
    Memory.write_row (m := p.ctrl) (fun k => p.shadow (r * width + f + k)) (hcursor.trans hstart.symm)
      (Nat.succ_pos (l - f)) (by omega)
  have hsend : t.sendRow width rows r =
      { t with
        panel := p.writeData (slice p.shadow (r * width + f) (l - f + 1))
        currentRow := r + 1 } := by
    rw [sendRow, hp, h.firstCol, h.lastCol]
    rfl
  rw [hsend]
  refine ⟨⟨h.firstCol, h.lastCol, hle, ?_, ?_, ?_, fun k hk hlt => ?_⟩, hshadow, hcopies, ?_⟩
  · show (p.ctrl.write _).colStart = f
    rw [hwrite]
    exact hstart
  · show (p.ctrl.write _).colEnd = l
    rw [hwrite]
    exact hstop
  · show (p.ctrl.write _).col = f
    rw [hwrite]
    exact hstart
  · have hk' : (r : ℤ) + 1 = k := hk
    show (p.ctrl.write _).row = k ∧ (p.ctrl.write _).rowEnd = rows - 1
    rw [hwrite]
    refine ⟨?_, hend⟩
    show (if p.ctrl.row = p.ctrl.rowEnd then p.ctrl.rowStart else p.ctrl.row + 1) = k
    rw [hrow, hend, if_neg (by omega)]
    omega
  · show (p.ctrl.write _).cell = _
    rw [hwrite]
    funext q c
    show (if q = p.ctrl.row ∧ p.ctrl.colStart ≤ c ∧ c < p.ctrl.colStart + (l - f + 1) then
      p.shadow (r * width + f + (c - p.ctrl.colStart)) else p.ctrl.cell q c) = _
    rw [hrow, hstart, hshadow, hcell]
    by_cases hin : q = r ∧ f ≤ c ∧ c ≤ l
    · rw [if_pos hin, if_pos ⟨hin.1, hin.2.1, by omega⟩, Nat.add_assoc,
        Nat.add_sub_cancel' hin.2.1]
    · rw [if_neg hin, if_neg (by omega)]

/-! ### The rows -/

section Rows

variable {width rows : ℕ} {frame s₀ : Frame} {m₀ : Memory UInt8} {copies₀ : List ℕ}

/-- The first `r` rows show the framebuffer, the others are as they were. -/
structure RowsDone (width rows : ℕ) (frame s₀ : Frame) (m₀ : Memory UInt8) (copies₀ : List ℕ)
    (r : ℕ) (t : Rows) : Prop where
  shadow : t.panel.shadow = s₀.copy frame 0 (r * width)
  copies : t.panel.copies = copies₀
  shows : ∀ q < r, (layoutRows width rows).Shows t.panel.ctrl frame q
  rest : ∀ q, r ≤ q → ∀ c, t.panel.ctrl.cell q c = m₀.cell q c
  window : t.Unset ∨ ∃ f l, t.Window rows f l ∧ l < width

theorem shows_rows {m : Memory UInt8} {f : Frame} {r : ℕ} :
    (layoutRows width rows).Shows m f r ↔ ∀ b < width, m.cell r b = f (r * width + b) := by
  simp [Layout.Shows, Layout.addr, Layout.byte, layoutRows]

theorem current_rows {m : Memory UInt8} {s f : Frame} {r : ℕ} :
    (layoutRows width rows).Current m s f r ↔
      ∀ b < width, s (r * width + b) = f (r * width + b) → m.cell r b = f (r * width + b) := by
  simp [Layout.Current, Layout.addr, Layout.byte, layoutRows]

theorem RowsDone.step (hwidth : width ≤ 255) (hrows : rows ≤ 256)
    (hcur : ∀ q < rows, (layoutRows width rows).Current m₀ s₀ frame q) {r : ℕ} (hr : r < rows)
    {t : Rows} (h : RowsDone width rows frame s₀ m₀ copies₀ r t) :
    RowsDone width rows frame s₀ m₀ copies₀ (r + 1) (rowStep width rows frame t r) := by
  obtain ⟨hshadow, hcopies, hshows, hrest, hwindow⟩ := h
  have hscan := scanBytes_spec t.panel.shadow frame (r * width) hwidth
  have hcurrent := current_rows.mp (hcur r hr)
  have hold : ∀ c < width, t.panel.shadow (r * width + c) = s₀ (r * width + c) := by
    intro c _
    rw [hshadow]
    exact Frame.copy_out (by omega)
  have hnew : (scanBytes frame (r * width) width t.panel.shadow).shadow =
      s₀.copy frame 0 ((r + 1) * width) := by
    rw [hscan.shadow, hshadow, Frame.copy_row]
  rw [rowStep]
  dsimp only
  generalize scanBytes frame (r * width) width t.panel.shadow = scan at hscan hnew
  have hwindow' : Rows.Unset { t with panel := { t.panel with shadow := scan.shadow } } ∨
      ∃ f l, Rows.Window { t with panel := { t.panel with shadow := scan.shadow } } rows f l ∧
        l < width := by
    rcases hwindow with hunset | ⟨f, l, hw, hl⟩
    · exact .inl hunset
    · exact .inr ⟨f, l, ⟨hw.firstCol, hw.lastCol, hw.le, hw.start, hw.stop, hw.cursor, hw.row⟩, hl⟩
  by_cases h0 : scan.first = 0
  · -- the row has not changed, and shows the framebuffer already
    rw [if_pos h0]
    refine ⟨hnew, hcopies, fun q hq => ?_, fun q hq c => hrest q (by omega) c, hwindow'⟩
    rcases Nat.lt_succ_iff_lt_or_eq.mp hq with hq | rfl
    · exact hshows q hq
    · refine shows_rows.mpr fun b hb => ?_
      refine (hrest q (Nat.le_refl q) b).trans (hcurrent b hb ?_)
      rw [← hold b hb]
      exact hscan.none h0 b hb
  · rw [if_neg h0]
    obtain ⟨hle, hlast⟩ := hscan.bound h0
    obtain ⟨f, l, hset, hf, hl, hlw, -, hsetShadow, hsetCell, hsetCopies⟩ :=
      Rows.setColumns_window (show scan.first - 1 ≤ scan.last by omega) hlast hwidth hwindow'
    obtain ⟨hsent, hsentShadow, hsentCopies, hsentCell⟩ :=
      Rows.sendRow_window width hr hrows hset
    rw [hsetShadow, hsetCell] at hsentCell
    refine ⟨(hsentShadow.trans hsetShadow).trans hnew, (hsentCopies.trans hsetCopies).trans hcopies,
      fun q hq => shows_rows.mpr fun b hb => ?_, fun q hq c => ?_, .inr ⟨f, l, hsent, hlw⟩⟩
    · rw [hsentCell]
      show (if q = r ∧ f ≤ b ∧ b ≤ l then scan.shadow (r * width + b) else t.panel.ctrl.cell q b) = _
      by_cases hin : q = r ∧ f ≤ b ∧ b ≤ l
      · rw [if_pos hin, hin.1, hnew]
        exact Frame.copy_rows (Nat.lt_succ_self r) hb
      · rw [if_neg hin]
        rcases Nat.lt_succ_iff_lt_or_eq.mp hq with hq | rfl
        · exact shows_rows.mp (hshows q hq) b hb
        · -- what is not in the window has not changed
          refine (hrest q (Nat.le_refl q) b).trans (hcurrent b hb ?_)
          rw [← hold b hb]
          by_contra hdiff
          have hfound := hscan.some h0 b hb hdiff
          exact hin ⟨rfl, by omega, by omega⟩
    · rw [hsentCell]
      show (if q = r ∧ f ≤ c ∧ c ≤ l then _ else t.panel.ctrl.cell q c) = _
      rw [if_neg (by omega)]
      exact hrest q (by omega) c

/-- All rows. -/
theorem rowsDone_rows (hwidth : width ≤ 255) (hrows : rows ≤ 256) {d : Panel}
    (hcur : ∀ q < rows, (layoutRows width rows).Current d.ctrl d.shadow frame q) {n : ℕ}
    (hn : n ≤ rows) : RowsDone width rows frame d.shadow d.ctrl d.copies n
      ((List.range n).foldl (rowStep width rows frame) ⟨d, -1, -1, -1⟩) := by
  induction n with
  | zero =>
      refine ⟨?_, rfl, fun q hq => absurd hq (Nat.not_lt_zero q), fun _ _ _ => rfl,
        .inl ⟨rfl, rfl, rfl⟩⟩
      rw [Nat.zero_mul, Frame.copy_zero]
      rfl
  | succ n ih =>
      rw [List.range_succ, List.foldl_append]
      exact (ih (by omega)).step hwidth hrows hcur (by omega)

/-- An update by rows leaves the memory and the shadow as the framebuffer is. -/
theorem rows_show (hwidth : width ≤ 255) (hrows : rows ≤ 256) {d : Panel}
    (hcur : ∀ q < rows, (layoutRows width rows).Current d.ctrl d.shadow frame q) :
    Updated (layoutRows width rows) frame (updateRows width rows frame d) ∧
      (updateRows width rows frame d).copies = d.copies := by
  obtain ⟨hshadow, hcopies, hshows, -, -⟩ := rowsDone_rows hwidth hrows hcur (Nat.le_refl rows)
  refine ⟨⟨fun q hq b hb => ?_, hshows⟩, hcopies⟩
  rw [updateRows, hshadow]
  exact Frame.copy_rows hq hb

end Rows

end Gds

end SqueezeliteMuse
