/-
SqueezeliteMuse/SsdPages.lean

The grayscale displays that are updated by pages of rows: `Update4` of the SSD1326 and SSD1327,
and `Update` of the SSD1322.

The columns are set once, to the whole width.  A page of `PageSize` rows is sent if a word of
it has changed.  `PageSize` divides the height, so that the last page is whole; the buffer
that the SPI driver reads from is of one page.

Main result: `pages_show`: an update leaves the shadow and the memory as the framebuffer is.
-/
import SqueezeliteMuse.Gds
import Mathlib.Tactic.Ring

namespace SqueezeliteMuse

open Windowed

namespace Gds

/-! ### The update -/

/-- `PAGE_BLOCK` -/
def SSD_PAGE_BLOCK : ℕ := 1024

/-- The loop that looks for a page size that divides the height. -/
def fitPageSize (height : ℕ) : ℕ → ℕ
  | 0 => 0
  | n + 1 => if height ≠ height / (n + 1) * (n + 1) then fitPageSize height n else n + 1

/-- `PageSize`, as `Init` sets it. -/
def ssdPageSize (width height : ℕ) : ℕ := fitPageSize height (min 8 (SSD_PAGE_BLOCK / (width / 2)))

/-- Look at one word of two bytes, and update the shadow. -/
def scanWord (frame : Frame) (base : ℕ) (s : Frame × Bool) (c : ℕ) : Frame × Bool :=
  if s.1.differs frame (base + 2 * c) 2 then (s.1.copy frame (base + 2 * c) 2, true) else s

/-- Look for a change in a row. -/
def scanWords (frame : Frame) (base words : ℕ) (s : Frame × Bool) : Frame × Bool :=
  (List.range words).foldl (scanWord frame base) s

structure Pages where
  panel : Panel
  dirty : Bool
  page : ℕ

/-- One row; a page that has changed is sent at its last row. -/
def pageStep (width pageSize : ℕ) (send : ℕ → ℕ → ℕ → Panel → Panel) (frame : Frame) (t : Pages)
    (r : ℕ) : Pages :=
  let scan := scanWords frame (r * (2 * (width / 2 / 2))) (width / 2 / 2) (t.panel.shadow, t.dirty)
  let panel := { t.panel with shadow := scan.1 }
  if t.page + 1 = pageSize then
    if scan.2 then { panel := send (r + 1 - pageSize) r pageSize panel, dirty := false, page := 0 }
    else { panel := panel, dirty := scan.2, page := 0 }
  else { panel := panel, dirty := scan.2, page := t.page + 1 }

def updatePages (width height pageSize : ℕ) (send : ℕ → ℕ → ℕ → Panel → Panel) (frame : Frame)
    (d : Panel) : Panel :=
  ((List.range height).foldl (pageStep width pageSize send frame) ⟨d, false, 0⟩).panel

/-- What `Update4` does with a page. -/
def send4 (width : ℕ) (iram : Bool) (first last page : ℕ) (d : Panel) : Panel :=
  let d := d.setRowAddress 256 first last
  if iram then
    (d.bounce (page * width / 2)).writeData (slice d.shadow (first * width / 2) (width * page / 2))
  else d.writeData (slice d.shadow (first * width / 2) (page * width / 2))

/-- `Update4`; `iRAM` is there if the bus is SPI. -/
def update4 (width height : ℕ) (iram : Bool) (frame : Frame) (d : Panel) : Panel :=
  updatePages width height (ssdPageSize width height) (send4 width iram) frame
    (d.setColumnAddress 256 1 0 (width / 2 - 1))

/-- What `Update` of the SSD1322 does with a page: the two bytes of a word change places on the way
to `iRAM`. -/
def send1322 (width : ℕ) (first last page : ℕ) (d : Panel) : Panel :=
  let d := d.setRowAddress 256 first last
  let iRAM := (List.range (page * width / 2 / 2)).flatMap fun i =>
    [d.shadow (first * width / 2 + (2 * i + 1)), d.shadow (first * width / 2 + 2 * i)]
  (d.bounce (2 * (page * width / 2 / 2))).writeData (iRAM.take (width * page / 2))

/-- `Private->Offset` of the SSD1322, a byte. -/
def offset1322 (width : ℕ) : ℕ := (480 - width) / 4 / 2 % 256

/-- `Update` of the SSD1322, of columns of two bytes. -/
def update1322 (width height : ℕ) (frame : Frame) (d : Panel) : Panel :=
  updatePages width height (ssdPageSize width height) (send1322 width) frame
    (d.setColumnAddress 256 2 (offset1322 width) (offset1322 width + width / 4 - 1))

/-! ### Page sizes -/

theorem fitPageSize_dvd (height : ℕ) {n : ℕ} (hn : 0 < n) :
    0 < fitPageSize height n ∧ fitPageSize height n ∣ height := by
  induction n with
  | zero => exact absurd hn (Nat.lt_irrefl 0)
  | succ n ih =>
      rw [fitPageSize]
      split
      · rename_i hne
        refine ih (Nat.pos_of_ne_zero fun h => hne ?_)
        rw [h, Nat.zero_add, Nat.div_one, Nat.mul_one]
      · rename_i heq
        refine ⟨Nat.succ_pos n, height / (n + 1), ?_⟩
        rw [Nat.mul_comm]
        exact Decidable.not_not.mp heq

/-- A page is there, and the height is made of whole pages. -/
theorem ssdPageSize_dvd {width height : ℕ} (hw : 0 < width / 2) (hle : width / 2 ≤ 1024) :
    0 < ssdPageSize width height ∧ ssdPageSize width height ∣ height := by
  refine fitPageSize_dvd height (Nat.lt_min.mpr ⟨by decide, ?_⟩)
  exact Nat.div_pos hle hw

/-! ### Looking for changes -/

theorem scanWords_spec (frame : Frame) (base words : ℕ) (s : Frame × Bool) :
    (scanWords frame base words s).1 = s.1.copy frame base (2 * words) ∧
      ((scanWords frame base words s).2 = false ↔
        s.2 = false ∧ s.1.differs frame base (2 * words) = false) := by
  induction words with
  | zero =>
      rw [Nat.mul_zero, Frame.copy_zero]
      refine ⟨rfl, fun h => ⟨h, ?_⟩, fun h => h.1⟩
      exact Frame.differs_eq_false_iff.mpr fun k hk => absurd hk (Nat.not_lt_zero k)
  | succ words ih =>
      obtain ⟨hshadow, hdirty⟩ := ih
      have hsucc : scanWords frame base (words + 1) s =
          scanWord frame base (scanWords frame base words s) words := by
        rw [scanWords, List.range_succ, List.foldl_append]
        rfl
      have hword : (scanWords frame base words s).1.differs frame (base + 2 * words) 2 =
          s.1.differs frame (base + 2 * words) 2 := by
        rw [hshadow, Frame.differs_copy]
      rw [hsucc, scanWord, Nat.mul_succ, Frame.differs_add_eq_false_iff, ← Frame.copy_copy,
        ← hshadow, ← hword]
      split
      · rename_i hdiff
        exact ⟨rfl, fun h => (nomatch h), fun h => (nomatch hdiff.symm.trans h.2.2)⟩
      · rename_i hsame
        have hsame' := (Bool.not_eq_true _).mp hsame
        refine ⟨(Frame.copy_of_differs_false hsame').symm, ?_⟩
        rw [hdirty, hsame']
        exact ⟨fun h => ⟨h.1, h.2, rfl⟩, fun h => ⟨h.1, h.2.1⟩⟩

/-! ### Sending a page -/

/-- The window is as wide as the display, and the cursor is at its first column. -/
structure Layout.Ready (l : Layout) (m : Memory UInt8) : Prop where
  first : m.colStart = l.colOffset
  last : m.colEnd + 1 = l.colOffset + l.rowBytes
  cursor : m.col = m.colStart

/-- What sending a page does: its rows show the shadow, and the rest of the memory stays. -/
structure Layout.Sends (l : Layout) (send : ℕ → ℕ → ℕ → Panel → Panel) : Prop where
  shadow : ∀ first last page d, (send first last page d).shadow = d.shadow
  ready : ∀ first last page d, 0 < page → first + page = last + 1 → last < l.rows → l.Ready d.ctrl →
    l.Ready (send first last page d).ctrl
  shows : ∀ first last page d, 0 < page → first + page = last + 1 → last < l.rows → l.Ready d.ctrl →
    ∀ r, first ≤ r → r ≤ last → l.Shows (send first last page d).ctrl d.shadow r
  rest : ∀ first last page d, 0 < page → first + page = last + 1 → last < l.rows → l.Ready d.ctrl →
    ∀ r, ¬ (first ≤ r ∧ r ≤ last) → ∀ b,
      (send first last page d).ctrl.cell (l.rowOffset + r) b = d.ctrl.cell (l.rowOffset + r) b

/-! ### The pages -/

section Pages

variable {l : Layout} {width pageSize : ℕ} {send : ℕ → ℕ → ℕ → Panel → Panel} {frame s₀ : Frame}
variable {m₀ : Memory UInt8}

/-- The first `r` rows have been looked at, from the shadow `s₀` and the memory `m₀` on: the rows of
the pages behind show the framebuffer, the others are as they were, and the page that is gone through
is dirty if something has changed in it. -/
structure PagesDone (l : Layout) (pageSize : ℕ) (frame s₀ : Frame) (m₀ : Memory UInt8) (r : ℕ)
    (t : Pages) : Prop where
  page_lt : t.page < pageSize
  page_le : t.page ≤ r
  whole : pageSize ∣ r - t.page
  shadow : t.panel.shadow = s₀.copy frame 0 (r * l.rowBytes)
  ready : l.Ready t.panel.ctrl
  shows : ∀ q < r - t.page, l.Shows t.panel.ctrl frame q
  rest : ∀ q, r - t.page ≤ q → ∀ b,
    t.panel.ctrl.cell (l.rowOffset + q) b = m₀.cell (l.rowOffset + q) b
  clean : t.dirty = false →
    s₀.differs frame ((r - t.page) * l.rowBytes) (t.page * l.rowBytes) = false

/-- The shadow of the rows that have been looked at is the framebuffer. -/
theorem copy_addr (hl : l.swapped = true → l.rowBytes % 2 = 0) {r q b : ℕ} (hq : q < r)
    (hb : b < l.rowBytes) : s₀.copy frame 0 (r * l.rowBytes) (l.addr q b) = frame (l.addr q b) :=
  Frame.copy_rows hq (Layout.byte_lt hl hb)

/-- Rows of which no word differs. -/
theorem eq_of_differs_false (hl : l.swapped = true → l.rowBytes % 2 = 0) {first n q b : ℕ}
    (h : s₀.differs frame (first * l.rowBytes) (n * l.rowBytes) = false) (hfirst : first ≤ q)
    (hq : q < first + n) (hb : b < l.rowBytes) : s₀ (l.addr q b) = frame (l.addr q b) := by
  have hbyte := Layout.byte_lt hl hb
  obtain ⟨i, rfl⟩ := Nat.exists_eq_add_of_le hfirst
  have hmul : (i + 1) * l.rowBytes ≤ n * l.rowBytes := Nat.mul_le_mul_right _ (by omega)
  rw [Nat.succ_mul] at hmul
  have hk := Frame.differs_eq_false_iff.mp h (i * l.rowBytes + l.byte b) (by omega)
  rwa [← Nat.add_assoc, ← Nat.add_mul] at hk

theorem PagesDone.step (hl : l.swapped = true → l.rowBytes % 2 = 0)
    (hw : l.rowBytes = 2 * (width / 2 / 2)) (hsend : l.Sends send)
    (hcur : ∀ q < l.rows, l.Current m₀ s₀ frame q) {r : ℕ} (hr : r < l.rows) {t : Pages}
    (h : PagesDone l pageSize frame s₀ m₀ r t) :
    PagesDone l pageSize frame s₀ m₀ (r + 1) (pageStep width pageSize send frame t r) := by
  have hlt := h.page_lt
  have hle := h.page_le
  obtain ⟨hscan, hdirty⟩ :=
    scanWords_spec frame (r * l.rowBytes) (width / 2 / 2) (t.panel.shadow, t.dirty)
  rw [← hw] at hscan hdirty
  rw [pageStep, ← hw]
  generalize scanWords frame (r * l.rowBytes) (width / 2 / 2) (t.panel.shadow, t.dirty) = scan
    at hscan hdirty ⊢
  have hshadow : scan.1 = s₀.copy frame 0 ((r + 1) * l.rowBytes) := by
    rw [hscan, h.shadow, Nat.succ_mul, ← Frame.copy_copy, Nat.zero_add]
  -- what is clean so far: the rows of the page up to this one
  have hclean : scan.2 = false →
      s₀.differs frame ((r - t.page) * l.rowBytes) ((t.page + 1) * l.rowBytes) = false := by
    intro hno
    obtain ⟨hbefore, hrow⟩ := hdirty.mp hno
    have hbase : (r - t.page) * l.rowBytes + t.page * l.rowBytes = 0 + r * l.rowBytes := by
      rw [← Nat.add_mul, Nat.sub_add_cancel hle, Nat.zero_add]
    rw [Nat.succ_mul, Frame.differs_add_eq_false_iff, hbase]
    refine ⟨h.clean hbefore, ?_⟩
    change t.panel.shadow.differs frame (r * l.rowBytes) l.rowBytes = false at hrow
    have hcopy := Frame.differs_copy (f := s₀) (g := frame) (a := 0) (n := r * l.rowBytes) l.rowBytes
    rw [Nat.zero_add] at hcopy
    rw [h.shadow, hcopy] at hrow
    rw [Nat.zero_add]
    exact hrow
  dsimp only
  by_cases hpage : t.page + 1 = pageSize
  · have hfirst : r + 1 - pageSize = r - t.page := by omega
    have hwhole : pageSize ∣ r + 1 - 0 := by
      obtain ⟨k, hk⟩ := h.whole
      exact ⟨k + 1, by rw [Nat.mul_succ]; omega⟩
    have hnone : s₀.differs frame ((r + 1 - 0) * l.rowBytes) (0 * l.rowBytes) = false := by
      rw [Nat.zero_mul]
      exact Frame.differs_eq_false_iff.mpr fun k hk => absurd hk (Nat.not_lt_zero k)
    rw [if_pos hpage]
    rcases hd : scan.2 with - | -
    · -- a page that has not changed shows the framebuffer already
      refine ⟨by show 0 < pageSize; omega, Nat.zero_le _, hwhole, hshadow, h.ready,
        fun q hq => ?_, fun q hq => h.rest q (by have : r + 1 ≤ q := hq; omega), fun _ => hnone⟩
      have hq' : q < r + 1 := hq
      by_cases hold : q < r - t.page
      · exact h.shows q hold
      · intro b hb
        show t.panel.ctrl.cell (l.rowOffset + q) (l.colOffset + b) = _
        rw [h.rest q (Nat.not_lt.mp hold)]
        refine hcur q (by omega) b hb ?_
        exact eq_of_differs_false hl (hclean hd) (Nat.not_lt.mp hold) (by omega) hb
    · have hargs : r + 1 - pageSize + pageSize = r + 1 := by omega
      have hpos : 0 < pageSize := by omega
      have hready : l.Ready { t.panel with shadow := scan.1 }.ctrl := h.ready
      have hshows := hsend.shows _ _ _ { t.panel with shadow := scan.1 } hpos hargs hr hready
      have hrest := hsend.rest _ _ _ { t.panel with shadow := scan.1 } hpos hargs hr hready
      refine ⟨hpos, Nat.zero_le _, hwhole, (hsend.shadow ..).trans hshadow,
        hsend.ready _ _ _ _ hpos hargs hr hready, fun q hq => ?_, fun q hq b => ?_, fun _ => hnone⟩
      · by_cases hold : q < r - t.page
        · intro b hb
          exact (hrest q (by omega) _).trans (h.shows q hold b hb)
        · intro b hb
          have hq' : q < r + 1 := hq
          refine (hshows q (by omega) (by omega) b hb).trans ?_
          show scan.1 _ = _
          rw [hshadow]
          exact copy_addr hl hq' hb
      · exact (hrest q (by have : r + 1 ≤ q := hq; omega) b).trans (h.rest q (by have : r + 1 ≤ q := hq; omega) b)
  · rw [if_neg hpage]
    have hsame : r + 1 - (t.page + 1) = r - t.page := by omega
    refine ⟨by show t.page + 1 < pageSize; omega, Nat.succ_le_succ hle, ?_, hshadow, h.ready,
      fun q hq => h.shows q (by rw [← hsame]; exact hq),
      fun q hq => h.rest q (by rw [← hsame]; exact hq), fun hno => ?_⟩
    · rw [hsame]
      exact h.whole
    · rw [hsame]
      exact hclean hno

/-- All rows. -/
theorem pagesDone_rows (hl : l.swapped = true → l.rowBytes % 2 = 0)
    (hw : l.rowBytes = 2 * (width / 2 / 2)) (hsend : l.Sends send) (hsize : 0 < pageSize) {d : Panel}
    (hready : l.Ready d.ctrl) (hcur : ∀ q < l.rows, l.Current d.ctrl d.shadow frame q) {n : ℕ}
    (hn : n ≤ l.rows) : PagesDone l pageSize frame d.shadow d.ctrl n
      ((List.range n).foldl (pageStep width pageSize send frame) ⟨d, false, 0⟩) := by
  induction n with
  | zero =>
      refine ⟨hsize, Nat.le_refl 0, Nat.dvd_zero _, ?_, hready, fun q hq => ?_, fun _ _ _ => rfl,
        fun _ => ?_⟩
      · rw [Nat.zero_mul, Frame.copy_zero]
        rfl
      · exact absurd hq (Nat.not_lt_zero q)
      · show d.shadow.differs frame _ (0 * l.rowBytes) = false
        rw [Nat.zero_mul]
        exact Frame.differs_eq_false_iff.mpr fun k hk => absurd hk (Nat.not_lt_zero k)
  | succ n ih =>
      rw [List.range_succ, List.foldl_append]
      exact (ih (by omega)).step hl hw hsend hcur (by omega)

variable (width) in
/-- An update by pages leaves the memory and the shadow as the framebuffer is. -/
theorem pages_show (hl : l.swapped = true → l.rowBytes % 2 = 0)
    (hw : l.rowBytes = 2 * (width / 2 / 2)) (hsend : l.Sends send)
    (hsize : 0 < pageSize ∧ pageSize ∣ l.rows) {d : Panel} (hready : l.Ready d.ctrl)
    (hcur : ∀ q < l.rows, l.Current d.ctrl d.shadow frame q) :
    (updatePages width l.rows pageSize send frame d).shadow =
        d.shadow.copy frame 0 (l.rows * l.rowBytes) ∧
      ∀ q < l.rows, l.Shows (updatePages width l.rows pageSize send frame d).ctrl frame q := by
  obtain ⟨hlt, hle, hwhole, hshadow, -, hshows, -, -⟩ :=
    pagesDone_rows hl hw hsend hsize.1 hready hcur (Nat.le_refl l.rows)
  rw [updatePages]
  generalize (List.range l.rows).foldl (pageStep width pageSize send frame) ⟨d, false, 0⟩ = t at *
  -- the height is made of whole pages
  have hpage : t.page = 0 := by
    have hdvd := (Nat.dvd_sub_iff_right hle hsize.2).mp hwhole
    exact Nat.eq_zero_of_dvd_of_lt hdvd hlt
  refine ⟨hshadow, fun q hq => hshows q ?_⟩
  rw [hpage]
  exact hq

/-- Every copy is of a page. -/
theorem pages_copies {cap : ℕ}
    (hsend : ∀ first last d, ∀ c ∈ (send first last pageSize d).copies, c ∈ d.copies ∨ c ≤ cap)
    (height : ℕ) (d : Panel) :
    ∀ c ∈ (updatePages width height pageSize send frame d).copies, c ∈ d.copies ∨ c ≤ cap := by
  have hrun : ∀ n, ∀ c ∈ ((List.range n).foldl (pageStep width pageSize send frame)
      ⟨d, false, 0⟩).panel.copies, c ∈ d.copies ∨ c ≤ cap := by
    intro n
    induction n with
    | zero => exact fun c hc => .inl hc
    | succ n ih =>
        rw [List.range_succ, List.foldl_append]
        intro c hc
        change c ∈ (pageStep width pageSize send frame _ n).panel.copies at hc
        rw [pageStep] at hc
        dsimp only at hc
        split at hc
        · split at hc
          · rcases hsend _ _ _ c hc with hc | hc
            · exact ih c hc
            · exact .inr hc
          · exact ih c hc
        · exact ih c hc
  exact hrun height

end Pages

/-! ### The two drivers -/

/-- Sending a block of whole rows of the shadow. -/
theorem sends_of_block {l : Layout} {send : ℕ → ℕ → ℕ → Panel → Panel} (hoffset : l.rowOffset = 0)
    (hrows : l.rows ≤ 256) (hpos : 0 < l.rowBytes)
    (hshadow : ∀ first last page d, (send first last page d).shadow = d.shadow)
    (hctrl : ∀ first last page d, (send first last page d).ctrl =
      (d.ctrl.setRows (first % 256) (last % 256)).write
        (block (fun i j => d.shadow (l.addr (first + i) j)) page l.rowBytes)) : l.Sends send := by
  have hwrite : ∀ first last page d, 0 < page → first + page = last + 1 → last < l.rows →
      l.Ready d.ctrl →
      (send first last page d).ctrl = { d.ctrl.setRows first last with
        cell := fun r c =>
          if first ≤ r ∧ r < first + page ∧ l.colOffset ≤ c ∧ c < l.colOffset + l.rowBytes then
            d.shadow (l.addr (first + (r - first)) (c - l.colOffset))
          else d.ctrl.cell r c
        row := if 0 < page ∧ first + page = last + 1 then first else first + page } := by
    intro first last page d hpos' hpage hlast hready
    have hcols := hready.last
    rw [← hready.first] at hcols
    rw [hctrl, Nat.mod_eq_of_lt (show first < 256 by omega),
      Nat.mod_eq_of_lt (show last < 256 by omega),
      Memory.write_rows (m := d.ctrl.setRows first last) _ hready.cursor hpos hcols (by
        show first + page ≤ last + 1
        omega)]
    show _ = Memory.mk _ _ _ _ _ _ _
    rw [← hready.first]
    rfl
  refine ⟨hshadow, fun first last page d hpos' hpage hlast hready => ?_,
    fun first last page d hpos' hpage hlast hready r hfirst hr b hb => ?_,
    fun first last page d hpos' hpage hlast hready r hr b => ?_⟩
  · rw [hwrite first last page d hpos' hpage hlast hready]
    exact ⟨hready.first, hready.last, hready.cursor⟩
  · rw [hwrite first last page d hpos' hpage hlast hready, hoffset, Nat.zero_add]
    show (if first ≤ r ∧ r < first + page ∧ _ then _ else _) = _
    rw [if_pos ⟨hfirst, by omega, by omega, by omega⟩, Nat.add_sub_cancel' hfirst,
      Nat.add_sub_cancel_left]
  · rw [hwrite first last page d hpos' hpage hlast hready, hoffset, Nat.zero_add]
    show (if first ≤ r ∧ r < first + page ∧ _ then _ else _) = _
    rw [if_neg (by omega)]

/-- The SSD1326 and SSD1327, of columns of two pixels. -/
def layout4 (width height : ℕ) : Layout where
  rows := height
  rowBytes := width / 2
  rowOffset := 0
  colOffset := 0
  swapped := false

/-- The SSD1322, of columns of four pixels, in the middle of its memory. -/
def layout1322 (width height : ℕ) : Layout where
  rows := height
  rowBytes := width / 2
  rowOffset := 0
  colOffset := offset1322 width * 2
  swapped := true

section Drivers

variable {width height : ℕ}

theorem send4_sends (hw : 8 ∣ width) (hpos : 0 < width) (hh : height ≤ 256) (iram : Bool) :
    (layout4 width height).Sends (send4 width iram) := by
  obtain ⟨k, rfl⟩ := hw
  have hbytes : 8 * k / 2 = 4 * k := by omega
  refine sends_of_block rfl hh (by show 0 < 8 * k / 2; omega) (fun first last page d => ?_)
    fun first last page d => ?_
  · rw [send4]
    split <;> rfl
  · have hslice : slice d.shadow (first * (8 * k) / 2) (page * (8 * k) / 2) =
        block (fun i j => d.shadow ((layout4 (8 * k) height).addr (first + i) j)) page
          (layout4 (8 * k) height).rowBytes := by
      have hpage : page * (8 * k) / 2 = page * (4 * k) := by
        rw [show page * (8 * k) = page * (4 * k) * 2 by ring, Nat.mul_div_cancel _ (by decide)]
      have hfirst : first * (8 * k) / 2 = first * (4 * k) := by
        rw [show first * (8 * k) = first * (4 * k) * 2 by ring, Nat.mul_div_cancel _ (by decide)]
      rw [hpage, hfirst, slice_rows]
      show _ = block _ page (8 * k / 2)
      rw [hbytes]
      refine block_congr fun i _ j _ => ?_
      show _ = d.shadow ((first + i) * (8 * k / 2) + j)
      rw [hbytes, Nat.add_mul, Nat.add_assoc]
    rw [← hslice, send4]
    split
    · rw [Nat.mul_comm (8 * k) page]
      rfl
    · rfl

/-- Words of which the bytes change places. -/
theorem flatMap_swapped (f : Frame) (start n : ℕ) :
    ((List.range n).flatMap fun i => [f (start + (2 * i + 1)), f (start + 2 * i)]) =
      slice (fun k => f (start + if k % 2 = 0 then k + 1 else k - 1)) 0 (2 * n) := by
  induction n with
  | zero => rfl
  | succ n ih =>
      rw [List.range_succ, List.flatMap_append, List.flatMap_singleton, ih, slice, slice,
        Nat.mul_succ, List.range_add, List.map_append]
      congr 1
      have heven : (2 * n) % 2 = 0 := Nat.mul_mod_right 2 n
      have hodd : ¬ (2 * n + 1) % 2 = 0 := by omega
      simp [List.range_succ, heven, hodd]

theorem send1322_sends (hw : 8 ∣ width) (hpos : 0 < width) (hh : height ≤ 256) :
    (layout1322 width height).Sends (send1322 width) := by
  obtain ⟨k, rfl⟩ := hw
  have hbytes : 8 * k / 2 = 4 * k := by omega
  refine sends_of_block rfl hh (by show 0 < 8 * k / 2; omega) (fun first last page d => rfl)
    fun first last page d => ?_
  have hpage : page * (8 * k) / 2 = page * (4 * k) := by
    rw [show page * (8 * k) = page * (4 * k) * 2 by ring, Nat.mul_div_cancel _ (by decide)]
  have hfirst : first * (8 * k) / 2 = first * (4 * k) := by
    rw [show first * (8 * k) = first * (4 * k) * 2 by ring, Nat.mul_div_cancel _ (by decide)]
  have hwords : 2 * (page * (4 * k) / 2) = page * (4 * k) := by
    rw [show page * (4 * k) = page * (2 * k) * 2 by ring, Nat.mul_div_cancel _ (by decide),
      Nat.mul_comm]
  show (d.ctrl.setRows _ _).write (List.take _ (List.flatMap _ _)) = _
  congr 1
  rw [flatMap_swapped, hpage, hfirst, hwords, Nat.mul_comm (8 * k) page, hpage,
    List.take_of_length_le (by rw [length_slice]), slice_rows]
  show _ = block _ page (8 * k / 2)
  rw [hbytes]
  refine block_congr fun i _ j hj => ?_
  show d.shadow _ = d.shadow ((first + i) * (8 * k / 2) + if j % 2 = 0 then j + 1 else j - 1)
  have heven : (0 + (i * (4 * k) + j)) % 2 = j % 2 := by
    rw [show 0 + (i * (4 * k) + j) = j + 2 * (i * (2 * k)) by ring, Nat.add_mul_mod_self_left]
  rw [heven, hbytes, Nat.add_mul]
  split
  · congr 1
    omega
  · congr 1
    omega

/-- The size of `iRAM`, as `Init` of both drivers allocates it. -/
def ssdIram (width height : ℕ) : ℕ := ssdPageSize width height * width / 2

theorem update4_updated (hw : 8 ∣ width) (hpos : 0 < width) (hle : width ≤ 512) (hh : height ≤ 256)
    (iram : Bool) {frame : Frame} {d : Panel}
    (hcur : ∀ q < height, (layout4 width height).Current d.ctrl d.shadow frame q) :
    Updated (layout4 width height) frame (update4 width height iram frame d) := by
  have hready : (layout4 width height).Ready (d.setColumnAddress 256 1 0 (width / 2 - 1)).ctrl := by
    refine ⟨rfl, ?_, rfl⟩
    show (width / 2 - 1) % 256 * 1 + 0 + 1 = 0 + width / 2
    rw [Nat.mod_eq_of_lt (by omega)]
    omega
  have hsize : 0 < ssdPageSize width height ∧ ssdPageSize width height ∣ height :=
    ssdPageSize_dvd (by omega) (by omega)
  obtain ⟨hshadow, hshows⟩ := pages_show (l := layout4 width height) width
    (fun h => (nomatch h)) (by show width / 2 = _; omega) (send4_sends hw hpos hh iram) hsize
    hready hcur
  refine ⟨fun q hq b hb => ?_, hshows⟩
  rw [show (update4 width height iram frame d).shadow = _ from hshadow]
  exact copy_addr (l := layout4 width height) (fun h => (nomatch h)) hq hb

theorem update1322_updated (hw : 8 ∣ width) (hpos : 0 < width) (hle : width ≤ 480)
    (hh : height ≤ 256) {frame : Frame} {d : Panel}
    (hcur : ∀ q < height, (layout1322 width height).Current d.ctrl d.shadow frame q) :
    Updated (layout1322 width height) frame (update1322 width height frame d) := by
  have hoffset : offset1322 width = (480 - width) / 4 / 2 := Nat.mod_eq_of_lt (by omega)
  have heven : (layout1322 width height).swapped = true →
      (layout1322 width height).rowBytes % 2 = 0 := by
    intro _
    show width / 2 % 2 = 0
    omega
  have hready : (layout1322 width height).Ready (d.setColumnAddress 256 2 (offset1322 width)
      (offset1322 width + width / 4 - 1)).ctrl := by
    refine ⟨?_, ?_, rfl⟩
    · show offset1322 width % 256 * 2 = offset1322 width * 2
      rw [Nat.mod_eq_of_lt (by omega)]
    · show (offset1322 width + width / 4 - 1) % 256 * 2 + 1 + 1 = offset1322 width * 2 + width / 2
      rw [Nat.mod_eq_of_lt (by omega)]
      omega
  have hsize : 0 < ssdPageSize width height ∧ ssdPageSize width height ∣ height :=
    ssdPageSize_dvd (by omega) (by omega)
  obtain ⟨hshadow, hshows⟩ := pages_show (l := layout1322 width height) width heven
    (by show width / 2 = _; omega) (send1322_sends hw hpos hh) hsize hready hcur
  refine ⟨fun q hq b hb => ?_, hshows⟩
  rw [show (update1322 width height frame d).shadow = _ from hshadow]
  exact copy_addr heven hq hb

/-- A page fits into `iRAM`. -/
theorem update4_copies (iram : Bool) (frame : Frame) (d : Panel) :
    ∀ c ∈ (update4 width height iram frame d).copies, c ∈ d.copies ∨ c ≤ ssdIram width height := by
  refine pages_copies (fun first last d c hc => ?_) height _
  rw [send4] at hc
  split at hc
  · rcases List.mem_append.mp hc with hc | hc
    · exact .inl hc
    · rw [List.mem_singleton.mp hc]
      exact .inr (Nat.le_refl _)
  · exact .inl hc

theorem update1322_copies (frame : Frame) (d : Panel) :
    ∀ c ∈ (update1322 width height frame d).copies, c ∈ d.copies ∨ c ≤ ssdIram width height := by
  refine pages_copies (fun first last d c hc => ?_) height _
  rcases List.mem_append.mp hc with hc | hc
  · exact .inl hc
  · rw [List.mem_singleton.mp hc]
    exact .inr (Nat.mul_div_le _ 2)

end Drivers

end Gds

end SqueezeliteMuse
