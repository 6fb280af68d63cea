/-
SqueezeliteMuse/St77xx.lean

The color displays: `Update16` and `Update24` of the ST7735 and ST7789.

The rows are looked at word by word, and what has changed is gathered into a window that
grows by columns and by rows.  The window is sent when it is large enough, or at the last row.
`Format` is what the two updates do differently: the words they compare, the pixels that a
word touches, and how large a window is.

The rows of a window go through `iRAM`, as many at once as fit into `PAGE_BLOCK` bytes.

Main results: `window_shows` (an update leaves the shadow and the memory as the framebuffer
is), `window_copies` (no copy goes further than `PAGE_BLOCK` or a row, or than the rows there
are) and `window_reaches` (ten rows that have changed are copied one behind the other, where they
fit into `PAGE_BLOCK`).
-/
import SqueezeliteMuse.Gds
import Mathlib.Tactic.Ring

namespace SqueezeliteMuse

open Windowed

namespace Gds

/-! ### The update -/

/-- `PAGE_BLOCK` of these displays. -/
def ST_PAGE_BLOCK : ℕ := 2048

structure Format where
  /-- the bytes of a pixel -/
  bytes : ℕ
  /-- the bytes of a word -/
  wordBytes : ℕ
  /-- the words of a row -/
  words : ℕ → ℕ
  /-- how many bytes a window of so many words and rows is taken for -/
  area : ℕ → ℕ → ℕ
  firstPixel : ℕ → ℕ
  lastPixel : ℕ → ℕ

def format16 : Format where
  bytes := 2
  wordBytes := 4
  words width := width / 2
  area n rows := n * rows * 4
  firstPixel c := c * 2
  lastPixel c := c * 2 + 1

def format24 : Format where
  bytes := 3
  wordBytes := 2
  words width := width * 3 / 2
  area n rows := (n * 2 + 3 - 1) / 3 * rows * 3
  firstPixel c := c * 2 / 3
  lastPixel c := (c * 2 + 1) / 3

/-- A display, and whether `iRAM` could be allocated. -/
structure Screen where
  width : ℕ
  height : ℕ
  offsetWidth : ℕ
  offsetHeight : ℕ
  iRAM : Bool

/-- The window; `firstRow` is `-1` if there is none. -/
structure Pending where
  panel : Panel
  firstCol : ℕ
  lastCol : ℕ
  firstRow : Option ℕ
  lastRow : ℕ

/-- Word `c` of row `r` goes into the window. -/
def Pending.widen (t : Pending) (r c : ℕ) (shadow : Frame) : Pending where
  panel := { t.panel with shadow := shadow }
  firstCol := if c < t.firstCol then c else t.firstCol
  lastCol := if c > t.lastCol then c else t.lastCol
  firstRow := some (t.firstRow.getD r)
  lastRow := r

/-- Look at one word, and update the shadow. -/
def scanPixel (p : Format) (frame : Frame) (base r : ℕ) (t : Pending) (c : ℕ) : Pending :=
  if t.panel.shadow.differs frame (base + c * p.wordBytes) p.wordBytes then
    t.widen r c (t.panel.shadow.copy frame (base + c * p.wordBytes) p.wordBytes)
  else t

def scanPixels (p : Format) (frame : Frame) (base r words : ℕ) (t : Pending) : Pending :=
  (List.range words).foldl (scanPixel p frame base r) t

/-- The loop that fills `iRAM`. -/
structure Bounce where
  panel : Panel
  buf : List UInt8

def bounceRow (row : ℕ → List UInt8) (chunkSize lastRow : ℕ) (t : Bounce) (i : ℕ) : Bounce :=
  let buf := t.buf ++ row i
  let panel := t.panel.bounce buf.length
  if buf.length + chunkSize ≤ ST_PAGE_BLOCK ∧ i < lastRow then ⟨panel, buf⟩
  else ⟨panel.writeData buf, []⟩

def bounceRows (row : ℕ → List UInt8) (chunkSize lastRow firstRow n : ℕ) (d : Panel) : Bounce :=
  (List.range' firstRow n).foldl (bounceRow row chunkSize lastRow) ⟨d, []⟩

/-- The loop without `iRAM`. -/
def writeRows (row : ℕ → List UInt8) (firstRow n : ℕ) (d : Panel) : Panel :=
  (List.range' firstRow n).foldl (fun d i => d.writeData (row i)) d

/-- Send the rows, through `iRAM` or one by one. -/
def sendRows (iRAM : Bool) (row : ℕ → List UInt8) (chunkSize firstRow lastRow : ℕ) (d : Panel) :
    Panel :=
  if iRAM then (bounceRows row chunkSize lastRow firstRow (lastRow + 1 - firstRow) d).panel
  else writeRows row firstRow (lastRow + 1 - firstRow) d

/-- `ENABLE_WRITE` -/
def Panel.enableWrite (d : Panel) : Panel := { d with ctrl := d.ctrl.rewind }

/-- Send the window of these pixels. -/
def sendWindow (p : Format) (g : Screen) (firstCol lastCol firstRow lastRow : ℕ) (d : Panel) : Panel :=
  let d := d.setRowAddress 65536 (firstRow + g.offsetHeight) (lastRow + g.offsetHeight)
  let d := d.setColumnAddress 65536 p.bytes (firstCol + g.offsetWidth) (lastCol + g.offsetWidth)
  let d := d.enableWrite
  let chunkSize := (lastCol - firstCol + 1) * p.bytes
  sendRows g.iRAM (fun i => slice d.shadow ((i * g.width + firstCol) * p.bytes) chunkSize) chunkSize
    firstRow lastRow d

/-- One row; the window is sent if it is large enough. -/
def windowStep (p : Format) (g : Screen) (frame : Frame) (t : Pending) (r : ℕ) : Pending :=
  let t := scanPixels p frame (r * (p.words g.width * p.wordBytes)) r (p.words g.width) t
  match t.firstRow with
  | none => t
  | some firstRow =>
    if p.area (t.lastCol - t.firstCol + 1) (r - firstRow + 1) < ST_PAGE_BLOCK ∧ r ≠ g.height - 1 then t
    else
      { panel := sendWindow p g (p.firstPixel t.firstCol) (p.lastPixel t.lastCol) firstRow t.lastRow
          t.panel
        firstCol := p.words g.width
        lastCol := 0
        firstRow := none
        lastRow := t.lastRow }

def windowRows (p : Format) (g : Screen) (frame : Frame) (d : Panel) (n : ℕ) : Pending :=
  (List.range n).foldl (windowStep p g frame) ⟨d, p.words g.width, 0, none, 0⟩

def updateWindow (p : Format) (g : Screen) (frame : Frame) (d : Panel) : Panel :=
  (windowRows p g frame d g.height).panel

def update16 : Screen → Frame → Panel → Panel := updateWindow format16

def update24 : Screen → Frame → Panel → Panel := updateWindow format24

/-- `PageSize` of these displays. -/
def stPageSize (p : Format) (g : Screen) : ℕ := min 8 (ST_PAGE_BLOCK / (g.width * p.bytes))

/-- The size of `iRAM`, as `Init` allocates it. -/
def stIram (p : Format) (g : Screen) : ℕ := (stPageSize p g + 1) * g.width * p.bytes

def layoutSt (p : Format) (g : Screen) : Layout where
  rows := g.height
  rowBytes := g.width * p.bytes
  rowOffset := g.offsetHeight
  colOffset := g.offsetWidth * p.bytes
  swapped := false

/-! ### Words and pixels -/

/-- The pixels of a word hold it, and the words of a row are the row. -/
structure Format.Holds (p : Format) (width : ℕ) : Prop where
  pos : 0 < p.bytes
  row : p.words width * p.wordBytes = width * p.bytes
  first : ∀ c, p.firstPixel c * p.bytes ≤ c * p.wordBytes
  last : ∀ c, (c + 1) * p.wordBytes ≤ (p.lastPixel c + 1) * p.bytes
  inside : ∀ c < p.words width, p.lastPixel c < width
  wordPos : 0 < p.wordBytes

theorem format16_holds {width : ℕ} (hw : 8 ∣ width) : format16.Holds width := by
  obtain ⟨k, rfl⟩ := hw
  refine ⟨by decide, ?_, fun c => ?_, fun c => ?_, fun c hc => ?_, by decide⟩
  · show 8 * k / 2 * 4 = 8 * k * 2
    omega
  · show c * 2 * 2 ≤ c * 4
    omega
  · show (c + 1) * 4 ≤ (c * 2 + 1 + 1) * 2
    omega
  · have hc' : c < 8 * k / 2 := hc
    show c * 2 + 1 < 8 * k
    omega

theorem format24_holds {width : ℕ} (hw : 8 ∣ width) : format24.Holds width := by
  obtain ⟨k, rfl⟩ := hw
  refine ⟨by decide, ?_, fun c => ?_, fun c => ?_, fun c hc => ?_, by decide⟩
  · show 8 * k * 3 / 2 * 2 = 8 * k * 3
    omega
  · show c * 2 / 3 * 3 ≤ c * 2
    omega
  · show (c + 1) * 2 ≤ ((c * 2 + 1) / 3 + 1) * 3
    omega
  · have hc' : c < 8 * k * 3 / 2 := hc
    show (c * 2 + 1) / 3 < 8 * k
    omega

/-- The pixels of a window of words. -/
theorem Format.Holds.le {p : Format} {width : ℕ} (h : p.Holds width) {f l : ℕ} (hle : f ≤ l) :
    p.firstPixel f ≤ p.lastPixel l := by
  have hchain : p.firstPixel f * p.bytes < (p.lastPixel l + 1) * p.bytes :=
    calc p.firstPixel f * p.bytes ≤ f * p.wordBytes := h.first f
      _ < (l + 1) * p.wordBytes := Nat.mul_lt_mul_of_pos_right (Nat.lt_succ_of_le hle) h.wordPos
      _ ≤ (p.lastPixel l + 1) * p.bytes := h.last l
  exact Nat.lt_succ_iff.mp (Nat.lt_of_mul_lt_mul_right hchain)

/-! ### Looking for changes -/

/-- The window holds word `c` of row `q`. -/
def Pending.Has (t : Pending) (q c : ℕ) : Prop :=
  ∃ f, t.firstRow = some f ∧ f ≤ q ∧ q ≤ t.lastRow ∧ t.firstCol ≤ c ∧ c ≤ t.lastCol

/-- The window is made of words of the first `n` rows. -/
structure Pending.Within (t : Pending) (words n : ℕ) : Prop where
  unset : t.firstRow = none → t.firstCol = words ∧ t.lastCol = 0
  set : ∀ f, t.firstRow = some f →
    f ≤ t.lastRow ∧ t.lastRow < n ∧ t.firstCol ≤ t.lastCol ∧ t.lastCol < words

/-- What is known when `n` words of row `r` have been looked at. -/
structure PixelsScanned (p : Format) (frame : Frame) (base r words : ℕ) (t₀ : Pending) (n : ℕ)
    (t : Pending) : Prop where
  shadow : t.panel.shadow = t₀.panel.shadow.copy frame base (n * p.wordBytes)
  ctrl : t.panel.ctrl = t₀.panel.ctrl
  copies : t.panel.copies = t₀.panel.copies
  within : t.Within words (r + 1)
  grows : ∀ q c, t₀.Has q c → t.Has q c
  finds : ∀ c < n, t₀.panel.shadow.differs frame (base + c * p.wordBytes) p.wordBytes = true →
    t.Has r c
  tight : ∀ m, t₀.lastCol < m → (∀ c < n,
    t₀.panel.shadow.differs frame (base + c * p.wordBytes) p.wordBytes = true → c < m) → t.lastCol < m

/-- A word that goes into the window is in it, and what was there still is. -/
theorem Pending.Within.widen {t : Pending} {words r c : ℕ} (h : t.Within words (r + 1))
    (hc : c < words) (s : Frame) :
    (t.widen r c s).Within words (r + 1) ∧ (∀ q c', t.Has q c' → (t.widen r c s).Has q c') ∧
      (t.widen r c s).Has r c := by
  have hrow : t.firstRow.getD r ≤ r := by
    cases hf : t.firstRow with
    | none => exact Nat.le_refl r
    | some f =>
        obtain ⟨hfl, hl, -, -⟩ := h.set f hf
        show f ≤ r
        omega
  have hcols : (t.widen r c s).firstCol ≤ c ∧ c ≤ (t.widen r c s).lastCol ∧
      (t.widen r c s).lastCol < words := by
    simp only [Pending.widen]
    refine ⟨by split <;> omega, by split <;> omega, ?_⟩
    split
    · exact hc
    · cases hf : t.firstRow with
      | none =>
          have := h.unset hf
          omega
      | some f => exact (h.set f hf).2.2.2
  refine ⟨⟨fun hno => (nomatch hno), fun f hf => ?_⟩, ?_, ?_⟩
  · cases hf
    exact ⟨hrow, Nat.lt_succ_self r, hcols.1.trans hcols.2.1, hcols.2.2⟩
  · rintro q c' ⟨f, hf, hfq, hq, hfc, hcl⟩
    obtain ⟨-, hl, -, -⟩ := h.set f hf
    refine ⟨f, ?_, hfq, by show q ≤ r; omega, ?_, ?_⟩
    · show some (t.firstRow.getD r) = some f
      rw [hf]
      rfl
    · show (if c < t.firstCol then c else t.firstCol) ≤ c'
      split <;> omega
    · show c' ≤ (if c > t.lastCol then c else t.lastCol)
      split <;> omega
  · exact ⟨_, rfl, hrow, Nat.le_refl r, hcols.1, hcols.2.1⟩

theorem scanPixels_spec (p : Format) (frame : Frame) (base r : ℕ) {words : ℕ} {t₀ : Pending}
    (h : t₀.Within words (r + 1)) {n : ℕ} (hn : n ≤ words) :
    PixelsScanned p frame base r words t₀ n (scanPixels p frame base r n t₀) := by
  induction n with
  | zero =>
      refine ⟨?_, rfl, rfl, h, fun q c hc => hc, fun c hc => absurd hc (Nat.not_lt_zero c),
        fun m hm _ => hm⟩
      rw [Nat.zero_mul, Frame.copy_zero]
      rfl
  | succ n ih =>
      have hsucc : scanPixels p frame base r (n + 1) t₀ =
          scanPixel p frame base r (scanPixels p frame base r n t₀) n := by
        rw [scanPixels, List.range_succ, List.foldl_append]
        rfl
      rw [hsucc]
      have hscan := ih (by omega)
      generalize scanPixels p frame base r n t₀ = t at hscan
      obtain ⟨hshadow, hctrl, hcopies, hwithin, hgrows, hfinds, htight⟩ := hscan
      -- the word is still what it was
      have hword : t.panel.shadow.differs frame (base + n * p.wordBytes) p.wordBytes =
          t₀.panel.shadow.differs frame (base + n * p.wordBytes) p.wordBytes := by
        rw [hshadow, Frame.differs_copy]
      have hcopy : t.panel.shadow.copy frame (base + n * p.wordBytes) p.wordBytes =
          t₀.panel.shadow.copy frame base ((n + 1) * p.wordBytes) := by
        rw [hshadow, Frame.copy_copy, Nat.succ_mul]
      rw [scanPixel]
      by_cases hd : t.panel.shadow.differs frame (base + n * p.wordBytes) p.wordBytes = true
      · rw [if_pos hd]
        obtain ⟨hwithin', hgrows', hfound⟩ := hwithin.widen (show n < words by omega)
          (t.panel.shadow.copy frame (base + n * p.wordBytes) p.wordBytes)
        refine ⟨hcopy, hctrl, hcopies, hwithin', fun q c hc => hgrows' q c (hgrows q c hc),
          fun c hc hdiff => ?_, fun m hm hall => ?_⟩
        · rcases Nat.lt_succ_iff_lt_or_eq.mp hc with hc | rfl
          · exact hgrows' r c (hfinds c hc hdiff)
          · exact hfound
        · show (if n > t.lastCol then n else t.lastCol) < m
          rw [hword] at hd
          have hn' := hall n (Nat.lt_succ_self n) hd
          have hlast := htight m hm fun c hc => hall c (Nat.lt_succ_of_lt hc)
          split
          · exact hn'
          · exact hlast
      · rw [if_neg hd]
        refine ⟨?_, hctrl, hcopies, hwithin, hgrows, fun c hc hdiff => ?_,
          fun m hm hall => htight m hm fun c hc => hall c (Nat.lt_succ_of_lt hc)⟩
        · rw [← hcopy, Frame.copy_of_differs_false (Bool.eq_false_iff.mpr hd)]
        · rcases Nat.lt_succ_iff_lt_or_eq.mp hc with hc | rfl
          · exact hfinds c hc hdiff
          · rw [← hword] at hdiff
            exact absurd hdiff hd

/-! ### Sending the window -/

section Sending

variable {row : ℕ → List UInt8} {chunkSize lastRow firstRow : ℕ} {d : Panel}

/-- What is known when `m` rows have been copied: what is in `iRAM` is what has not been sent. -/
structure Bounced (row : ℕ → List UInt8) (chunkSize lastRow firstRow : ℕ) (d : Panel) (m : ℕ)
    (t : Bounce) : Prop where
  shadow : t.panel.shadow = d.shadow
  sent : t.panel.ctrl.write t.buf = d.ctrl.write ((List.range' firstRow m).flatMap row)
  empty : lastRow < firstRow + m → t.buf = []
  room : ∃ j ≤ m, t.buf.length = j * chunkSize ∧ (j = 0 ∨ (j + 1) * chunkSize ≤ ST_PAGE_BLOCK)
  copies : ∀ c ∈ t.panel.copies, c ∈ d.copies ∨
    c ≤ max chunkSize ST_PAGE_BLOCK ∧ c ≤ m * chunkSize
  /-- rows that fit together are together -/
  whole : firstRow + m ≤ lastRow → (m + 1) * chunkSize ≤ ST_PAGE_BLOCK →
    t.buf.length = m * chunkSize
  old : ∀ c ∈ d.copies, c ∈ t.panel.copies
  reach : ∀ m' < m, firstRow + m' ≤ lastRow → (m' + 1) * chunkSize ≤ ST_PAGE_BLOCK →
    (m' + 1) * chunkSize ∈ t.panel.copies

theorem bounceRows_spec (hrow : ∀ i, (row i).length = chunkSize) (m : ℕ)
    (hm : firstRow + m ≤ lastRow + 1) :
    Bounced row chunkSize lastRow firstRow d m (bounceRows row chunkSize lastRow firstRow m d) := by
  induction m with
  | zero =>
      refine ⟨rfl, rfl, fun _ => rfl, ⟨0, Nat.le_refl 0, (Nat.zero_mul _).symm, .inl rfl⟩,
        fun c hc => .inl hc, fun _ _ => (Nat.zero_mul _).symm, fun c hc => hc,
        fun m' hm' => absurd hm' (Nat.not_lt_zero m')⟩
  | succ m ih =>
      have hsucc : bounceRows row chunkSize lastRow firstRow (m + 1) d = bounceRow row chunkSize
          lastRow (bounceRows row chunkSize lastRow firstRow m d) (firstRow + m) := by
        rw [bounceRows, List.range'_1_concat, List.foldl_append]
        rfl
      rw [hsucc]
      have hbounced := ih (by omega)
      generalize bounceRows row chunkSize lastRow firstRow m d = t at hbounced
      obtain ⟨hshadow, hsent, -, ⟨j, hj, hlen, hroom⟩, hcopies, hwhole, hold, hreach⟩ := hbounced
      have hnew : (t.buf ++ row (firstRow + m)).length = (j + 1) * chunkSize := by
        rw [List.length_append, hlen, hrow, Nat.succ_mul]
      have hwrite : t.panel.ctrl.write (t.buf ++ row (firstRow + m)) =
          d.ctrl.write ((List.range' firstRow (m + 1)).flatMap row) := by
        rw [List.range'_1_concat, List.flatMap_append, List.flatMap_singleton, Memory.write_append,
          Memory.write_append, hsent]
      have hcopies' : ∀ c ∈ (t.panel.bounce (t.buf ++ row (firstRow + m)).length).copies,
          c ∈ d.copies ∨ c ≤ max chunkSize ST_PAGE_BLOCK ∧ c ≤ (m + 1) * chunkSize := by
        intro c hc
        rcases List.mem_append.mp hc with hc | hc
        · rcases hcopies c hc with hc | ⟨hc, hcm⟩
          · exact .inl hc
          · exact .inr ⟨hc, hcm.trans (Nat.mul_le_mul_right _ (Nat.le_succ m))⟩
        · rw [List.mem_singleton.mp hc, hnew]
          refine .inr ⟨?_, Nat.mul_le_mul_right _ (Nat.succ_le_succ hj)⟩
          rcases hroom with rfl | hroom
          · rw [Nat.zero_add, Nat.one_mul]
            exact Nat.le_max_left ..
          · exact hroom.trans (Nat.le_max_right ..)
      have hold' : ∀ c ∈ d.copies,
          c ∈ (t.panel.bounce (t.buf ++ row (firstRow + m)).length).copies :=
        fun c hc => List.mem_append_left _ (hold c hc)
      have hreach' : ∀ m' < m + 1, firstRow + m' ≤ lastRow → (m' + 1) * chunkSize ≤ ST_PAGE_BLOCK →
          (m' + 1) * chunkSize ∈
            (t.panel.bounce (t.buf ++ row (firstRow + m)).length).copies := by
        intro m' hm' hle hfit
        rcases Nat.lt_succ_iff_lt_or_eq.mp hm' with hm' | rfl
        · exact List.mem_append_left _ (hreach m' hm' hle hfit)
        · refine List.mem_append_right _ (List.mem_singleton.mpr ?_)
          rw [List.length_append, hwhole hle hfit, hrow, Nat.succ_mul]
      rw [bounceRow]
      by_cases hmore : (t.buf ++ row (firstRow + m)).length + chunkSize ≤ ST_PAGE_BLOCK ∧
          firstRow + m < lastRow
      · -- there is room for another row
        rw [if_pos hmore]
        refine ⟨hshadow, hwrite, fun hlast => absurd hmore.2 (by omega), ⟨j + 1, by omega, hnew, .inr ?_⟩,
          hcopies', fun hle hfit => ?_, hold', hreach'⟩
        · rw [Nat.succ_mul, ← hnew]
          exact hmore.1
        · show (t.buf ++ row (firstRow + m)).length = (m + 1) * chunkSize
          have hfit' : (m + 1) * chunkSize ≤ ST_PAGE_BLOCK :=
            (Nat.mul_le_mul_right _ (Nat.le_succ _)).trans hfit
          rw [List.length_append, hwhole (by omega) hfit', hrow, Nat.succ_mul]
      · rw [if_neg hmore]
        refine ⟨hshadow, hwrite, fun _ => rfl, ⟨0, Nat.zero_le _, (Nat.zero_mul _).symm, .inl rfl⟩,
          hcopies', fun hle hfit => ?_, hold', hreach'⟩
        -- rows that fit are not sent before the last one
        refine absurd ⟨?_, by omega⟩ hmore
        have hfit' : (m + 1) * chunkSize ≤ ST_PAGE_BLOCK :=
          (Nat.mul_le_mul_right _ (Nat.le_succ _)).trans hfit
        rw [List.length_append, hwhole (by omega) hfit', hrow]
        rw [Nat.succ_mul, Nat.succ_mul] at hfit
        exact hfit

theorem writeRows_spec (row : ℕ → List UInt8) (firstRow n : ℕ) (d : Panel) :
    (writeRows row firstRow n d).shadow = d.shadow ∧
      (writeRows row firstRow n d).copies = d.copies ∧
      (writeRows row firstRow n d).ctrl = d.ctrl.write ((List.range' firstRow n).flatMap row) := by
  induction n with
  | zero => exact ⟨rfl, rfl, rfl⟩
  | succ n ih =>
      have hsucc : writeRows row firstRow (n + 1) d =
          (writeRows row firstRow n d).writeData (row (firstRow + n)) := by
        rw [writeRows, List.range'_1_concat, List.foldl_append]
        rfl
      rw [hsucc, List.range'_1_concat, List.flatMap_append, List.flatMap_singleton,
        Memory.write_append, ← ih.2.2]
      exact ⟨ih.1, ih.2.1, rfl⟩

variable (row) in
/-- The rows are sent one behind the other, whichever way they go. -/
theorem sendRows_spec (iRAM : Bool) (hrow : ∀ i, (row i).length = chunkSize)
    (hle : firstRow ≤ lastRow) :
    (sendRows iRAM row chunkSize firstRow lastRow d).shadow = d.shadow ∧
      (sendRows iRAM row chunkSize firstRow lastRow d).ctrl =
        d.ctrl.write ((List.range' firstRow (lastRow + 1 - firstRow)).flatMap row) := by
  rw [sendRows]
  by_cases hi : iRAM = true
  · rw [if_pos hi]
    have h : Bounced row chunkSize lastRow firstRow d _ _ :=
      bounceRows_spec hrow (lastRow + 1 - firstRow) (by omega)
    have hsent := h.sent
    rw [h.empty (by omega)] at hsent
    exact ⟨h.shadow, hsent⟩
  · rw [if_neg hi]
    obtain ⟨hshadow, -, hctrl⟩ := writeRows_spec row firstRow (lastRow + 1 - firstRow) d
    exact ⟨hshadow, hctrl⟩

variable (row) in
/-- What the copies of a window reach. -/
theorem sendRows_copies (iRAM : Bool) (hrow : ∀ i, (row i).length = chunkSize)
    (hle : firstRow ≤ lastRow) :
    (∀ c ∈ d.copies, c ∈ (sendRows iRAM row chunkSize firstRow lastRow d).copies) ∧
    ∀ c ∈ (sendRows iRAM row chunkSize firstRow lastRow d).copies, c ∈ d.copies ∨ iRAM = true ∧
      c ≤ max chunkSize ST_PAGE_BLOCK ∧ c ≤ (lastRow + 1 - firstRow) * chunkSize := by
  rw [sendRows]
  by_cases hi : iRAM = true
  · rw [if_pos hi]
    have h : Bounced row chunkSize lastRow firstRow d _ _ :=
      bounceRows_spec hrow (lastRow + 1 - firstRow) (by omega)
    refine ⟨h.old, fun c hc => ?_⟩
    rcases h.copies c hc with hc | hc
    · exact .inl hc
    · exact .inr ⟨hi, hc⟩
  · rw [if_neg hi, (writeRows_spec row firstRow (lastRow + 1 - firstRow) d).2.1]
    exact ⟨fun c hc => hc, fun c hc => .inl hc⟩

/-- Rows that fit into `PAGE_BLOCK` are copied one behind the other. -/
theorem sendRows_reaches (hrow : ∀ i, (row i).length = chunkSize) {n : ℕ} (hn : 0 < n)
    (hle : firstRow + n ≤ lastRow + 1) (hfit : n * chunkSize ≤ ST_PAGE_BLOCK) :
    n * chunkSize ∈ (sendRows true row chunkSize firstRow lastRow d).copies := by
  rw [sendRows, if_pos rfl]
  have h : Bounced row chunkSize lastRow firstRow d _ _ :=
    bounceRows_spec hrow (lastRow + 1 - firstRow) (by omega)
  have hreach := h.reach (n - 1) (by omega) (by omega)
  rw [Nat.sub_add_cancel hn] at hreach
  exact hreach hfit

end Sending

/-! ### The rows -/

section Rows

variable {p : Format} {g : Screen} {frame : Frame}

/-- The display lies in the memory of the controller, whose addresses are of sixteen bits. -/
structure Screen.Lies (g : Screen) : Prop where
  rows : g.offsetHeight + g.height ≤ 65536
  cols : g.offsetWidth + g.width ≤ 65536

/-- The window is set, and the cursor is at its first cell. -/
theorem setWindow_ctrl (d : Panel) (bytes : ℕ) {firstCol lastCol firstRow lastRow : ℕ}
    (hfc : firstCol < 65536) (hlc : lastCol < 65536) (hfr : firstRow < 65536) (hlr : lastRow < 65536) :
    (((d.setRowAddress 65536 firstRow lastRow).setColumnAddress 65536 bytes firstCol
      lastCol).enableWrite).ctrl =
      ⟨d.ctrl.cell, firstCol * bytes, lastCol * bytes + (bytes - 1), firstRow, lastRow, firstRow,
        firstCol * bytes⟩ := by
  show Memory.mk d.ctrl.cell (firstCol % 65536 * bytes) (lastCol % 65536 * bytes + (bytes - 1))
    (firstRow % 65536) (lastRow % 65536) (firstRow % 65536) (firstCol % 65536 * bytes) = _
  rw [Nat.mod_eq_of_lt hfc, Nat.mod_eq_of_lt hlc, Nat.mod_eq_of_lt hfr, Nat.mod_eq_of_lt hlr]

/-- The window shows the shadow, and all else is as it was. -/
theorem sendWindow_cell (hpos : 0 < p.bytes) (hlies : g.Lies) {firstCol lastCol firstRow lastRow : ℕ}
    (hcol : firstCol ≤ lastCol) (hwidth : lastCol < g.width) (hrow : firstRow ≤ lastRow)
    (hheight : lastRow < g.height) (d : Panel) :
    (sendWindow p g firstCol lastCol firstRow lastRow d).shadow = d.shadow ∧
      ∀ q b, (sendWindow p g firstCol lastCol firstRow lastRow d).ctrl.cell (g.offsetHeight + q)
          (g.offsetWidth * p.bytes + b) =
        if firstRow ≤ q ∧ q ≤ lastRow ∧ firstCol * p.bytes ≤ b ∧ b < (lastCol + 1) * p.bytes then
          d.shadow (q * (g.width * p.bytes) + b)
        else d.ctrl.cell (g.offsetHeight + q) (g.offsetWidth * p.bytes + b) := by
  obtain ⟨k, rfl⟩ := Nat.exists_eq_add_of_le hcol
  have hlr := hlies.rows
  have hlc := hlies.cols
  have hchunk : firstCol + k - firstCol + 1 = k + 1 := by omega
  have hctrl := setWindow_ctrl d p.bytes (show firstCol + g.offsetWidth < 65536 by omega)
    (show firstCol + k + g.offsetWidth < 65536 by omega)
    (show firstRow + g.offsetHeight < 65536 by omega) (show lastRow + g.offsetHeight < 65536 by omega)
  rw [sendWindow, hchunk]
  obtain ⟨hshadow, hsent⟩ := sendRows_spec
    (d := ((d.setRowAddress 65536 (firstRow + g.offsetHeight) (lastRow + g.offsetHeight)).setColumnAddress
      65536 p.bytes (firstCol + g.offsetWidth) (firstCol + k + g.offsetWidth)).enableWrite)
    (fun i => slice d.shadow ((i * g.width + firstCol) * p.bytes) ((k + 1) * p.bytes)) g.iRAM (fun i => length_slice ..) hrow
  refine ⟨hshadow, fun q b => ?_⟩
  have hblock : (List.range' firstRow (lastRow + 1 - firstRow)).flatMap
      (fun i => slice d.shadow ((i * g.width + firstCol) * p.bytes) ((k + 1) * p.bytes)) =
      block (fun i j => d.shadow (((firstRow + i) * g.width + firstCol) * p.bytes + j))
        (lastRow + 1 - firstRow) ((k + 1) * p.bytes) := by
    rw [List.range'_eq_map_range, List.flatMap_map]
    rfl
  have hfull : (firstCol + k + g.offsetWidth) * p.bytes + (p.bytes - 1) + 1 =
      (firstCol + g.offsetWidth) * p.bytes + (k + 1) * p.bytes := by
    rw [Nat.add_assoc, Nat.sub_add_cancel hpos]
    ring
  rw [hctrl, hblock, Memory.write_rows _ rfl (Nat.mul_pos (Nat.succ_pos k) hpos) hfull (by
    show firstRow + g.offsetHeight + (lastRow + 1 - firstRow) ≤ lastRow + g.offsetHeight + 1
    omega)] at hsent
  refine (congrFun (congrFun (congrArg Memory.cell hsent) (g.offsetHeight + q))
    (g.offsetWidth * p.bytes + b)).trans ?_
  show (if firstRow + g.offsetHeight ≤ g.offsetHeight + q ∧
      g.offsetHeight + q < firstRow + g.offsetHeight + (lastRow + 1 - firstRow) ∧
      (firstCol + g.offsetWidth) * p.bytes ≤ g.offsetWidth * p.bytes + b ∧
      g.offsetWidth * p.bytes + b < (firstCol + g.offsetWidth) * p.bytes + (k + 1) * p.bytes then
    d.shadow (((firstRow + (g.offsetHeight + q - (firstRow + g.offsetHeight))) * g.width + firstCol) *
      p.bytes + (g.offsetWidth * p.bytes + b - (firstCol + g.offsetWidth) * p.bytes))
    else d.ctrl.cell (g.offsetHeight + q) (g.offsetWidth * p.bytes + b)) = _
  have hstart : (firstCol + g.offsetWidth) * p.bytes = g.offsetWidth * p.bytes + firstCol * p.bytes := by
    ring
  have hstop : (firstCol + k + 1) * p.bytes = firstCol * p.bytes + (k + 1) * p.bytes := by ring
  by_cases hin : firstRow ≤ q ∧ q ≤ lastRow ∧ firstCol * p.bytes ≤ b ∧
      b < (firstCol + k + 1) * p.bytes
  · rw [if_pos hin, if_pos (by omega)]
    obtain ⟨hfq, -, hfb, -⟩ := hin
    have hq : firstRow + (g.offsetHeight + q - (firstRow + g.offsetHeight)) = q := by omega
    have hb : g.offsetWidth * p.bytes + b - (firstCol + g.offsetWidth) * p.bytes =
        b - firstCol * p.bytes := by omega
    rw [hq, hb, Nat.add_mul, Nat.mul_assoc, Nat.add_assoc, Nat.add_sub_cancel' hfb]
  · rw [if_neg hin, if_neg (by omega)]

theorem Pending.Within.mono {t : Pending} {words m n : ℕ} (h : t.Within words m) (hle : m ≤ n) :
    t.Within words n :=
  ⟨h.unset, fun f hf => ⟨(h.set f hf).1, (h.set f hf).2.1.trans_le hle, (h.set f hf).2.2⟩⟩

/-- The first `r` rows show the framebuffer, but for what is in the window; the others are as they
were. -/
structure WindowDone (p : Format) (g : Screen) (frame s₀ : Frame) (m₀ : Memory UInt8) (r : ℕ)
    (t : Pending) : Prop where
  shadow : t.panel.shadow = s₀.copy frame 0 (r * (g.width * p.bytes))
  within : t.Within (p.words g.width) r
  shows : ∀ q < r, ∀ b < g.width * p.bytes, t.Has q (b / p.wordBytes) ∨
    t.panel.ctrl.cell (g.offsetHeight + q) (g.offsetWidth * p.bytes + b) =
      frame (q * (g.width * p.bytes) + b)
  rest : ∀ q, r ≤ q → ∀ b, t.panel.ctrl.cell (g.offsetHeight + q) (g.offsetWidth * p.bytes + b) =
    m₀.cell (g.offsetHeight + q) (g.offsetWidth * p.bytes + b)

theorem current_st {m : Memory UInt8} {s f : Frame} {q : ℕ} : (layoutSt p g).Current m s f q ↔
    ∀ b < g.width * p.bytes, s (q * (g.width * p.bytes) + b) = f (q * (g.width * p.bytes) + b) →
      m.cell (g.offsetHeight + q) (g.offsetWidth * p.bytes + b) = f (q * (g.width * p.bytes) + b) :=
  Iff.rfl

variable {s₀ : Frame} {m₀ : Memory UInt8}

/-- A row is looked at. -/
theorem WindowDone.scan (hp : p.Holds g.width)
    (hcur : ∀ q < g.height, (layoutSt p g).Current m₀ s₀ frame q) {r : ℕ} (hr : r < g.height)
    {t : Pending} (h : WindowDone p g frame s₀ m₀ r t) :
    WindowDone p g frame s₀ m₀ (r + 1) (scanPixels p frame (r * (p.words g.width * p.wordBytes)) r
      (p.words g.width) t) := by
  obtain ⟨hshadow, hwithin, hshows, hrest⟩ := h
  obtain ⟨hshadow', hctrl, -, hwithin', hgrows, hfinds, -⟩ := scanPixels_spec p frame
    (r * (p.words g.width * p.wordBytes)) r (hwithin.mono (Nat.le_succ r)) (Nat.le_refl (p.words g.width))
  generalize scanPixels p frame (r * (p.words g.width * p.wordBytes)) r (p.words g.width) t = t' at *
  rw [hp.row] at hshadow' hfinds
  refine ⟨?_, hwithin', fun q hq b hb => ?_, fun q hq b => ?_⟩
  · rw [hshadow', hshadow, Frame.copy_row]
  · rw [hctrl]
    rcases Nat.lt_succ_iff_lt_or_eq.mp hq with hq | rfl
    · rcases hshows q hq b hb with hhas | hshow
      · exact .inl (hgrows q _ hhas)
      · exact .inr hshow
    · have hc : b / p.wordBytes < p.words g.width := by
        rw [Nat.div_lt_iff_lt_mul hp.wordPos, hp.row]
        exact hb
      by_cases hd : t.panel.shadow.differs frame
          (q * (g.width * p.bytes) + b / p.wordBytes * p.wordBytes) p.wordBytes = true
      · exact .inl (hfinds _ hc hd)
      · -- the word has not changed, and is shown already
        have hsame := Frame.differs_eq_false_iff.mp (Bool.eq_false_iff.mpr hd) (b % p.wordBytes)
          (Nat.mod_lt _ hp.wordPos)
        rw [Nat.add_assoc, Nat.div_add_mod', hshadow, Frame.copy_out (by omega)] at hsame
        exact .inr ((hrest q (Nat.le_refl q) b).trans (current_st.mp (hcur q hr) b hb hsame))
  · rw [hctrl]
    exact hrest q (by omega) b

/-- The window is sent. -/
theorem WindowDone.send (hp : p.Holds g.width) (hlies : g.Lies) {r : ℕ} (hr : r ≤ g.height)
    {t : Pending} (h : WindowDone p g frame s₀ m₀ r t) {firstRow : ℕ}
    (hfirst : t.firstRow = some firstRow) :
    WindowDone p g frame s₀ m₀ r
      { panel := sendWindow p g (p.firstPixel t.firstCol) (p.lastPixel t.lastCol) firstRow t.lastRow
          t.panel
        firstCol := p.words g.width
        lastCol := 0
        firstRow := none
        lastRow := t.lastRow } := by
  obtain ⟨hshadow, hwithin, hshows, hrest⟩ := h
  obtain ⟨hrows, hlast, hcols, hwords⟩ := hwithin.set firstRow hfirst
  obtain ⟨hsent, hcell⟩ := sendWindow_cell hp.pos hlies (hp.le hcols) (hp.inside _ hwords) hrows
    (hlast.trans_le hr) t.panel
  refine ⟨hsent.trans hshadow, ⟨fun _ => ⟨rfl, rfl⟩, fun f hf => (nomatch hf)⟩,
    fun q hq b hb => .inr ((hcell q b).trans ?_), fun q hq b => (hcell q b).trans ?_⟩
  · by_cases hin : firstRow ≤ q ∧ q ≤ t.lastRow ∧ p.firstPixel t.firstCol * p.bytes ≤ b ∧
        b < (p.lastPixel t.lastCol + 1) * p.bytes
    · rw [if_pos hin, hshadow]
      exact Frame.copy_rows hq hb
    · -- what is in the window is in the pixels that are sent
      rw [if_neg hin]
      rcases hshows q hq b hb with ⟨f, hf, hfq, hql, hfc, hcl⟩ | hshow
      · rw [hfirst] at hf
        cases hf
        refine absurd ⟨hfq, hql, ?_, ?_⟩ hin
        · calc p.firstPixel t.firstCol * p.bytes ≤ t.firstCol * p.wordBytes := hp.first _
            _ ≤ b / p.wordBytes * p.wordBytes := Nat.mul_le_mul_right _ hfc
            _ ≤ b := Nat.div_mul_le_self b p.wordBytes
        · calc b < (b / p.wordBytes + 1) * p.wordBytes := Nat.lt_mul_of_div_lt (Nat.lt_succ_self _) hp.wordPos
            _ ≤ (t.lastCol + 1) * p.wordBytes := Nat.mul_le_mul_right _ (Nat.succ_le_succ hcl)
            _ ≤ (p.lastPixel t.lastCol + 1) * p.bytes := hp.last _
      · exact hshow
  · rw [if_neg (by omega)]
    exact hrest q hq b

theorem WindowDone.step (hp : p.Holds g.width) (hlies : g.Lies)
    (hcur : ∀ q < g.height, (layoutSt p g).Current m₀ s₀ frame q) {r : ℕ} (hr : r < g.height)
    {t : Pending} (h : WindowDone p g frame s₀ m₀ r t) :
    WindowDone p g frame s₀ m₀ (r + 1) (windowStep p g frame t r) := by
  have hscan := h.scan hp hcur hr
  rw [windowStep]
  generalize scanPixels p frame (r * (p.words g.width * p.wordBytes)) r (p.words g.width) t = t' at hscan
  split
  · exact hscan
  · rename_i firstRow hfirst
    split
    · exact hscan
    · exact hscan.send hp hlies hr hfirst

theorem windowRows_succ (d : Panel) (n : ℕ) :
    windowRows p g frame d (n + 1) = windowStep p g frame (windowRows p g frame d n) n := by
  rw [windowRows, List.range_succ, List.foldl_append]
  rfl

/-- Behind the last row nothing is left in the window. -/
theorem windowRows_last (d : Panel) : (windowRows p g frame d g.height).firstRow = none := by
  rcases hn : g.height with - | n
  · rfl
  · rw [windowRows_succ, windowStep]
    split
    · assumption
    · rw [if_neg (fun hwait => hwait.2 (by omega))]

/-- All rows. -/
theorem windowRows_done (hp : p.Holds g.width) (hlies : g.Lies) {d : Panel}
    (hcur : ∀ q < g.height, (layoutSt p g).Current d.ctrl d.shadow frame q) {n : ℕ}
    (hn : n ≤ g.height) : WindowDone p g frame d.shadow d.ctrl n (windowRows p g frame d n) := by
  induction n with
  | zero =>
      refine ⟨?_, ⟨fun _ => ⟨rfl, rfl⟩, fun f hf => (nomatch hf)⟩,
        fun q hq => absurd hq (Nat.not_lt_zero q), fun _ _ _ => rfl⟩
      rw [Nat.zero_mul, Frame.copy_zero]
      rfl
  | succ n ih =>
      rw [windowRows_succ]
      exact (ih (by omega)).step hp hlies hcur (by omega)

/-- An update by windows leaves the memory and the shadow as the framebuffer is. -/
theorem window_shows (hp : p.Holds g.width) (hlies : g.Lies) {d : Panel}
    (hcur : ∀ q < g.height, (layoutSt p g).Current d.ctrl d.shadow frame q) :
    Updated (layoutSt p g) frame (updateWindow p g frame d) := by
  obtain ⟨hshadow, -, hshows, -⟩ := windowRows_done hp hlies hcur (Nat.le_refl g.height)
  refine ⟨fun q hq b hb => ?_, fun q hq b hb => ?_⟩
  · rw [updateWindow, hshadow]
    exact Frame.copy_rows hq hb
  · rcases hshows q hq b hb with ⟨f, hf, -⟩ | hshow
    · rw [windowRows_last] at hf
      cases hf
    · exact hshow

/-! ### Copies -/

/-- What a row copies; nothing that was copied is forgotten. -/
theorem windowStep_copies (hp : p.Holds g.width) {r : ℕ} (hr : r < g.height) {t : Pending}
    (hwithin : t.Within (p.words g.width) r) :
    (∀ c ∈ t.panel.copies, c ∈ (windowStep p g frame t r).panel.copies) ∧
    ∀ c ∈ (windowStep p g frame t r).panel.copies, c ∈ t.panel.copies ∨ g.iRAM = true ∧
      c ≤ max (g.width * p.bytes) ST_PAGE_BLOCK ∧ c ≤ g.height * (g.width * p.bytes) := by
  obtain ⟨-, -, hcopies, hwithin', -, -, -⟩ := scanPixels_spec p frame
    (r * (p.words g.width * p.wordBytes)) r (hwithin.mono (Nat.le_succ r)) (Nat.le_refl (p.words g.width))
  rw [windowStep]
  generalize scanPixels p frame (r * (p.words g.width * p.wordBytes)) r (p.words g.width) t = t' at *
  rw [← hcopies]
  split
  · exact ⟨fun c hc => hc, fun c hc => .inl hc⟩
  · rename_i firstRow hfirst
    split
    · exact ⟨fun c hc => hc, fun c hc => .inl hc⟩
    · obtain ⟨hrows, hlast, hcols, hwords⟩ := hwithin'.set firstRow hfirst
      have hchunk : (p.lastPixel t'.lastCol - p.firstPixel t'.firstCol + 1) * p.bytes ≤
          g.width * p.bytes := by
        refine Nat.mul_le_mul_right _ ?_
        have := hp.inside _ hwords
        omega
      obtain ⟨hold, hnew⟩ := sendRows_copies
        (d := ((t'.panel.setRowAddress 65536 (firstRow + g.offsetHeight)
          (t'.lastRow + g.offsetHeight)).setColumnAddress 65536 p.bytes
          (p.firstPixel t'.firstCol + g.offsetWidth) (p.lastPixel t'.lastCol + g.offsetWidth)).enableWrite)
        (fun i => slice t'.panel.shadow ((i * g.width + p.firstPixel t'.firstCol) * p.bytes)
          ((p.lastPixel t'.lastCol - p.firstPixel t'.firstCol + 1) * p.bytes))
        g.iRAM (fun i => length_slice ..) hrows
      refine ⟨hold, fun c hc => ?_⟩
      rcases hnew c hc with hc | ⟨hi, hblock, hall⟩
      · exact .inl hc
      · refine .inr ⟨hi, hblock.trans (max_le_max_right _ hchunk), hall.trans ?_⟩
        exact Nat.mul_le_mul (by omega) hchunk

theorem windowRows_within (hp : p.Holds g.width) (hlies : g.Lies) {d : Panel}
    (hcur : ∀ q < g.height, (layoutSt p g).Current d.ctrl d.shadow frame q) {n : ℕ}
    (hn : n ≤ g.height) : (windowRows p g frame d n).Within (p.words g.width) n :=
  (windowRows_done hp hlies hcur hn).within

/-- No copy goes further than `PAGE_BLOCK` or a row, or than the rows there are. -/
theorem window_copies (hp : p.Holds g.width) (hlies : g.Lies) {d : Panel}
    (hcur : ∀ q < g.height, (layoutSt p g).Current d.ctrl d.shadow frame q) :
    ∀ c ∈ (updateWindow p g frame d).copies, c ∈ d.copies ∨ g.iRAM = true ∧
      c ≤ max (g.width * p.bytes) ST_PAGE_BLOCK ∧ c ≤ g.height * (g.width * p.bytes) := by
  have hrun : ∀ n ≤ g.height, ∀ c ∈ (windowRows p g frame d n).panel.copies, c ∈ d.copies ∨
      g.iRAM = true ∧ c ≤ max (g.width * p.bytes) ST_PAGE_BLOCK ∧
        c ≤ g.height * (g.width * p.bytes) := by
    intro n
    induction n with
    | zero => exact fun _ c hc => .inl hc
    | succ n ih =>
        intro hn c hc
        rw [windowRows_succ] at hc
        rcases (windowStep_copies hp (by omega) (windowRows_within hp hlies hcur (by omega))).2 c hc
          with hc | hc
        · exact ih (by omega) c hc
        · exact .inr hc
  exact hrun g.height (Nat.le_refl _)

/-! ### The room in `iRAM` -/

/-- `iRAM` holds what is copied: there is none, or the rows that are copied together are whole. -/
def Screen.Fits (p : Format) (g : Screen) : Prop :=
  g.iRAM = false ∨ g.height ≤ 9 ∨ ST_PAGE_BLOCK ≤ 9 * (g.width * p.bytes)

theorem stIram_eq (p : Format) (g : Screen) :
    stIram p g = (min 8 (ST_PAGE_BLOCK / (g.width * p.bytes)) + 1) * (g.width * p.bytes) :=
  Nat.mul_assoc ..

theorem le_stIram (hpos : 0 < g.width * p.bytes)
    (hfits : g.height ≤ 9 ∨ ST_PAGE_BLOCK ≤ 9 * (g.width * p.bytes)) {c : ℕ}
    (hblock : c ≤ max (g.width * p.bytes) ST_PAGE_BLOCK)
    (hall : c ≤ g.height * (g.width * p.bytes)) : c ≤ stIram p g := by
  rw [stIram_eq]
  generalize g.width * p.bytes = w at *
  by_cases hsize : 8 ≤ ST_PAGE_BLOCK / w
  · rw [Nat.min_eq_left hsize]
    rcases hfits with hheight | hwide
    · exact hall.trans (Nat.mul_le_mul_right w hheight)
    · refine hblock.trans (max_le ?_ hwide)
      omega
  · -- a page is smaller than it could be, and one row more is enough
    rw [Nat.min_eq_right (by omega)]
    refine hblock.trans (max_le (Nat.le_mul_of_pos_left w (Nat.succ_pos _)) ?_)
    rw [Nat.mul_comm]
    exact (Nat.lt_mul_div_succ ST_PAGE_BLOCK hpos).le

theorem stIram_small (hpos : 0 < g.width * p.bytes) (hsmall : 9 * (g.width * p.bytes) < ST_PAGE_BLOCK) :
    stIram p g = 9 * (g.width * p.bytes) := by
  rw [stIram_eq]
  have hsize : 8 ≤ ST_PAGE_BLOCK / (g.width * p.bytes) := by
    rw [Nat.le_div_iff_mul_le hpos]
    omega
  rw [Nat.min_eq_left hsize]

/-! ### A narrow window -/

/-- The first `m` words are whole pixels. -/
structure Format.Whole (p : Format) (m : ℕ) : Prop where
  pos : 0 < m
  area : ∀ rows, p.area m rows = m * p.wordBytes * rows
  first : p.firstPixel 0 = 0
  last : (p.lastPixel (m - 1) + 1) * p.bytes = m * p.wordBytes

/-- The first `m` words of each row change, and the others do not. -/
def Strip (p : Format) (g : Screen) (frame s : Frame) (m : ℕ) : Prop :=
  ∀ q < g.height, ∀ c < p.words g.width,
    s.differs frame (q * (g.width * p.bytes) + c * p.wordBytes) p.wordBytes = true ↔ c < m

/-- They are in the window, and nothing else is. -/
structure Gathered (p : Format) (g : Screen) (m n : ℕ) (t : Pending) : Prop where
  within : t.Within (p.words g.width) n
  has : ∀ q < n, ∀ c < m, t.Has q c
  tight : t.lastCol < m

theorem Gathered.scan (hp : p.Holds g.width) {m : ℕ} (hm : m ≤ p.words g.width) {s : Frame}
    (hstrip : Strip p g frame s m) {r : ℕ} (hr : r < g.height) {t : Pending}
    (hshadow : t.panel.shadow = s.copy frame 0 (r * (g.width * p.bytes)))
    (h : Gathered p g m r t) : Gathered p g m (r + 1) (scanPixels p frame
      (r * (p.words g.width * p.wordBytes)) r (p.words g.width) t) := by
  obtain ⟨-, -, -, hwithin, hgrows, hfinds, htight⟩ := scanPixels_spec p frame
    (r * (p.words g.width * p.wordBytes)) r (h.within.mono (Nat.le_succ r))
    (Nat.le_refl (p.words g.width))
  -- the row is still what it was
  have hword : ∀ c, t.panel.shadow.differs frame (r * (p.words g.width * p.wordBytes) +
      c * p.wordBytes) p.wordBytes = s.differs frame (r * (g.width * p.bytes) + c * p.wordBytes)
        p.wordBytes := by
    intro c
    rw [hp.row, hshadow]
    refine Frame.differs_congr fun k _ => Frame.copy_out (by omega)
  refine ⟨hwithin, fun q hq c hc => ?_, htight m h.tight fun c hc hdiff => ?_⟩
  · rcases Nat.lt_succ_iff_lt_or_eq.mp hq with hq | rfl
    · exact hgrows q c (h.has q hq c hc)
    · exact hfinds c (hc.trans_le hm) ((hword c).trans ((hstrip q hr c (hc.trans_le hm)).mpr hc))
  · exact (hstrip r hr c hc).mp ((hword c).symm.trans hdiff)

/-- The window that is gathered, exactly. -/
theorem Gathered.window {m n : ℕ} (hm : 0 < m) {t : Pending} (h : Gathered p g m (n + 1) t) :
    t.firstRow = some 0 ∧ t.lastRow = n ∧ t.firstCol = 0 ∧ t.lastCol = m - 1 := by
  obtain ⟨f, hf, hf0, -, hcol, -⟩ := h.has 0 (Nat.succ_pos n) 0 hm
  obtain ⟨f', hf', -, hn, -, hlast⟩ := h.has n (Nat.lt_succ_self n) (m - 1) (by omega)
  obtain ⟨-, hlt, -, -⟩ := h.within.set f hf
  have htight := h.tight
  refine ⟨?_, by omega, by omega, by omega⟩
  rw [hf, Nat.le_zero.mp hf0]

/-- A strip of which more than ten rows fit into `PAGE_BLOCK`: ten rows are copied one behind the
other. -/
theorem window_reaches (hp : p.Holds g.width) (hlies : g.Lies) (hiram : g.iRAM = true)
    (hheight : 10 ≤ g.height) {m : ℕ} (hm : m ≤ p.words g.width) (hwhole : p.Whole m)
    (hfit : 10 * (m * p.wordBytes) < ST_PAGE_BLOCK) {d : Panel}
    (hcur : ∀ q < g.height, (layoutSt p g).Current d.ctrl d.shadow frame q)
    (hstrip : Strip p g frame d.shadow m) :
    10 * (m * p.wordBytes) ∈ (updateWindow p g frame d).copies := by
  have hrun : ∀ n ≤ g.height, 10 * (m * p.wordBytes) ∈ (windowRows p g frame d n).panel.copies ∨
      Gathered p g m n (windowRows p g frame d n) := by
    intro n
    induction n with
    | zero =>
        refine fun _ => .inr ⟨⟨fun _ => ⟨rfl, rfl⟩, fun f hf => (nomatch hf)⟩,
          fun q hq => absurd hq (Nat.not_lt_zero q), hwhole.pos⟩
    | succ n ih =>
        intro hn
        have hdone := windowRows_done hp hlies hcur (show n ≤ g.height by omega)
        rw [windowRows_succ]
        rcases ih (by omega) with hcopied | hgathered
        · exact .inl ((windowStep_copies hp (by omega) hdone.within).1 _ hcopied)
        · have hscan := hgathered.scan hp hm hstrip (by omega) hdone.shadow
          rw [windowStep]
          generalize scanPixels p frame (n * (p.words g.width * p.wordBytes)) n (p.words g.width)
            (windowRows p g frame d n) = t at hscan
          obtain ⟨hfirst, hlast, hfc, hlc⟩ := hscan.window hwhole.pos
          have hcols : t.lastCol - t.firstCol + 1 = m := by
            have := hwhole.pos
            omega
          rw [hfirst, hcols]
          dsimp only
          rw [hwhole.area]
          by_cases hwait : m * p.wordBytes * (n - 0 + 1) < ST_PAGE_BLOCK ∧ n ≠ g.height - 1
          · rw [if_pos hwait]
            exact .inr hscan
          · -- by now there are ten rows
            rw [if_neg hwait]
            have hten : 10 ≤ n + 1 := by
              by_contra hlt
              refine hwait ⟨?_, by omega⟩
              calc m * p.wordBytes * (n - 0 + 1) ≤ m * p.wordBytes * 10 := Nat.mul_le_mul_left _ (by omega)
                _ = 10 * (m * p.wordBytes) := Nat.mul_comm ..
                _ < ST_PAGE_BLOCK := hfit
            left
            show _ ∈ (sendWindow p g _ _ 0 t.lastRow t.panel).copies
            have hchunk : (p.lastPixel (m - 1) - 0 + 1) * p.bytes = m * p.wordBytes := hwhole.last
            rw [sendWindow, hfc, hlc, hwhole.first, hiram, hchunk, hlast]
            exact sendRows_reaches (fun i => length_slice ..) (by decide) (by omega) hfit.le
  rcases hrun g.height (Nat.le_refl _) with hcopied | hgathered
  · exact hcopied
  · obtain ⟨f, hf, -⟩ := hgathered.has 0 (by omega) 0 hwhole.pos
    rw [windowRows_last] at hf
    cases hf

end Rows

end Gds

end SqueezeliteMuse
