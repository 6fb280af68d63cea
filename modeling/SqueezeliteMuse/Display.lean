/-
SqueezeliteMuse/Display.lean

The handlers of displayer.c, and the two that are chained behind them (audo of
output_i2s.c, eqlz of output_embedded.c).

Lengths are computed as in the source: in unsigned numbers that wrap, so that a
packet shorter than its struct asks for nearly all of the memory.  A bitmap is
drawn as gds_draw.c does it for a display without a drawing of its own: a width
of zero stands for the width of the display.
-/
import SqueezeliteMuse.Player

namespace SqueezeliteMuse

open Octets

/-- `LINELEN` -/
def LINELEN : ℕ := 40

/-- `SB_HEIGHT`, which is also `VU_HEIGHT`. -/
def SB_HEIGHT : ℤ := 32

/-- `VU_COUNT` -/
def VU_COUNT : ℤ := 48

/-- `DISPLAY_BW` -/
def DISPLAY_BW : ℤ := 20000

/-- `MAX_BARS` -/
def MAX_BARS : ℤ := 32

/-- `VISU_ESP32` -/
def VISU_ESP32 : UInt8 := 0x10

/-- `VISU_SPECTRUM` -/
def VISU_SPECTRUM : UInt8 := 0x02

/-- `ANIM_TRANSITION` -/
def ANIM_TRANSITION : ℕ := 0x01

/-- `memcpy` of the bytes `bs` to `at` in a block. -/
def Ram.copy (f : Ram) (start : ℤ) (bs : List UInt8) : Ram := fun i =>
  if start ≤ i then bs.getD (i - start).toNat (f i) else f i

/-- `memset` with zero of the first `n` bytes. -/
def Ram.zero (f : Ram) (n : ℕ) : Ram := fun i => if 0 ≤ i ∧ i < n then 0 else f i

namespace Player

/-! ### vfdc -/

/-- `charisok` -/
def charisok (c : UInt8) : Bool :=
  c = 11 || c = 16 || c = 22 || c = 145 || c = 152 || (0x20 ≤ c && c ≤ 0x7e)

/-- `makeprintable` -/
def makeprintable (line : List UInt8) : List UInt8 :=
  line.map fun c =>
    if c = 11 then 0x23 else if c = 16 then 0x3e else if c = 22 then 0x40
    else if c = 145 then 0x20 else if c = 152 then 0x6f else c

/-- The two lines, blank. -/
def blank : List UInt8 := List.replicate (LINELEN * 2) 0x20

/-- One element of display data: its type and its character or command.  The
cell behind the two lines is overwritten when they are shown, and left out. -/
def vfdcElement (s : List UInt8 × ℕ) (t c : UInt8) : List UInt8 × ℕ :=
  if t = 0x03 then
    if s.2 ≤ LINELEN * 2 then (s.1.set s.2 (if charisok c then c else 0x20), s.2 + 1) else s
  else if t = 0x02 then
    if c = 0x06 then (blank, s.2)
    else if c = 0x02 then (s.1, 0)
    else if c = 0xc0 then (s.1, LINELEN)
    else s
  else s

/-- The first `n` elements of the display data, which starts at byte 10. -/
def vfdcElements (data : ℕ → UInt8) : ℕ → List UInt8 × ℕ
  | 0 => (blank, 0)
  | n + 1 => vfdcElement (vfdcElements data n) (data (10 + 2 * n)) (data (11 + 2 * n))

/-- `vfdc_handler` -/
def vfdcHandler (p : Player) (data : ℕ → UInt8) (len : ℕ) : Effect :=
  let ddram := (vfdcElements data ((len - 4) / 2)).1
  (p, [.textLines (makeprintable (ddram.take LINELEN)) (makeprintable (ddram.drop LINELEN))])

/-! ### grfe, grfb -/

/-- Something else has the main screen: a full-screen artwork, or a visualizer there. -/
def taken (p : Player) : Bool :=
  (p.visu.mode &&& VISU_ESP32 ≠ 0 && p.visu.col = 0 && p.visu.row < p.screen.height) ||
    p.artwork.full

/-- The columns in the rest of a packet, behind a header of eight bytes. -/
def columns (p : Player) (len : ℕ) : ℕ := u32 (u32 (len - 8) * 8) / p.screen.height

/-- What `GDS_DrawBitmapCBR` reads: a width of zero is the width of the display. -/
def bitmapSize (p : Player) (width : ℤ) : ℕ :=
  (if width = 0 then (p.screen.width : ℤ) else width).toNat * (p.screen.height / 8)

/-- The frame becomes the background of a screensaver visualizer. -/
def visuBack (p : Player) (data : ℕ → UInt8) (width : ℤ) : Visu :=
  let n := u32 ((width * p.screen.height).tdiv 8)
  let frame := (p.visu.backFrame.zero (p.screen.width * p.screen.height / 8)).copy 0
    (bytesAt data 8 n)
  { p.visu with
    backWidth := width
    backFrame := frame
    backActive := frame 0 ≠ 0 ∨ ¬ ∀ i < u32 (width - 1), frame i = frame (i + 1) }

/-- `grfe_handler` -/
def grfeHandler (p : Player) (data : ℕ → UInt8) (len : ℕ) : Effect :=
  let anic := if data 6 ≠ 0x63 then [.sendANIC ANIM_TRANSITION] else []
  let p' := { p with scroller.active := false }
  if p.taken then (p', anic)
  else if p.owned then
    let width := int32 (p.columns len)
    let wipe : Bool := p.dirty ||
      (p.artwork.enable && width = p.screen.width && p.artwork.y < p.screen.height)
    ({ p' with
        dirty := if wipe then false else p.dirty
        visu := if p.visu.mode &&& VISU_ESP32 = 0 then p.visuBack data width else p.visu },
      anic ++ (if wipe then [.clear] else []) ++
        [.drawBitmap (bytesAt data 8 (p.bitmapSize width)) width, .update])
  else (p', anic)

/-- `grfb_handler` -/
def grfbHandler (p : Player) (data : ℕ → UInt8) (_len : ℕ) : Effect :=
  let brightness := int16 (be data 4 2)
  (p, if brightness ≤ 0 then [.displayOff] else [.displayOn, .setContrast brightness])

/-! ### grfs, grfg -/

/-- A new scroll frame: the parameters. -/
def scrollSet (p : Player) (data : ℕ → UInt8) : Scroller :=
  let by' := be data 14 2
  { p.scroller with
    screen := data 4
    pause := be data 6 4
    speed := int32 (be data 10 4)
    mode := be data 16 2
    scrollWidth := be data 18 2
    first := true
    overflow := false
    scrolled := if data 5 = 1 then 0 else be data 18 2
    scrollBy := int16 (if data 5 = 1 then by' else (2 ^ 16 - by') % 2 ^ 16) }

/-- `grfs_handler` -/
def grfsHandler (p : Player) (data : ℕ → UInt8) (len : ℕ) : Effect :=
  let offset := be data 20 2
  let size := u32 (len - 22)
  let s := if offset = 0 then p.scrollSet data else p.scroller
  if u32 (s.scrollSize + size) < s.scrollMax ∧ s.overflow = false then
    ({ p with scroller := { s with
        scrollFrame := s.scrollFrame.copy offset (bytesAt data 22 size)
        scrollSize := u32 (offset + size) } }, [])
  else if p.screen.height / 8 = 0 then ({ p with scroller := s }, [.fault])
  else
    ({ p with scroller := { s with
        scrollWidth := u32 (s.scrollSize / (p.screen.height / 8) - s.backWidth)
        overflow := true } }, [])

/-- `grfg_handler` -/
def grfgHandler (p : Player) (data : ℕ → UInt8) (len : ℕ) : Effect :=
  if p.taken then (p, [])
  else
    let s := p.scroller
    let height : ℤ := p.screen.height
    let width := be data 6 2
    let backWidth := p.columns len
    let backFrame := s.backFrame.copy 0 (bytesAt data 8 (u32 (len - 8)))
    let base := s.frame.copy 0
      ((List.range (u32 (backWidth * height) / 8)).map fun i => backFrame i)
    let frame : Ram := fun i =>
      if 0 ≤ i ∧ i < u32 (width * height) / 8 then
        base i ||| s.scrollFrame ((s.scrolled * height).tdiv 8 + i) else base i
    ({ p with scroller := { s with
        width := width
        backWidth := backWidth
        backFrame := backFrame
        frame := frame
        active := s.active || p.visu.mode = 0 || p.visu.col ≠ 0 || height ≤ p.visu.row } },
      (if p.owned then
        [.drawBitmap ((List.range (p.bitmapSize (int32 backWidth))).map fun i => frame i)
          (int32 backWidth), .update]
      else []) ++ [.taskResume])

/-! ### grfa -/

/-- An artwork that only has its place given, or is switched off. -/
def artworkConfig (p : Player) (data : ℕ → UInt8) (length : ℤ) : Effect :=
  let a := if length ≠ 0 then { p.artwork with x := be data 8 2, y := be data 10 2 } else p.artwork
  ({ p with artwork := { a with
      enable := length ≠ 0
      full := length ≠ 0 ∧ a.x = 0 ∧ a.y = 0 } },
    if length = 0 ∧ p.artwork.size ≠ 0 then [.clearWindow p.artwork.x p.artwork.y] else [])

/-- The first packet of an artwork: its place, and memory for it. -/
def artworkFirst (p : Player) (data : ℕ → UInt8) : Artwork :=
  { p.artwork with
    size := 0
    x := be data 8 2
    y := be data 10 2
    full := be data 8 2 = 0 ∧ be data 10 2 = 0 }

/-- `grfa_handler` -/
def grfaHandler (p : Player) (data : ℕ → UInt8) (len : ℕ) : Effect :=
  let size := u32 (len - 16)
  let offset := int32 (be data 12 4)
  let length := int32 (be data 4 4)
  if length < 32 then p.artworkConfig data length
  else
    let a := if offset = 0 then p.artworkFirst data else p.artwork
    let a' := { a with
      enable := true
      data := a.data.copy offset (bytesAt data 16 size)
      size := u32 (a.size + size) }
    ({ p with artwork := a' },
      (if offset = 0 ∧ p.artwork.size ≠ 0 then [.clearWindow p.artwork.x p.artwork.y] else []) ++
        if (a'.size : ℤ) = length then
          [.clearWindow a'.x a'.y,
            .drawJPEG ((List.range a'.size).map fun i => a'.data i) a'.x a'.y
              (a'.y < p.screen.height)]
        else [])

/-! ### visu -/

/-- Whether the visualizer is a spectrum: `(visu.mode & ~VISU_ESP32) == VISU_SPECTRUM`. -/
def spectrum (mode : UInt8) : Bool := mode &&& ~~~VISU_ESP32 = VISU_SPECTRUM

/-- `spectrum_limits`, for `n` bars from the frequency `min` on. -/
def spectrumLimits (spread : ℤ → ℤ → ℤ) (min : ℤ) (n : ℕ) : List ℤ :=
  if _h : n / 2 = 0 then [DISPLAY_BW]
  else
    let step := spread min (n / 2 : ℕ)
    ((List.range (n / 2)).map fun i => min + step * (i + 1)) ++
      spectrumLimits spread (min + step * (n / 2 : ℕ)) (n - n / 2)
termination_by n

/-- The width of one of `n` bars. -/
def barWidth (v : Visu) (width n : ℤ) : ℤ := (width - v.border - v.barGap * (n - 1)).tdiv n

/-- The loop of `visu_fit`: how many bars there is room for, of `n + 1`, and their width. -/
def fitBars (v : Visu) (width : ℤ) : ℕ → ℕ × ℤ
  | 0 => if 0 < barWidth v width 1 then (1, barWidth v width 1) else (0, barWidth v width 1)
  | n + 1 =>
      if 0 < barWidth v width (n + 2) then (n + 2, barWidth v width (n + 2)) else fitBars v width n

/-- Less than no bars: limits are read from before the bars, or the loop of
`visu_fit` runs away from zero.  Only for -1 there are no limits, and with a
large border the loop ends at once. -/
def runsAway (v : Visu) (width : ℤ) : Bool :=
  v.n < 0 && !(v.n = -1 && 0 < barWidth v width (-1))

/-- The bars of `visu_fit`, once it is known how many are wanted. -/
def placeBars (v : Visu) (width : ℤ) : Visu :=
  let fit : ℤ × ℤ :=
    if v.n < 0 then (v.n, barWidth v width v.n)
    else ((fitBars v width (v.n.toNat - 1)).1, (fitBars v width (v.n.toNat - 1)).2)
  { v with
    n := fit.1
    barWidth := fit.2
    barBorder := (width - v.border - (fit.2 + v.barGap) * fit.1 + v.barGap).tdiv 2 }

/-- The scale, which is at most a half. -/
def clampScale (scale : ℕ) : ℕ := if scale = 0 ∨ 50 < scale then 50 else scale

/-- `visu_fit` up to its loop. -/
def visuPrepare (p : Player) (v : Visu) (bars height : ℤ) : Visu :=
  if spectrum v.mode then
    let n := if bars ≠ 0 then bars else MAX_BARS
    let scale := clampScale v.spectrumScale
    let limits := spectrumLimits (p.spread scale) 0 n.toNat
    { v with
      n := n
      max := height - 1
      spectrumScale := scale
      limit := fun i => limits.getD i (v.limit i) }
  else { v with n := 2, max := (if v.style ≠ 0 then VU_COUNT else height) - 1 }

/-- A visualizer given its place by the server. -/
def visuSmall (p : Player) (v : Visu) (data : ℕ → UInt8) : Visu × ℤ :=
  let col := int32 (be data 14 4)
  let row := int32 (be data 18 4)
  ({ v with
      style := 0
      width := int32 (be data 6 4)
      height := if be data 10 4 ≠ 0 then int32 (be data 10 4) else p.screen.height
      col := if col < 0 then p.screen.width + col else col
      row := if row < 0 then p.screen.gdsHeight + row else row
      border := int32 (be data 22 4)
      spectrumScale := be data 30 4 }, int32 (be data 26 4))

/-- Where a full-screen visualizer goes. -/
def visuLayout (p : Player) (v : Visu) (width : ℤ) : Visu :=
  let v' := { v with width := width }
  if p.screen.height < p.screen.gdsHeight then
    let v'' := { v' with
      height := p.screen.gdsHeight - p.screen.height
      row := p.screen.height }
    if p.artwork.enable ∧ p.artwork.y ≠ 0 then
      if width ≠ p.artwork.x then
        let height : ℤ := p.artwork.y - p.screen.height
        { v'' with height := if height ≤ 0 then p.screen.height else height }
      else { v'' with rotate := true }
    else v''
  else { v' with height := p.screen.gdsHeight, row := 0 }

/-- A full-screen visualizer. -/
def visuFull (p : Player) (v : Visu) (data : ℕ → UInt8) : Visu × ℤ :=
  let v' := p.visuLayout v (int32 (be data 6 4))
  if spectrum v.mode then ({ v' with spectrumScale := be data 14 4 }, int32 (be data 10 4))
  else ({ v' with style := int32 (be data 10 4) }, 0)

/-- At most `MAX_BARS` bars; for a rotated one, width and height are swapped. -/
def visuWanted (p : Player) (v : Visu) (bars : ℤ) : Visu :=
  p.visuPrepare v (if MAX_BARS < bars then MAX_BARS else bars) (if v.rotate then v.width else v.height)

/-- The extent along which the bars stand. -/
def extent (v : Visu) : ℤ := if v.rotate then v.height else v.width

/-- The bars in their places, all of them down; no visualizer if there is no room. -/
def visuPlaced (v : Visu) : Visu :=
  let w := placeBars v (extent v)
  { w with
    mode := if w.barWidth < 0 then 0 else w.mode
    barMax := fun i => if (i : ℤ) < w.n then 0 else w.barMax i }

/-- `visu_fit`, and what `visu_handler` does after it. -/
def visuFinish (p : Player) (v : Visu) (bars : ℤ) (calls : List Call) : Effect :=
  if runsAway (p.visuWanted v bars) (extent (p.visuWanted v bars)) then
    ({ p with visu := p.visuWanted v bars }, calls ++ [.fault])
  else
    let w := visuPlaced (p.visuWanted v bars)
    let hides : Bool := 0 ≤ w.barWidth ∧ w.row < p.screen.height
    ({ p with
        visu := w
        scroller.active := if hides then false else p.scroller.active
        wake := 0 },
      calls ++ (if w.barWidth < 0 then [] else [.taskResume]) ++
        [.clearExt w.col w.row (w.col + w.width - 1) (w.row + w.height - 1)])

/-- A visualizer of the ESP32: with a place of its own, or on the whole screen. -/
def visuEsp32 (p : Player) (v : Visu) (data : ℕ → UInt8) (calls : List Call) : Effect :=
  if 4 ≤ data 5 then p.visuFinish (p.visuSmall v data).1 (p.visuSmall v data).2 calls
  else p.visuFinish (p.visuFull v data).1 (p.visuFull v data).2 calls

/-- Where a screensaver visualizer goes. -/
def visuPlace (p : Player) (v : Visu) : Visu :=
  { v with
    row := 0
    height := p.screen.gdsHeight
    width := p.screen.width
    spectrumScale := 25 }

/-- A classical (screensaver) visualizer. -/
def visuClassical (p : Player) (v : Visu) (data : ℕ → UInt8) (calls : List Call) : Effect :=
  let w := p.visuPlace v
  if v.mode = VISU_SPECTRUM then
    let pitch := u32 (be data 30 4 + be data 34 4)
    if pitch = 0 then ({ p with visu := w }, calls ++ [.fault])
    else p.visuFinish w ((p.screen.width / pitch : ℕ) : ℤ) calls
  else
    let style := int32 (be data 10 4)
    p.visuFinish { w with style := style, row := if style ≠ 0 then w.height - SB_HEIGHT else 0 }
      0 calls

/-- What every visualizer starts from. -/
def visuReset (v : Visu) (mode : UInt8) : Visu :=
  { v with mode := mode, col := 0, border := 0, rotate := false }

/-- The last visualizer is cleaned off a taller screen. -/
def visuClean (p : Player) : List Call :=
  if p.screen.height ≤ p.visu.row then
    [.clearExt p.visu.col p.visu.row (p.visu.col + p.visu.width - 1)
      (p.visu.row + p.visu.height - 1)]
  else []

/-- `visu_handler` -/
def visuHandler (p : Player) (data : ℕ → UInt8) (_len : ℕ) : Effect :=
  if data 4 = 0 then ({ p with visu.mode := data 4 }, p.visuClean)
  else if data 4 &&& VISU_ESP32 ≠ 0 then
    p.visuEsp32 (visuReset p.visu (data 4)) data p.visuClean
  else p.visuClassical (visuReset p.visu (data 4)) data p.visuClean

/-- `dmxt_handler`, whose only effect is commented out. -/
def dmxtHandler (p : Player) (_data : ℕ → UInt8) (_len : ℕ) : Effect := (p, [])

/-! ### The chained handlers -/

/-- The audo handler. -/
def audoHandler (p : Player) (data : ℕ → UInt8) (_len : ℕ) : Effect :=
  let mutes : Bool := data 4 = 0
  if p.jackMutesAmp ≠ mutes then
    ({ p with jackMutesAmp := mutes }, [.saveJack mutes, .speaker !(mutes && p.jackInserted)])
  else (p, [])

/-- The eqlz handler: `equalizer_update` with the ten gains. -/
def eqlzHandler (p : Player) (data : ℕ → UInt8) (_len : ℕ) : Effect :=
  let gain := (bytesAt data 4 10).map fun g => g.toInt8.toInt
  ({ p with equalizerGain := gain, equalizerUpdate := true }, [.saveEqualizer gain])

end Player

end SqueezeliteMuse
