/-
SqueezeliteMuse/Jpeg.lean

`GDS_DrawJPEG` of gds_image.c, and what it makes of the tiles that the decoder gives.

Of a tile the rows above, and the columns left of what may be drawn are left out, but the pointer to
its pixels goes on only with those that are drawn.  So in a tile that begins above or left of that
area, all pixels are taken from too far in front.

Main result: `drawJPEG_iff`: the image is drawn where it was placed if and only if no pixel of it is
on the display that, last, is in such a tile.
-/
import SqueezeliteMuse.Pixels
import Mathlib.Data.Int.Notation

namespace SqueezeliteMuse

namespace Jpeg

open Gds Painting Pixels

/-! ### The colours -/

/-- `GDS_MONO` to `GDS_RGB888` -/
inductive GdsMode
  | mono | grayscale | rgb332 | rgb444 | rgb555 | rgb565 | rgb666 | rgb888
  deriving DecidableEq

/-- `Depth` -/
def depth : Mode → ℕ
  | .mono | .ssd1326 | .ssd1675 => 1
  | .gray4 => 4
  | .depth8 => 8
  | .depth16 => 16
  | .rgb666 | .rgb888 => 24

/-- The modes that a depth may have. -/
def Suits : Mode → GdsMode → Prop
  | .mono, g | .ssd1326, g | .ssd1675, g | .gray4, g => g = .mono ∨ g = .grayscale
  | .depth8, g => g = .mono ∨ g = .grayscale ∨ g = .rgb332
  | .depth16, g => g = .rgb444 ∨ g = .rgb555 ∨ g = .rgb565
  | .rgb666, g => g = .rgb666
  | .rgb888, g => g = .rgb888

/-- A display, and the `Mode` of its colours. -/
structure Screen extends Display where
  gds : GdsMode
  suits : Suits mode gds
  packed : Packed toDisplay

/-- A byte as an `int` -/
def int (b : UInt8) : Color := b.toBitVec.setWidth 32

/-- Its high bits -/
def above (b : UInt8) (mask : Color) : Color := int b &&& ~~~mask

variable (pixels : ℕ → UInt8)

/-- `Scaler332` -/
def scaler332 : Color :=
  above (pixels 2) 0x1f ||| (above (pixels 1) 0x1f >>> 3) ||| (int (pixels 0) >>> 6)

/-- `Scaler444` -/
def scaler444 : Color :=
  (above (pixels 2) 0x0f <<< 4) ||| above (pixels 1) 0x0f ||| (int (pixels 0) >>> 4)

/-- `Scaler555` -/
def scaler555 : Color :=
  (above (pixels 2) 0x07 <<< 7) ||| (above (pixels 1) 0x07 <<< 2) |||
    (int (pixels 0) >>> 3)

/-- `Scaler565` -/
def scaler565 : Color :=
  (above (pixels 2) 0x07 <<< 8) ||| (above (pixels 1) 0x03 <<< 3) |||
    (int (pixels 0) >>> 3)

/-- `Scaler666` -/
def scaler666 : Color :=
  (above (pixels 2) 0x03 <<< 10) ||| (above (pixels 1) 0x03 <<< 4) |||
    (int (pixels 0) >>> 2)

/-- `Scaler888` -/
def scaler888 : Color := (int (pixels 2) <<< 16) ||| (int (pixels 1) <<< 8) ||| int (pixels 0)

/-- `ScalerGray` -/
def scalerGray : Color := (int (pixels 2) * 14 + int (pixels 1) * 76 + int (pixels 0) * 38) >>> 7

/-- What a pixel is converted to; a shift only makes sense for grayscale. -/
def converted (s : Screen) : Color :=
  match s.gds with
  | .rgb888 => scaler888 pixels
  | .rgb666 => scaler666 pixels
  | .rgb565 => scaler565 pixels
  | .rgb555 => scaler555 pixels
  | .rgb444 => scaler444 pixels
  | .rgb332 => scaler332 pixels
  | .mono | .grayscale => scalerGray pixels >>> (8 - depth s.mode)

/-! ### The tiles -/

/-- `JpegCtx` -/
structure Context where
  xOfs : ℤ
  yOfs : ℤ
  xMin : ℤ
  yMin : ℤ

/-- `JRECT` -/
structure Rect where
  left : ℕ
  right : ℕ
  top : ℕ
  bottom : ℕ

/-- `IsPixelVisible` -/
def Visible (d : Display) (x y : ℤ) : Prop := (0 ≤ x ∧ x < d.width) ∧ 0 ≤ y ∧ y < d.height

instance (d : Display) (x y : ℤ) : Decidable (Visible d x y) := instDecidableAnd

/-- `DrawPixel` -/
def drawPixel (d : Display) (x y : ℤ) (color : Color) (f : Frame) : Frame :=
  if Visible d x y then drawPixelFast d x.toNat y.toNat color f else f

section Tiles

variable (s : Screen) (c : Context) (bitmap : ℕ → UInt8)

/-- A column of a row, with the pointer into the tile. -/
def drawColumn (y : ℕ) (st : Frame × ℕ) (x : ℕ) : Frame × ℕ :=
  if x < c.xMin then st
  else
    (drawPixel s.toDisplay (x + c.xOfs) (y + c.yOfs) (converted (fun i => bitmap (st.2 + i)) s)
      st.1,
      st.2 + 3)

/-- A row. -/
def drawRow (left n : ℕ) (st : Frame × ℕ) (y : ℕ) : Frame × ℕ :=
  if y < c.yMin then st else (List.range' left n).foldl (drawColumn s c bitmap y) st

/-- `OutHandlerDirect` -/
def outHandlerDirect (frame : Rect) (f : Frame) : Frame :=
  ((List.range' frame.top (frame.bottom + 1 - frame.top)).foldl
    (drawRow s c bitmap frame.left (frame.right + 1 - frame.left)) (f, 0)).1

end Tiles

/-- Where an image goes, of the size that it is scaled to. -/
def place (d : Display) (width height : ℕ) (x y : ℤ) (fit : ℕ) : Context :=
  -- `GDS_IMAGE_CENTER_X`, `GDS_IMAGE_RIGHT`, `GDS_IMAGE_CENTER_Y`, `GDS_IMAGE_BOTTOM`
  let xOfs :=
    if fit.testBit 0 then Int.tdiv (d.width + x - width) 2
    else if fit.testBit 2 then d.width - width
    else x
  let yOfs :=
    if fit.testBit 1 then Int.tdiv (d.height + y - height) 2
    else if fit.testBit 3 then d.height - height
    else y
  ⟨xOfs, yOfs, x - xOfs, y - yOfs⟩

/-- A row of pixels with three bytes. -/
abbrev Image := ℕ → ℕ → ℕ → UInt8

/-- A tile as the decoder gives it, row by row. -/
def tileBytes (image : Image) (t : Rect) : ℕ → UInt8 := fun i =>
  image (t.left + i / 3 % (t.right + 1 - t.left)) (t.top + i / 3 / (t.right + 1 - t.left)) (i % 3)

/-- A size, scaled by `GDS_IMAGE_FIT`. -/
def scaled (fit n size : ℕ) : ℕ := if fit.testBit 4 then size / 2 ^ n else size

section Draw

variable (s : Screen) (width height : ℕ) (x y : ℤ) (fit n : ℕ) (tiles : List Rect) (image : Image)

/-- `GDS_DrawJPEG`, of an image that is scaled by `n` if it is to be fitted in, and that the decoder
gives in these tiles. -/
def drawJPEG (f : Frame) : Frame :=
  let c := place s.toDisplay (scaled fit n width) (scaled fit n height) x y fit
  tiles.foldl (fun f t => outHandlerDirect s c (tileBytes image t) t f) f

end Draw

/-! ### What it is for -/

/-- The pixel is in the tile. -/
def Rect.Has (t : Rect) (x y : ℕ) : Prop := (t.left ≤ x ∧ x ≤ t.right) ∧ t.top ≤ y ∧ y ≤ t.bottom

instance (t : Rect) (x y : ℕ) : Decidable (t.Has x y) := instDecidableAnd

/-- The tiles cover the image. -/
def Covers (tiles : List Rect) (width height : ℕ) : Prop :=
  ∀ x y, (∃ t ∈ tiles, t.Has x y) ↔ x < width ∧ y < height

/-- A pixel of the image is drawn: nothing left of or above the position that was asked for. -/
def Drawn (d : Display) (c : Context) (x y : ℕ) : Prop :=
  (c.xMin ≤ x ∧ c.yMin ≤ y) ∧ Visible d (x + c.xOfs) (y + c.yOfs)

/-- The bit belongs to the place of a pixel of the image. -/
def At (d : Display) (c : Context) (x y a k : ℕ) : Prop :=
  ((owner d a k).1 : ℤ) = x + c.xOfs ∧ ((owner d a k).2 : ℤ) = y + c.yOfs

/-- Whatever is in the image, and was on the display: each pixel that is drawn is shown at its place
as the color it is converted to, and nothing else is changed. -/
def Places (s : Screen) (width height : ℕ) (x y : ℤ) (fit n : ℕ) (tiles : List Rect) : Prop :=
  let w := scaled fit n width
  let h := scaled fit n height
  let c := place s.toDisplay w h x y fit
  ∀ (image : Image) (f : Frame), let f' := drawJPEG s width height x y fit n tiles image f
    (∀ i j, i < w → j < h → Drawn s.toDisplay c i j → ∀ a k, k < 8 → At s.toDisplay c i j a k →
      bit f' a k = value s.toDisplay (converted (image i j) s) a k) ∧
    ∀ a k, k < 8 → (∀ i j, i < w → j < h → Drawn s.toDisplay c i j → ¬ At s.toDisplay c i j a k) →
      bit f' a k = bit f a k

/-- The last tile with a pixel that is drawn begins neither left of nor above what is drawn. -/
def InStep (d : Display) (c : Context) (tiles : List Rect) : Prop :=
  ∀ pre t post, tiles = pre ++ t :: post → ∀ x y, t.Has x y → Drawn d c x y →
    (∀ t' ∈ post, ¬ t'.Has x y) → c.xMin ≤ t.left ∧ c.yMin ≤ t.top

/-! ### Colours -/

/-- Only the three bytes of a pixel matter. -/
theorem converted_congr {s : Screen} {p q : ℕ → UInt8} (h : ∀ i, i < 3 → p i = q i) :
    converted p s = converted q s := by
  have h₀ := h 0 (by decide)
  have h₁ := h 1 (by decide)
  have h₂ := h 2 (by decide)
  simp only [converted, scaler332, scaler444, scaler555, scaler565, scaler666, scaler888,
    scalerGray, h₀, h₁, h₂]

/-- A gray has eight bits. -/
theorem scalerGray_le (p : ℕ → UInt8) : (scalerGray p).toNat < 256 := by
  have hint : ∀ b : UInt8, (int b).toNat = b.toNat := fun b => by
    rw [int, BitVec.toNat_setWidth, Nat.mod_eq_of_lt]
    · rfl
    · have := b.toNat_lt
      omega
  have h₀ := (p 0).toNat_lt
  have h₁ := (p 1).toNat_lt
  have h₂ := (p 2).toNat_lt
  rw [scalerGray, BitVec.toNat_ushiftRight, BitVec.toNat_add, BitVec.toNat_add, BitVec.toNat_mul,
    BitVec.toNat_mul, BitVec.toNat_mul, hint, hint, hint, Nat.shiftRight_eq_div_pow]
  simp only [BitVec.reduceToNat]
  -- no sum is beyond a word
  simp (disch := omega) only [Nat.mod_eq_of_lt]
  omega

/-- No pixel is converted to the colour that toggles. -/
theorem sets_converted (s : Screen) (p : ℕ → UInt8) : Sets s.toDisplay (converted p s) := by
  intro hmode
  have hgray : s.gds = .mono ∨ s.gds = .grayscale := by
    have hsuits := s.suits
    rcases hmode with h | h <;> rw [h] at hsuits <;> exact hsuits
  have hdepth : depth s.mode = 1 := by
    rcases hmode with h | h <;> rw [h] <;> rfl
  have hval : converted p s = scalerGray p >>> 7 := by
    rcases hgray with h | h <;> simp only [converted, h, hdepth]
  have hlt := scalerGray_le p
  intro hxor
  have hnat := congrArg BitVec.toNat hxor
  rw [hval, BitVec.toNat_ushiftRight, Nat.shiftRight_eq_div_pow] at hnat
  have hxor' : xor.toNat = 256 := rfl
  omega

/-! ### One tile -/

/-- The bit belongs to a pixel at these coordinates, on the display. -/
def On (d : Display) (x y : ℤ) (a k : ℕ) : Prop :=
  Visible d x y ∧ ((owner d a k).1 : ℤ) = x ∧ ((owner d a k).2 : ℤ) = y

theorem paints_drawPixel (s : Screen) (x y : ℤ) {color : Color} (hc : Sets s.toDisplay color) :
    Paints (drawPixel s.toDisplay x y color) (On s.toDisplay x y) (value s.toDisplay color) := by
  by_cases hvis : Visible s.toDisplay x y
  · have hdraw : drawPixel s.toDisplay x y color =
        drawPixelFast s.toDisplay x.toNat y.toNat color := by
      funext f
      exact if_pos hvis
    obtain ⟨⟨hx₀, hx₁⟩, hy₀, hy₁⟩ := hvis
    rw [hdraw]
    refine (paints_pixel s.packed (show x.toNat < s.width by omega) hc).congr (fun a k _ => ?_)
      fun _ _ _ _ => rfl
    rw [On, Prod.ext_iff]
    simp only
    constructor
    · rintro ⟨h₁, h₂⟩
      exact ⟨⟨⟨hx₀, hx₁⟩, hy₀, hy₁⟩, by omega, by omega⟩
    · rintro ⟨-, h₁, h₂⟩
      omega
  · have hdraw : drawPixel s.toDisplay x y color = id := by
      funext f
      exact if_neg hvis
    rw [hdraw]
    refine (Paints.id (v := value s.toDisplay color)).congr (fun a k _ => ?_) fun _ _ _ _ => rfl
    exact ⟨False.elim, fun h => hvis h.1⟩

/-- A loop that leaves out what is before `m`, and whose pointer only goes on with the rest. -/
theorem foldl_skip {σ : Type*} (op : ℕ → ℕ → σ → σ) (m stride : ℕ) {body : σ × ℕ → ℕ → σ × ℕ}
    (hskip : ∀ st i, i < m → body st i = st)
    (hdraw : ∀ st i, m ≤ i → body st i = (op st.2 i st.1, st.2 + stride)) (n : ℕ) :
    ∀ first p f, (List.range' first n).foldl body (f, p) =
      ((List.range' (max first m) (first + n - max first m)).foldl
        (fun f i => op (p + stride * (i - max first m)) i f) f,
        p + stride * (first + n - max first m)) := by
  induction n with
  | zero =>
    intro first p f
    have hnone : first + 0 - max first m = 0 := by omega
    rw [hnone]
    rfl
  | succ n ih =>
    intro first p f
    rw [List.range'_succ, List.foldl_cons]
    by_cases hlt : first < m
    · have hmax : max (first + 1) m = max first m := by omega
      have hlen : first + 1 + n - max first m = first + (n + 1) - max first m := by omega
      rw [hskip _ _ hlt, ih, hmax, hlen]
    · have hmax : max first m = first := by omega
      have hnext : max (first + 1) m = first + 1 := by omega
      have hrest : first + 1 + n - (first + 1) = n := by omega
      have hall : first + (n + 1) - first = n + 1 := by omega
      rw [hdraw _ _ (by omega), ih, hnext, hrest, hmax, hall, List.range'_succ, List.foldl_cons,
        Nat.sub_self, Nat.mul_zero, Nat.add_zero]
      refine Prod.ext ?_ (by rw [Nat.mul_succ]; omega)
      refine List.foldl_ext _ _ _ fun g i hi => ?_
      have hafter := (List.mem_range'_1.mp hi).1
      have hptr : p + stride + stride * (i - (first + 1)) = p + stride * (i - first) := by
        rw [show i - first = i - (first + 1) + 1 by omega, Nat.mul_succ]
        omega
      rw [hptr]

section Tile

variable (s : Screen) (c : Context) (bitmap : ℕ → UInt8) (t : Rect)

/-- The first column, or row, that is drawn. -/
def start (first : ℕ) (m : ℤ) : ℕ := max first m.toNat

/-- The columns of the tile. -/
def Rect.columns (t : Rect) : ℕ := t.right + 1 - t.left

/-- The columns that are drawn. -/
def drawnColumns : ℕ := t.left + t.columns - start t.left c.xMin

/-- Where a pixel of the tile is taken from. -/
def source (x y : ℕ) : ℕ :=
  3 * drawnColumns c t * (y - start t.top c.yMin) + 3 * (x - start t.left c.xMin)

/-- What the tile makes of the bits of its pixels. -/
def taken (a k : ℕ) : Bool :=
  value s.toDisplay (converted (fun i => bitmap (source c t
    ((owner s.toDisplay a k).1 - c.xOfs).toNat ((owner s.toDisplay a k).2 - c.yOfs).toNat + i)) s)
    a k

/-- The bits of the pixels of the tile that are drawn. -/
def Tile (d : Display) (a k : ℕ) : Prop :=
  ∃ x y : ℕ, t.Has x y ∧ Drawn d c x y ∧ At d c x y a k

theorem drawRow_eq (n y : ℕ) (hy : c.yMin.toNat ≤ y) (left : ℕ) (st : Frame × ℕ) :
    drawRow s c bitmap left n st y =
      ((List.range' (start left c.xMin) (left + n - start left c.xMin)).foldl (fun f (x : ℕ) =>
        drawPixel s.toDisplay (x + c.xOfs) (y + c.yOfs)
          (converted (fun i => bitmap (st.2 + 3 * (x - start left c.xMin) + i)) s) f) st.1,
        st.2 + 3 * (left + n - start left c.xMin)) := by
  rw [drawRow, if_neg (by omega)]
  exact foldl_skip (fun p (x : ℕ) => drawPixel s.toDisplay (x + c.xOfs) (y + c.yOfs)
      (converted (fun i => bitmap (p + i)) s)) c.xMin.toNat 3
    (fun st x hx => if_pos (by omega)) (fun st x hx => if_neg (by omega)) n left st.2 st.1

theorem outHandlerDirect_eq (f : Frame) :
    outHandlerDirect s c bitmap t f =
      (List.range' (start t.top c.yMin) (t.top + (t.bottom + 1 - t.top) - start t.top c.yMin)).foldl
        (fun f (y : ℕ) => (List.range' (start t.left c.xMin) (drawnColumns c t)).foldl
          (fun f (x : ℕ) =>
            drawPixel s.toDisplay (x + c.xOfs) (y + c.yOfs)
              (converted (fun i => bitmap (source c t x y + i)) s) f) f) f := by
  have hrows := foldl_skip
    (fun p (y : ℕ) f => (List.range' (start t.left c.xMin) (drawnColumns c t)).foldl
      (fun f (x : ℕ) => drawPixel s.toDisplay (x + c.xOfs) (y + c.yOfs)
        (converted (fun i => bitmap (p + 3 * (x - start t.left c.xMin) + i)) s) f) f)
    c.yMin.toNat (3 * drawnColumns c t)
    (fun st y hy => if_pos (by omega)) (fun st y hy => drawRow_eq s c bitmap _ y hy t.left st)
    (t.bottom + 1 - t.top) t.top 0 f
  refine (congrArg Prod.fst hrows).trans ?_
  simp only [Nat.zero_add]
  rfl

/-- A tile is drawn, taken from wherever the pointer is. -/
theorem paints_tile :
    Paints (outHandlerDirect s c bitmap t) (Tile c t s.toDisplay) (taken s c bitmap t) := by
  have hpixel : ∀ x y : ℕ, Paints (drawPixel s.toDisplay (x + c.xOfs) (y + c.yOfs)
      (converted (fun i => bitmap (source c t x y + i)) s))
      (On s.toDisplay (x + c.xOfs) (y + c.yOfs)) (taken s c bitmap t) := by
    intro x y
    refine (paints_drawPixel s _ _ (sets_converted s _)).congr (fun _ _ _ => Iff.rfl)
      fun a k _ hon => ?_
    have hx : ((owner s.toDisplay a k).1 - c.xOfs).toNat = x := by
      have := hon.2.1
      omega
    have hy : ((owner s.toDisplay a k).2 - c.yOfs).toNat = y := by
      have := hon.2.2
      omega
    rw [taken, hx, hy]
  have hdraw := funext (outHandlerDirect_eq s c bitmap t)
  rw [hdraw]
  refine (Paints.foldl _ fun y _ => Paints.foldl _ fun x _ => hpixel x y).congr (fun a k _ => ?_)
    fun _ _ _ _ => rfl
  simp only [List.mem_range'_1, Tile, Rect.Has, drawnColumns, Rect.columns, start]
  constructor
  · rintro ⟨y, hy, x, hx, hon⟩
    exact ⟨x, y, by omega, ⟨by omega, hon.1⟩, hon.2⟩
  · rintro ⟨x, y, hhas, ⟨hmin, hvis⟩, hat⟩
    exact ⟨y, by omega, x, by omega, hvis, hat⟩

end Tile

/-! ### In step, and out of it -/

/-- A pixel of the tile, and where the pointer should be for it. -/
theorem tileBytes_source (image : Image) {c : Context} {t : Rect} {x y : ℕ} (hhas : t.Has x y)
    (hmin : c.xMin ≤ x ∧ c.yMin ≤ y) :
    (c.xMin ≤ t.left ∧ c.yMin ≤ t.top →
      ∀ i, i < 3 → tileBytes image t (source c t x y + i) = image x y i) ∧
    (¬ (c.xMin ≤ t.left ∧ c.yMin ≤ t.top) →
      ∃ x' y', (x', y') ≠ (x, y) ∧
        ∀ i, i < 3 → tileBytes image t (source c t x y + i) = image x' y' i) := by
  obtain ⟨⟨hl, hr⟩, ht, hb⟩ := hhas
  obtain ⟨q, hq⟩ : ∃ q, q = drawnColumns c t * (y - start t.top c.yMin) +
    (x - start t.left c.xMin) := ⟨_, rfl⟩
  have hsource : source c t x y = 3 * q := by rw [source, hq, Nat.mul_add, Nat.mul_assoc]
  have hbytes : ∀ i, i < 3 → tileBytes image t (source c t x y + i) =
      image (t.left + q % t.columns) (t.top + q / t.columns) i := by
    intro i hi
    rw [hsource, tileBytes, show (3 * q + i) / 3 = q by omega, show (3 * q + i) % 3 = i by omega]
    rfl
  have hcolumn : x - t.left < t.columns := by
    rw [Rect.columns]
    omega
  constructor
  · rintro ⟨hx, hy⟩ i hi
    have hleft : start t.left c.xMin = t.left := by
      rw [start]
      omega
    have htop : start t.top c.yMin = t.top := by
      rw [start]
      omega
    have hcolumns : drawnColumns c t = t.columns := by
      rw [drawnColumns, hleft, Nat.add_sub_cancel_left]
    rw [hbytes i hi, hq, hleft, htop, hcolumns, Nat.mul_add_mod, Nat.mod_eq_of_lt hcolumn,
      Nat.mul_add_div (by omega), Nat.div_eq_of_lt hcolumn, Nat.add_zero, Nat.add_sub_cancel' hl,
      Nat.add_sub_cancel' ht]
  · intro hout
    refine ⟨_, _, fun heq => ?_, hbytes⟩
    obtain ⟨hx, hy⟩ := Prod.mk.inj heq
    -- the pixel that is taken comes before the one that is meant
    have hmod := Nat.div_add_mod q t.columns
    have hpixel : q = t.columns * (y - t.top) + (x - t.left) := by
      rw [show x - t.left = q % t.columns by omega, show y - t.top = q / t.columns by omega]
      exact hmod.symm
    have hwidth : drawnColumns c t ≤ t.columns := by
      rw [drawnColumns, start]
      omega
    have hle : drawnColumns c t * (y - start t.top c.yMin) ≤
        t.columns * (y - start t.top c.yMin) := Nat.mul_le_mul_right _ hwidth
    by_cases htop : c.yMin ≤ t.top
    · have hrow : start t.top c.yMin = t.top := by
        rw [start]
        omega
      have hbefore : x - start t.left c.xMin < x - t.left := by
        rw [start]
        omega
      rw [hrow] at hle hq
      omega
    · have hrow : y - start t.top c.yMin < y - t.top := by
        rw [start]
        omega
      have hrows : t.columns * (y - start t.top c.yMin) + t.columns ≤ t.columns * (y - t.top) := by
        rw [← Nat.mul_succ]
        exact Nat.mul_le_mul_left _ hrow
      have hbefore : x - start t.left c.xMin ≤ x - t.left := by
        rw [start]
        omega
      omega

theorem converted_white (s : Screen) : (converted (fun _ => 255) s).getLsbD 0 = true := by
  have hgray : ∀ mode, (scalerGray (fun _ => 255) >>> (8 - depth mode)).getLsbD 0 = true := by
    intro mode
    cases mode <;> decide
  rw [converted]
  cases s.gds with
  | mono => exact hgray _
  | grayscale => exact hgray _
  | rgb332 => exact (by decide : (scaler332 fun _ => 255).getLsbD 0 = true)
  | rgb444 => exact (by decide : (scaler444 fun _ => 255).getLsbD 0 = true)
  | rgb555 => exact (by decide : (scaler555 fun _ => 255).getLsbD 0 = true)
  | rgb565 => exact (by decide : (scaler565 fun _ => 255).getLsbD 0 = true)
  | rgb666 => exact (by decide : (scaler666 fun _ => 255).getLsbD 0 = true)
  | rgb888 => exact (by decide : (scaler888 fun _ => 255).getLsbD 0 = true)

theorem converted_black (s : Screen) : converted (fun _ => 0) s = black := by
  have hgray : ∀ mode, scalerGray (fun _ => 0) >>> (8 - depth mode) = black := by
    intro mode
    cases mode <;> decide
  rw [converted]
  cases s.gds with
  | mono => exact hgray _
  | grayscale => exact hgray _
  | rgb332 => exact (by decide : scaler332 (fun _ => 0) = black)
  | rgb444 => exact (by decide : scaler444 (fun _ => 0) = black)
  | rgb555 => exact (by decide : scaler555 (fun _ => 0) = black)
  | rgb565 => exact (by decide : scaler565 (fun _ => 0) = black)
  | rgb666 => exact (by decide : scaler666 (fun _ => 0) = black)
  | rgb888 => exact (by decide : scaler888 (fun _ => 0) = black)

/-! ### The tiles of an image -/

section Image

variable {s : Screen} {c : Context} {image : Image}

theorem exists_last {P : Rect → Prop} {tiles : List Rect} (h : ∃ t ∈ tiles, P t) :
    ∃ pre t post, tiles = pre ++ t :: post ∧ P t ∧ ∀ t' ∈ post, ¬ P t' := by
  induction tiles with
  | nil =>
    obtain ⟨t, ht, _⟩ := h
    exact absurd ht List.not_mem_nil
  | cons t tiles ih =>
    by_cases hrest : ∃ t' ∈ tiles, P t'
    · obtain ⟨pre, t', post, rfl, ht', hpost⟩ := ih hrest
      exact ⟨t :: pre, t', post, rfl, ht', hpost⟩
    · have hnot : ∀ t' ∈ tiles, ¬ P t' := fun t' ht' hP => hrest ⟨t', ht', hP⟩
      obtain ⟨t', ht', hP⟩ := h
      rcases List.mem_cons.mp ht' with rfl | hmem
      · exact ⟨[], t', tiles, rfl, hP, hnot⟩
      · exact absurd hP (hnot t' hmem)

/-- A bit of a pixel is of no other. -/
theorem At.not_tile {d : Display} {x y a k : ℕ} (hat : At d c x y a k) {t : Rect}
    (h : ¬ t.Has x y) : ¬ Tile c t d a k := by
  rintro ⟨x', y', hhas, -, hx, hy⟩
  have hx' : x' = x := by
    have := hat.1
    omega
  have hy' : y' = y := by
    have := hat.2
    omega
  exact h (hx' ▸ hy' ▸ hhas)

theorem taken_at {x y a k : ℕ} (hat : At s.toDisplay c x y a k) (bitmap : ℕ → UInt8) (t : Rect) :
    taken s c bitmap t a k =
      value s.toDisplay (converted (fun i => bitmap (source c t x y + i)) s) a k := by
  obtain ⟨hx, hy⟩ := hat
  have hx' : ((owner s.toDisplay a k).1 - c.xOfs).toNat = x := by omega
  have hy' : ((owner s.toDisplay a k).2 - c.yOfs).toNat = y := by omega
  rw [taken, hx', hy']

/-- A pixel is what the last tile that has it makes of it. -/
theorem bit_last {pre post : List Rect} {t : Rect} {x y a k : ℕ} (hk : k < 8)
    (hat : At s.toDisplay c x y a k) (hhas : t.Has x y) (hdrawn : Drawn s.toDisplay c x y)
    (hpost : ∀ t' ∈ post, ¬ t'.Has x y) (f : Frame) :
    bit ((pre ++ t :: post).foldl (fun f t => outHandlerDirect s c (tileBytes image t) t f) f) a k =
      value s.toDisplay
        (converted (fun i => tileBytes image t (source c t x y + i)) s) a k := by
  have htile := paints_tile s c (tileBytes image t) t
  have hleft : Acts
      (fun f => post.foldl (fun f t => outHandlerDirect s c (tileBytes image t) t f) f) a k id :=
    Acts.foldl_id post fun t' ht' => (Acts.of_paints (paints_tile s c (tileBytes image t') t') hk).2
      (hat.not_tile (hpost t' ht'))
  rw [List.foldl_append, List.foldl_cons, hleft, id,
    htile.inside _ a k hk ⟨x, y, hhas, hdrawn, hat⟩, taken_at hat]

end Image

/-- The image is drawn where it was placed if and only if no pixel of it is on the display that,
last, is in a tile that begins left of, or above what may be drawn. -/
theorem drawJPEG_iff (s : Screen) (width height : ℕ) (x y : ℤ) (fit n : ℕ) (tiles : List Rect)
    (hcover : Covers tiles (scaled fit n width) (scaled fit n height)) :
    Places s width height x y fit n tiles ↔
      InStep s.toDisplay
        (place s.toDisplay (scaled fit n width) (scaled fit n height) x y fit) tiles := by
  obtain ⟨c, hc⟩ : ∃ c, c = place s.toDisplay (scaled fit n width) (scaled fit n height) x y fit :=
    ⟨_, rfl⟩
  have hdraw : ∀ image f, drawJPEG s width height x y fit n tiles image f =
      tiles.foldl (fun f t => outHandlerDirect s c (tileBytes image t) t f) f := fun image f => by
    rw [drawJPEG, ← hc]
  rw [Places, ← hc]
  constructor
  · intro h pre t post htiles i j hhas hdrawn hpost
    by_contra hout
    obtain ⟨i', j', hne, hsource⟩ := (tileBytes_source (fun i' j' _ => if (i', j') = (i, j) then 255
      else 0) hhas hdrawn.1).2 hout
    obtain ⟨⟨hx₀, hx₁⟩, hy₀, hy₁⟩ := hdrawn.2
    obtain ⟨a, k, hk, howner, hwhite, hblack⟩ := exists_shown s.packed
      (show (i + c.xOfs).toNat < s.width by omega) (j + c.yOfs).toNat
    have hat : At s.toDisplay c i j a k := by
      rw [At, howner]
      exact ⟨Int.toNat_of_nonneg hx₀, Int.toNat_of_nonneg hy₀⟩
    obtain ⟨hi, hj⟩ := (hcover i j).mp ⟨t, htiles ▸ by simp, hhas⟩
    have hshown := (h (fun i' j' _ => if (i', j') = (i, j) then 255 else 0) fun _ => 0).1
      i j hi hj hdrawn a k hk hat
    -- the image is black but for this pixel, and another one was taken
    rw [hdraw, htiles, bit_last hk hat hhas hdrawn hpost, converted_congr hsource] at hshown
    simp only [if_pos, if_neg hne, converted_black, hblack] at hshown
    rw [hwhite _ (converted_white s)] at hshown
    exact absurd hshown (by decide)
  · intro h image f
    constructor
    · intro i j hi hj hdrawn a k hk hat
      obtain ⟨pre, t, post, rfl, hhas, hpost⟩ := exists_last ((hcover i j).mpr ⟨hi, hj⟩)
      have hstep := h pre t post rfl i j hhas hdrawn hpost
      rw [hdraw, bit_last hk hat hhas hdrawn hpost,
        converted_congr ((tileBytes_source image hhas hdrawn.1).1 hstep)]
    · intro a k hk hnone
      have hleft : Acts (fun f =>
          tiles.foldl (fun f t => outHandlerDirect s c (tileBytes image t) t f) f) a k id := by
        refine Acts.foldl_id tiles fun t ht =>
          (Acts.of_paints (paints_tile s _ (tileBytes image t) t) hk).2 ?_
        rintro ⟨i, j, hhas, hdrawn, hat⟩
        obtain ⟨hi, hj⟩ := (hcover i j).mp ⟨t, ht, hhas⟩
        exact hnone i j hi hj hdrawn hat
      rw [hdraw]
      exact hleft f

/-- A picture that fits, in one tile. -/
theorem drawJPEG_fits :
    Places ⟨⟨.rgb888, 8, 8⟩, .rgb888, rfl, trivial⟩ 2 1 3 3 0 0 [⟨0, 1, 0, 0⟩] := by
  refine (drawJPEG_iff _ 2 1 3 3 0 0 [⟨0, 1, 0, 0⟩] fun i j => ?_).mpr ?_
  · simp only [List.mem_singleton, exists_eq_left]
    change (0 ≤ i ∧ i ≤ 1) ∧ 0 ≤ j ∧ j ≤ 0 ↔ i < 2 ∧ j < 1
    omega
  · intro pre t post htiles i j _ _ _
    have ht : t ∈ [(⟨0, 1, 0, 0⟩ : Rect)] := htiles ▸ by simp
    obtain rfl := List.mem_singleton.mp ht
    exact ⟨by decide, by decide⟩

/-- A picture of two pixels, to the right of a display of one. -/
theorem drawJPEG_wide :
    ¬ Places ⟨⟨.depth8, 1, 1⟩, .rgb332, .inr (.inr rfl), trivial⟩ 2 1 0 0 4 0 [⟨0, 1, 0, 0⟩] := by
  intro h
  have hbit := (h (fun i _ _ => if i = 1 then 255 else 0) fun _ => 0).1 1 0 (by decide) (by decide)
    ⟨⟨by decide, by decide⟩, by decide⟩ 0 0 (by decide) ⟨by decide, by decide⟩
  exact absurd hbit (by decide)

end Jpeg

end SqueezeliteMuse
