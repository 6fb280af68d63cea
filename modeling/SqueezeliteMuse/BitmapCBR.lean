/-
SqueezeliteMuse/BitmapCBR.lean

`GDS_DrawBitmapCBR` of gds_draw.c, and what SSD132x.c and SSD1675.c have in its place: a bitmap that
is stored column by column, each byte eight pixels with the highest bit at the top.

The comment of the function has a mundane version, pixel by pixel.  The faster ones follow a pointer
into the data, and one into the framebuffer.  Those for one bit set pixels whatever the colour is;
that for `GDS_RGB666` leaves bits of a colour in a byte that belong to the next; and that of SSD1675
takes `Height` for the bytes of a column, and goes far beyond both memories.

Main result: `drawBitmapCBR_iff`: exactly when it is the mundane version, and stays inside.
-/
import SqueezeliteMuse.ClearWindow
import Mathlib.Tactic.Ring

namespace SqueezeliteMuse

namespace Pixels

open Gds Painting

/-! ### The code -/

/-- `BitReverseTable256` -/
def bitReverseTable256 : List ℕ :=
  [0, 128, 64, 192, 32, 160, 96, 224, 16, 144, 80, 208, 48, 176, 112, 240,
   8, 136, 72, 200, 40, 168, 104, 232, 24, 152, 88, 216, 56, 184, 120, 248,
   4, 132, 68, 196, 36, 164, 100, 228, 20, 148, 84, 212, 52, 180, 116, 244,
   12, 140, 76, 204, 44, 172, 108, 236, 28, 156, 92, 220, 60, 188, 124, 252,
   2, 130, 66, 194, 34, 162, 98, 226, 18, 146, 82, 210, 50, 178, 114, 242,
   10, 138, 74, 202, 42, 170, 106, 234, 26, 154, 90, 218, 58, 186, 122, 250,
   6, 134, 70, 198, 38, 166, 102, 230, 22, 150, 86, 214, 54, 182, 118, 246,
   14, 142, 78, 206, 46, 174, 110, 238, 30, 158, 94, 222, 62, 190, 126, 254,
   1, 129, 65, 193, 33, 161, 97, 225, 17, 145, 81, 209, 49, 177, 113, 241,
   9, 137, 73, 201, 41, 169, 105, 233, 25, 153, 89, 217, 57, 185, 121, 249,
   5, 133, 69, 197, 37, 165, 101, 229, 21, 149, 85, 213, 53, 181, 117, 245,
   13, 141, 77, 205, 45, 173, 109, 237, 29, 157, 93, 221, 61, 189, 125, 253,
   3, 131, 67, 195, 35, 163, 99, 227, 19, 147, 83, 211, 51, 179, 115, 243,
   11, 139, 75, 203, 43, 171, 107, 235, 27, 155, 91, 219, 59, 187, 123, 251,
   7, 135, 71, 199, 39, 167, 103, 231, 23, 151, 87, 215, 55, 183, 119, 247,
   15, 143, 79, 207, 47, 175, 111, 239, 31, 159, 95, 223, 63, 191, 127, 255]

def bitReverse (byte : UInt8) : UInt8 := UInt8.ofNat (bitReverseTable256.getD byte.toNat 0)

/-- `Byte & 0x01`, after so many shifts. -/
def bit01 (byte : UInt8) (k : ℕ) : Color := byte.toBitVec.setWidth 32 >>> k &&& 1

/-- A store of a byte: the byte of the data it is made from, that of the framebuffer it goes to, and
what it makes of both. -/
structure Store where
  src : ℕ
  dst : ℕ
  new : UInt8 → UInt8 → UInt8

def Store.run (data : ℕ → UInt8) (s : Store) (f : Frame) : Frame :=
  Function.update f s.dst (s.new (data s.src) (f s.dst))

/-- The stores of a function, one after the other. -/
def run (data : ℕ → UInt8) (stores : List Store) (f : Frame) : Frame :=
  stores.foldl (fun f s => s.run data f) f

/-- A row of bytes of the framebuffer, from a row of bytes of the data: `*optr++ = new(*iptr)` and
`iptr += Height`. -/
def swapRow (new : UInt8 → UInt8) (height : ℕ) : ℕ → ℕ → ℕ → List Store
  | 0, _, _ => []
  | n + 1, iptr, optr =>
      ⟨iptr, optr, fun byte _ => new byte⟩ :: swapRow new height n (iptr + height) (optr + 1)

section Code

variable (d : Display) (w h : ℕ) (color : Color)

/-- A depth of one; `h` is `Height >> 3`. -/
def bitmap1 : List Store :=
  (List.range h).flatMap fun r => swapRow bitReverse h w r (r * d.width)

/-- `DrawBitmapCBR` of SSD1675.c; `h` is `Height`. -/
def bitmap1675 : List Store :=
  (List.range h).flatMap fun r => swapRow id h w r (r * d.width)

/-- A pixel of SSD132x.c. -/
def put1326 (data c k optr : ℕ) : List Store :=
  [⟨data, optr, fun byte old =>
    (old &&& ~~~BIT (c % 8)) ||| low (bit01 (bitReverse byte) k <<< (c % 8))⟩]

/-- Two consecutive bits of source data are split over two different bytes. -/
def rows1326 (c : ℕ) : ℕ → ℕ → ℕ → List Store
  | 0, _, _ => []
  | r + 1, data, optr =>
      ((List.range 8).flatMap fun k => put1326 data c k (optr + k * (d.width / 8))) ++
        rows1326 c r (data + 1) (optr + 8 * (d.width / 8))

/-- `DrawBitmapCBR` of SSD132x.c, from a column on. -/
def columns1326 : ℕ → ℕ → ℕ → List Store
  | 0, _, _ => []
  | n + 1, c, data => rows1326 d c h data (c / 8) ++ columns1326 n (c + 1) (data + h)

/-- `Data`, `optr`, `r` and `c` -/
structure Cursor where
  data : ℕ
  optr : ℕ
  r : ℕ
  c : ℕ

/-- End of a column, move to next one, whose first pixel is at `base`. -/
def Cursor.next (line height : ℕ) (base : ℕ → ℕ) (s : Cursor) : Cursor :=
  if s.r + 1 = height then ⟨s.data + 1, base (s.c + 1), 0, s.c + 1⟩
  else ⟨s.data + 1, s.optr + 8 * line, s.r + 1, s.c⟩

/-- The loop of the other depths: the pixels of a byte, a line after the other, as `put` has it. -/
def linear (line height : ℕ) (base : ℕ → ℕ) (put : ℕ → ℕ → ℕ → ℕ → List Store) :
    ℕ → Cursor → List Store
  | 0, _ => []
  | i + 1, s =>
      ((List.range 8).flatMap fun k => put s.data s.c k (s.optr + k * line)) ++
        linear line height base put i (s.next line height base)

/-- A pixel of four bits; `Color &= 0x0f` -/
def put4 (data c k optr : ℕ) : List Store :=
  [⟨data, optr, fun byte old =>
    if c % 2 = 1 then
      (old &&& (0x0f : UInt8)) ||| low ((bit01 (bitReverse byte) k * (color &&& 0x0f)) <<< 4)
    else (old &&& (0xf0 : UInt8)) ||| low (bit01 (bitReverse byte) k * (color &&& 0x0f))⟩]

/-- Of eight bits. -/
def put8 (data _c k optr : ℕ) : List Store :=
  [⟨data, optr, fun byte _ => low (bit01 (bitReverse byte) k * color)⟩]

/-- Of sixteen; `Color = __builtin_bswap16(Color)` -/
def put16 (data _c k optr : ℕ) : List Store :=
  [⟨data, 2 * optr, fun byte _ => low (bit01 (bitReverse byte) k * bswap16 color)⟩,
    ⟨data, 2 * optr + 1, fun byte _ => low ((bit01 (bitReverse byte) k * bswap16 color) >>> 8)⟩]

/-- `SET24` -/
def put24 (data _c k optr : ℕ) : List Store :=
  [⟨data, optr, fun byte _ => low ((bit01 (bitReverse byte) k * color).sshiftRight 16)⟩,
    ⟨data, optr + 1, fun byte _ => low ((bit01 (bitReverse byte) k * color).sshiftRight 8)⟩,
    ⟨data, optr + 2, fun byte _ => low (bit01 (bitReverse byte) k * color)⟩]

/-- A colour of `GDS_RGB666`, in three bytes. -/
def spread666 : Color :=
  (color <<< 4 &&& (0xff0000 : Color)) ||| (color <<< 2 &&& (0xff00 : Color)) |||
    (color &&& (0xff : Color))

/-- `if (!Height) Height = Device->Height` -/
def sizeOr (n full : ℕ) : ℕ := if n = 0 then full else n

/-- `GDS_DrawBitmapCBR` -/
def drawBitmapCBR (width height : ℕ) : List Store :=
  let w := sizeOr width d.width
  let h := sizeOr height d.height
  let n := w * (h / 8)
  match d.mode with
  | .ssd1326 => columns1326 d (h / 8) w 0 0
  | .ssd1675 => bitmap1675 d w h
  | .mono => bitmap1 d w (h / 8)
  | .gray4 => linear (d.width / 2) (h / 8) (fun c => c / 2) (put4 color) n ⟨0, 0, 0, 0⟩
  | .depth8 => linear d.width (h / 8) id (put8 color) n ⟨0, 0, 0, 0⟩
  | .depth16 => linear d.width (h / 8) id (put16 color) n ⟨0, 0, 0, 0⟩
  | .rgb666 =>
      linear (d.width * 3) (h / 8) (fun c => c * 3) (put24 (spread666 color)) n ⟨0, 0, 0, 0⟩
  | .rgb888 => linear (d.width * 3) (h / 8) (fun c => c * 3) (put24 color) n ⟨0, 0, 0, 0⟩

/-- `FramebufferSize` -/
def framebufferSize : ℕ :=
  match d.mode with
  | .mono | .ssd1326 | .ssd1675 => d.width * d.height / 8
  | .gray4 => d.width * d.height / 2
  | .depth8 => d.width * d.height
  | .depth16 => d.width * d.height * 2
  | .rgb666 | .rgb888 => d.width * d.height * 3

end Code

/-! ### What it is for -/

section Spec

variable (d : Display) (data : ℕ → UInt8) (color : Color)

/-- The mundane version, of `h` bytes in each of `w` columns. -/
def mundane (w h : ℕ) : Frame → Frame :=
  loop 0 w fun x => loop 0 h fun y => loop 0 8 fun k =>
    drawPixelFast d x (y * 8 + k) (bit01 (data (x * h + y)) (7 - k) * color)

/-- The bitmap is drawn as the mundane version has it, and neither memory is left. -/
def DrawsBitmap (width height : ℕ) : Prop :=
  let w := sizeOr width d.width
  let h := sizeOr height d.height
  (∀ f, run data (drawBitmapCBR d color width height) f = mundane d data color w (h / 8) f) ∧
    ∀ s ∈ drawBitmapCBR d color width height, s.src < w * h / 8 ∧ s.dst < framebufferSize d

/-- The pixel is set in the bitmap. -/
def Lit (h : ℕ) (p : ℕ × ℕ) : Prop :=
  (data (p.1 * h + p.2 / 8)).toBitVec.getLsbD (7 - p.2 % 8) = true

instance (h : ℕ) (p : ℕ × ℕ) : Decidable (Lit data h p) :=
  inferInstanceAs (Decidable (_ = _))

/-- No pixel of the bitmap is. -/
def Blank (w h : ℕ) : Prop := ∀ x y, x < w → y < h * 8 → ¬ Lit data h (x, y)

/-- Where it is. -/
def SuitsBitmap (width height : ℕ) : Prop :=
  let w := sizeOr width d.width
  let h := sizeOr height d.height
  match d.mode with
  | .mono | .ssd1326 => (color ≠ black ∧ color ≠ xor) ∨ Blank data w (h / 8)
  | .ssd1675 => w = 0 ∨ h = 0
  | .rgb666 => color &&& 0x30c0 = 0 ∨ Blank data w (h / 8)
  | .gray4 | .depth8 | .depth16 | .rgb888 => True

end Spec

/-! ### Bits -/

theorem bitReverseTable256_bit : ∀ (n : Fin 256) (k : Fin 8),
    (bitReverseTable256.getD n 0).testBit k = n.val.testBit (7 - k) := by
  decide +kernel

theorem getLsbD_bitReverse (byte : UInt8) {k : ℕ} (hk : k < 8) :
    (bitReverse byte).toBitVec.getLsbD k = byte.toBitVec.getLsbD (7 - k) := by
  have htable := bitReverseTable256_bit ⟨byte.toNat, byte.toNat_lt⟩ ⟨k, hk⟩
  have hnew : (bitReverse byte).toBitVec =
      BitVec.ofNat 8 (bitReverseTable256.getD byte.toNat 0) := rfl
  rw [hnew, BitVec.getLsbD_ofNat, decide_eq_true hk, Bool.true_and]
  exact htable

/-- A pixel that is not set is black. -/
theorem bit01_mul (byte : UInt8) {k : ℕ} (hk : k < 8) (color : Color) :
    bit01 byte k * color = if byte.toBitVec.getLsbD k then color else black := by
  have hbit : bit01 byte k = if byte.toBitVec.getLsbD k then 1 else 0 := by
    refine BitVec.eq_of_getLsbD_eq fun i hi => ?_
    rw [bit01, BitVec.getLsbD_and, BitVec.getLsbD_ushiftRight, BitVec.getLsbD_setWidth]
    have hone : (1 : Color).getLsbD i = decide (i = 0) := by
      have htable : ∀ i : Fin 32, (1 : Color).getLsbD i = decide (i.val = 0) := by decide
      exact htable ⟨i, hi⟩
    rw [hone]
    by_cases hzero : i = 0
    · subst hzero
      rw [Nat.add_zero, decide_eq_true (show k < 32 by omega)]
      cases byte.toBitVec.getLsbD k <;> rfl
    · rw [decide_eq_false hzero, Bool.and_false]
      cases byte.toBitVec.getLsbD k
      · exact BitVec.getLsbD_zero.symm
      · exact (hone.trans (decide_eq_false hzero)).symm
  rw [hbit]
  cases byte.toBitVec.getLsbD k
  · exact BitVec.zero_mul
  · exact BitVec.one_mul color

theorem bit01_bitReverse (byte : UInt8) {k : ℕ} (hk : k < 8) (color : Color) :
    bit01 (bitReverse byte) k * color = bit01 byte (7 - k) * color := by
  rw [bit01_mul _ hk, bit01_mul _ (show 7 - k < 8 by omega), getLsbD_bitReverse byte hk]

/-! ### The loops -/

section Loops

variable {data : ℕ → UInt8}

theorem loop_congr {n : ℕ} {body body' : ℕ → Frame → Frame} (h : ∀ i, i < n → body i = body' i) :
    loop 0 n body = loop 0 n body' := by
  funext f
  refine List.foldl_ext _ _ _ fun g i hi => ?_
  rw [h i (by have := List.mem_range'_1.mp hi; omega)]

theorem run_flatMap (n : ℕ) (g : ℕ → List Store) :
    run data ((List.range n).flatMap g) = loop 0 n fun i => run data (g i) := by
  funext f
  rw [run, List.foldl_flatMap, List.range_eq_range']
  rfl

variable {line height : ℕ} {base : ℕ → ℕ} {put : ℕ → ℕ → ℕ → ℕ → List Store}

/-- What is left of a column. -/
theorem linear_column (j m : ℕ) : ∀ data optr r c, r + (j + 1) = height →
    linear line height base put (j + 1 + m) ⟨data, optr, r, c⟩ =
      ((List.range (j + 1)).flatMap fun t => (List.range 8).flatMap fun k =>
        put (data + t) c k (optr + 8 * line * t + k * line)) ++
        linear line height base put m ⟨data + (j + 1), base (c + 1), 0, c + 1⟩ := by
  induction j with
  | zero =>
    intro data optr r c hr
    rw [Nat.add_comm (0 + 1) m, linear, Cursor.next, if_pos hr, Nat.zero_add, List.range_one,
      List.flatMap_singleton]
    rfl
  | succ j ih =>
    intro data optr r c hr
    have hcount : j + 1 + 1 + m = j + 1 + m + 1 := by omega
    rw [hcount, linear, Cursor.next, if_neg (show ¬ r + 1 = height by omega),
      ih (data + 1) (optr + 8 * line) (r + 1) c (by omega), List.range_succ_eq_map (n := j + 1),
      List.flatMap_cons, List.flatMap_map, List.append_assoc]
    have hptr : ∀ t k, optr + 8 * line + 8 * line * t + k * line =
        optr + 8 * line * (t + 1) + k * line := by
      intro t k
      rw [Nat.mul_succ]
      omega
    have hdata : ∀ t, data + 1 + t = data + (t + 1) := fun t => by omega
    have hnext : data + 1 + (j + 1) = data + (j + 1 + 1) := by omega
    refine congrArg₂ _ rfl (congrArg₂ _ (List.flatMap_congr fun t _ => List.flatMap_congr
      fun k _ => ?_) (by rw [hnext]))
    rw [hptr, hdata]

/-- The stores of all pixels, from column `c` on. -/
def columns (line height : ℕ) (base : ℕ → ℕ) (put : ℕ → ℕ → ℕ → ℕ → List Store) (c n : ℕ) :
    List Store :=
  (List.range' c n).flatMap fun c => (List.range height).flatMap fun r => (List.range 8).flatMap
    fun k => put (c * height + r) c k (base c + 8 * line * r + k * line)

theorem linear_columns (n : ℕ) : ∀ c,
    linear line height base put (n * height) ⟨c * height, base c, 0, c⟩ =
      columns line height base put c n := by
  cases height with
  | zero =>
    intro c
    rw [Nat.mul_zero, linear]
    exact (List.flatMap_eq_nil_iff.mpr fun _ _ => rfl).symm
  | succ h =>
    induction n with
    | zero =>
      intro c
      rw [Nat.zero_mul]
      rfl
    | succ n ih =>
      intro c
      rw [Nat.succ_mul, Nat.add_comm (n * (h + 1)), linear_column h _ _ _ 0 c (Nat.zero_add _),
        ← Nat.succ_mul, ih (c + 1), columns, columns, List.range'_succ, List.flatMap_cons]

theorem linear_eq (w : ℕ) (hbase : base 0 = 0) :
    linear line height base put (w * height) ⟨0, 0, 0, 0⟩ = columns line height base put 0 w := by
  have hall : linear line height base put (w * height) ⟨0 * height, base 0, 0, 0⟩ =
      columns line height base put 0 w := linear_columns w 0
  rw [Nat.zero_mul, hbase] at hall
  exact hall

theorem rows1326_eq (d : Display) (c n : ℕ) : ∀ data optr,
    rows1326 d c n data optr = (List.range n).flatMap fun r => (List.range 8).flatMap fun k =>
      put1326 (data + r) c k (optr + 8 * (d.width / 8) * r + k * (d.width / 8)) := by
  induction n with
  | zero => exact fun _ _ => rfl
  | succ n ih =>
    intro data optr
    rw [rows1326, ih, List.range_succ_eq_map (n := n), List.flatMap_cons, List.flatMap_map]
    refine congrArg₂ _ rfl (List.flatMap_congr fun r _ => List.flatMap_congr fun k _ => ?_)
    have hptr : optr + 8 * (d.width / 8) + 8 * (d.width / 8) * r =
        optr + 8 * (d.width / 8) * (r + 1) := by
      rw [Nat.mul_succ]
      omega
    have hdata : data + 1 + r = data + (r + 1) := by omega
    rw [hptr, hdata]

theorem columns1326_from (d : Display) (h n : ℕ) : ∀ c,
    columns1326 d h n c (c * h) = columns (d.width / 8) h (fun c => c / 8) put1326 c n := by
  induction n with
  | zero => exact fun _ => rfl
  | succ n ih =>
    intro c
    rw [columns1326, ← Nat.succ_mul, ih (c + 1), rows1326_eq]
    rfl

theorem columns1326_eq (d : Display) (h n : ℕ) :
    columns1326 d h n 0 0 = columns (d.width / 8) h (fun c => c / 8) put1326 0 n := by
  have hall := columns1326_from d h n 0
  rw [Nat.zero_mul] at hall
  exact hall

theorem swapRow_eq (new : UInt8 → UInt8) (h n : ℕ) : ∀ iptr optr,
    swapRow new h n iptr optr =
      (List.range n).flatMap fun c => [⟨iptr + c * h, optr + c, fun byte _ => new byte⟩] := by
  induction n with
  | zero => exact fun _ _ => rfl
  | succ n ih =>
    intro iptr optr
    rw [swapRow, ih, List.range_succ_eq_map (n := n), List.flatMap_cons, List.flatMap_map]
    refine congrArg₂ _ (by rw [Nat.zero_mul]; rfl) (List.flatMap_congr fun c _ => ?_)
    have hsrc : iptr + h + c * h = iptr + (c + 1) * h := by
      rw [Nat.succ_mul]
      omega
    have hdst : optr + 1 + c = optr + (c + 1) := by omega
    rw [hsrc, hdst]

end Loops

section Pixel

variable {d : Display} {data : ℕ → UInt8} {color color' : Color} {w h line : ℕ} {base : ℕ → ℕ}
  {put : ℕ → ℕ → ℕ → ℕ → List Store}

/-- All pixels are drawn, if each of them is. -/
theorem run_columns
    (hput : ∀ c r k, c < w → r < h → k < 8 →
      run data (put (c * h + r) c k (base c + 8 * line * r + k * line)) =
        drawPixelFast d c (r * 8 + k) (bit01 (data (c * h + r)) (7 - k) * color)) :
    run data (columns line h base put 0 w) = mundane d data color w h := by
  rw [columns, ← List.range_eq_range', run_flatMap]
  refine loop_congr fun c hc => ?_
  rw [run_flatMap]
  refine loop_congr fun r hr => ?_
  rw [run_flatMap]
  exact loop_congr fun k hk => hput c r k hc hr hk

theorem mundane_congr {d' : Display}
    (hpixel : ∀ x y k, x < w → y < h → k < 8 →
      drawPixelFast d x (y * 8 + k) (bit01 (data (x * h + y)) (7 - k) * color) =
        drawPixelFast d' x (y * 8 + k) (bit01 (data (x * h + y)) (7 - k) * color')) :
    mundane d data color w h = mundane d' data color' w h :=
  loop_congr fun x hx => loop_congr fun y hy => loop_congr fun k hk => hpixel x y k hx hy hk

theorem run_put4 (n c r : ℕ) {k : ℕ} (hm : d.mode = .gray4) (hp : Packed d) (hk : k < 8) :
    run data (put4 color n c k (c / 2 + 8 * (d.width / 2) * r + k * (d.width / 2))) =
      drawPixelFast d c (r * 8 + k) (bit01 (data n) (7 - k) * color) := by
  obtain ⟨mode, dw, dh⟩ := d
  cases hm
  obtain ⟨q, rfl⟩ : 2 ∣ dw := hp
  have hline : 2 * q / 2 = q := Nat.mul_div_cancel_left q (by decide)
  have haddr : c / 2 + 8 * q * r + k * q = (r * 8 + k) * (2 * q) / 2 + c / 2 := by
    rw [Nat.mul_left_comm, Nat.mul_div_cancel_left _ (by decide)]
    ring
  have hcolor : bit01 (bitReverse (data n)) k * (color &&& 0x0f) =
      bit01 (data n) (7 - k) * color &&& 0x0f := by
    rw [bit01_bitReverse _ hk, bit01_mul _ (show 7 - k < 8 by omega),
      bit01_mul _ (show 7 - k < 8 by omega)]
    split
    · rfl
    · decide
  funext f
  change Function.update f _ (if c % 2 = 1 then _ ||| low ((bit01 (bitReverse (data n)) k *
    (color &&& 0x0f)) <<< 4) else _ ||| low (bit01 (bitReverse (data n)) k * (color &&& 0x0f))) = _
  simp only [hline, haddr, hcolor]
  rfl

theorem run_put8 (n c r : ℕ) {k : ℕ} (hm : d.mode = .depth8) (hk : k < 8) :
    run data (put8 color n c k (c + 8 * d.width * r + k * d.width)) =
      drawPixelFast d c (r * 8 + k) (bit01 (data n) (7 - k) * color) := by
  obtain ⟨mode, dw, dh⟩ := d
  cases hm
  funext f
  have haddr : c + 8 * dw * r + k * dw = (r * 8 + k) * dw + c := by ring
  change Function.update f _ (low (bit01 (bitReverse (data n)) k * color)) = _
  rw [bit01_bitReverse _ hk]
  simp only [haddr]
  rfl

theorem run_put16 (n c r : ℕ) {k : ℕ} (hm : d.mode = .depth16) (hk : k < 8) :
    run data (put16 color n c k (c + 8 * d.width * r + k * d.width)) =
      drawPixelFast d c (r * 8 + k) (bit01 (data n) (7 - k) * color) := by
  obtain ⟨mode, dw, dh⟩ := d
  cases hm
  funext f
  have haddr : c + 8 * dw * r + k * dw = (r * 8 + k) * dw + c := by ring
  have hcolor : bit01 (bitReverse (data n)) k * bswap16 color =
      bswap16 (bit01 (data n) (7 - k) * color) := by
    rw [bit01_bitReverse _ hk, bit01_mul _ (show 7 - k < 8 by omega),
      bit01_mul _ (show 7 - k < 8 by omega)]
    split
    · rfl
    · decide
  change store16 f _ (bit01 (bitReverse (data n)) k * bswap16 color) = _
  rw [hcolor]
  simp only [haddr]
  rfl

theorem run_put24 (n c r : ℕ) {k : ℕ} (hk : k < 8) :
    run data (put24 color n c k (c * 3 + 8 * (d.width * 3) * r + k * (d.width * 3))) =
      drawPixelFast ⟨.rgb888, d.width, d.height⟩ c (r * 8 + k)
        (bit01 (data n) (7 - k) * color) := by
  funext f
  have haddr : c * 3 + 8 * (d.width * 3) * r + k * (d.width * 3) =
      ((r * 8 + k) * d.width + c) * 3 := by ring
  rw [haddr, ← bit01_bitReverse _ hk]
  rfl

theorem low_shift : ∀ n : Fin 8, low ((1 : Color) <<< n.val) = BIT n := by decide

theorem setBit (x b : UInt8) : (x &&& ~~~b) ||| b = x ||| b := by
  refine UInt8.toBitVec_inj.mp (BitVec.eq_of_getLsbD_eq fun k hk => ?_)
  simp only [UInt8.toBitVec_or, UInt8.toBitVec_and, UInt8.toBitVec_not, BitVec.getLsbD_or,
    BitVec.getLsbD_and, BitVec.getLsbD_not, decide_eq_true hk]
  cases x.toBitVec.getLsbD k <;> cases b.toBitVec.getLsbD k <;> rfl

/-- That of SSD132x.c sets a pixel, whatever the colour. -/
theorem run_put1326 (n c r : ℕ) {k : ℕ} (hm : d.mode = .ssd1326) (hp : Packed d) (hk : k < 8) :
    run data (put1326 n c k (c / 8 + 8 * (d.width / 8) * r + k * (d.width / 8))) =
      drawPixelFast d c (r * 8 + k) (bit01 (data n) (7 - k) * white) := by
  obtain ⟨mode, dw, dh⟩ := d
  cases hm
  obtain ⟨q, rfl⟩ : 8 ∣ dw := hp
  have hline : 8 * q / 8 = q := Nat.mul_div_cancel_left q (by decide)
  have haddr : c / 8 + 8 * q * r + k * q = ((r * 8 + k) * (8 * q) + c) / 8 := by
    rw [Nat.mul_left_comm, Nat.mul_add_div (by decide)]
    ring
  have hbit : bit01 (bitReverse (data n)) k =
      if (data n).toBitVec.getLsbD (7 - k) then 1 else black := by
    have hmul := bit01_mul (bitReverse (data n)) hk 1
    rw [getLsbD_bitReverse _ hk] at hmul
    rw [← hmul]
    exact (BitVec.mul_one _).symm
  funext f
  change Function.update f _ ((_ &&& ~~~BIT (c % 8)) ||| low (bit01 (bitReverse (data n)) k <<<
    (c % 8))) = drawPixel1326 (8 * q) c (r * 8 + k) _ f
  rw [drawPixel1326, hbit, bit01_mul _ (show 7 - k < 8 by omega)]
  simp only [hline, haddr]
  congr 1
  have hshift := low_shift ⟨c % 8, Nat.mod_lt c (by decide)⟩
  split
  case isTrue hlit =>
    rw [if_neg (by decide), if_neg (by decide), hshift]
    exact setBit _ _
  case isFalse hlit =>
    have hzero : low (black <<< (c % 8)) = 0 := by
      have hblack : black <<< (c % 8) = 0 := BitVec.zero_shiftLeft (c % 8)
      rw [hblack]
      rfl
    rw [if_neg (by decide), if_pos rfl, hzero, UInt8.or_zero]

/-! ### What is painted -/

/-- The bit is of a pixel of the bitmap. -/
def InBitmap (d : Display) (w h a k : ℕ) : Prop := (owner d a k).1 < w ∧ (owner d a k).2 < h * 8

/-- What it is in the bitmap. -/
def drawn (d : Display) (data : ℕ → UInt8) (color : Color) (h a k : ℕ) : Bool :=
  value d (if Lit data h (owner d a k) then color else black) a k

theorem bit01_lit {x y k : ℕ} (hk : k < 8) (color : Color) :
    bit01 (data (x * h + y)) (7 - k) * color =
      if Lit data h (x, y * 8 + k) then color else black := by
  have hrow : (y * 8 + k) / 8 = y := by omega
  have hbit : (y * 8 + k) % 8 = k := by omega
  rw [bit01_mul _ (show 7 - k < 8 by omega)]
  simp only [Lit, hrow, hbit]

/-- The mundane version paints the pixels of the bitmap. -/
theorem paints_mundane (hp : Packed d) (hc : Sets d color) (hw : w ≤ d.width) :
    Paints (mundane d data color w h) (InBitmap d w h) (drawn d data color h) := by
  have hpixel : ∀ x y k, x < w → k < 8 →
      Paints (drawPixelFast d x (y * 8 + k) (bit01 (data (x * h + y)) (7 - k) * color))
        (fun a b => owner d a b = (x, y * 8 + k)) (drawn d data color h) := by
    intro x y k hx hk
    rw [bit01_lit hk]
    have hset : Sets d (if Lit data h (x, y * 8 + k) then color else black) := by
      intro hmode
      split
      · exact hc hmode
      · exact (by decide : black ≠ xor)
    refine (paints_pixel hp (by omega) hset).congr (fun _ _ _ => Iff.rfl) fun a b _ howner => ?_
    rw [drawn, howner]
  refine (paints_loop fun x _ hx => paints_loop fun y _ _ => paints_loop fun k _ hk =>
    hpixel x y k hx hk).congr (fun a b _ => ?_) fun _ _ _ _ => rfl
  constructor
  · rintro ⟨x, hx, y, hy, k, hk, howner⟩
    rw [InBitmap, howner]
    exact ⟨hx.2, by simp only; omega⟩
  · rintro ⟨hx, hy⟩
    refine ⟨_, ⟨Nat.zero_le _, hx⟩, (owner d a b).2 / 8, by omega, (owner d a b).2 % 8, by omega,
      ?_⟩
    exact Prod.ext rfl (by simp only; omega)

/-- A byte of the bitmap for one of the framebuffer, whatever the colour. -/
theorem run_bitmap1 (hm : d.mode = .mono) (hw : w ≤ d.width) :
    run data (bitmap1 d w h) = mundane d data white w h := by
  obtain ⟨mode, dw, dh⟩ := d
  cases hm
  have hbyte : ∀ r c, c < w → Paints
      (run data [⟨r + c * h, r * dw + c, fun byte _ => bitReverse byte⟩])
      (fun a _ => a = r * dw + c) (drawn ⟨.mono, dw, dh⟩ data white h) := by
    intro r c hc
    refine paints_byte (r * dw + c) (bitReverse (data (r + c * h))) fun k hk => ?_
    obtain ⟨hcol, hrow⟩ := (div_mod_iff (q := r) (Nat.lt_of_lt_of_le hc hw)).mpr rfl
    have hdiv : (r * 8 + k) / 8 = r := by omega
    have hmod : (r * 8 + k) % 8 = k := by omega
    rw [getLsbD_bitReverse _ hk, Nat.add_comm r]
    simp only [drawn, owner, hcol, hrow, Lit, hdiv, hmod, value]
    cases (data (c * h + r)).toBitVec.getLsbD (7 - k) <;> rfl
  have hpaint : Paints (run data (bitmap1 ⟨.mono, dw, dh⟩ w h)) (InBitmap ⟨.mono, dw, dh⟩ w h)
      (drawn ⟨.mono, dw, dh⟩ data white h) := by
    have hrow : ∀ r, run data (swapRow bitReverse h w r (r * dw)) = loop 0 w fun c =>
        run data [⟨r + c * h, r * dw + c, fun byte _ => bitReverse byte⟩] := fun r => by
      rw [swapRow_eq, run_flatMap]
    rw [bitmap1, run_flatMap]
    simp only [hrow]
    refine (paints_loop fun r _ _ => paints_loop fun c _ hc => hbyte r c hc).congr
      (fun a k hk => ?_) fun _ _ _ _ => rfl
    simp only [InBitmap, owner]
    constructor
    · rintro ⟨r, hr, c, hc, haddr⟩
      obtain ⟨hcol, hdiv⟩ := (div_mod_iff (Nat.lt_of_lt_of_le hc.2 hw)).mpr haddr
      rw [hcol, hdiv]
      omega
    · rintro ⟨hc, hr⟩
      exact ⟨a / dw, by omega, a % dw, by omega,
        (div_mod_iff (Nat.lt_of_lt_of_le hc hw)).mp ⟨rfl, rfl⟩⟩
  exact hpaint.unique (paints_mundane trivial (fun _ => by decide) hw)

/-- Nothing of the colour is seen. -/
theorem mundane_blank {d' : Display} (hblank : Blank data w h)
    (hd : ∀ x y, drawPixelFast d x y black = drawPixelFast d' x y black) :
    mundane d data color w h = mundane d' data color' w h := by
  refine mundane_congr fun x y k hx hy hk => ?_
  have hunlit : ¬ Lit data h (x, y * 8 + k) := hblank x (y * 8 + k) hx (by omega)
  rw [bit01_lit hk, bit01_lit hk, if_neg hunlit, if_neg hunlit, hd]

/-- A bit of a pixel that is set is at most toggled by a colour that toggles. -/
theorem mundane_xor (hm : d.mode = .mono ∨ d.mode = .ssd1326) (hp : Packed d) (hw : w ≤ d.width)
    {a k : ℕ} (hk : k < 8) (hlit : Lit data h (owner d a k)) :
    Flips (mundane d data xor w h) a k := by
  refine Flips.foldl _ fun x hx => Flips.foldl _ fun y _ => Flips.foldl _ fun j hj => ?_
  have hx' : x < d.width := by
    have := (List.mem_range'_1.mp hx).2
    omega
  have hj' : j < 8 := by
    have := (List.mem_range'_1.mp hj).2
    omega
  rw [bit01_lit hj']
  split
  case isTrue =>
    have hpixel := acts_pixel (a := a) hm hp (y := y * 8 + j) hx' hk
    split at hpixel
    · exact .inr hpixel
    · exact .inl hpixel
  case isFalse hunlit =>
    refine .inl ((Acts.of_paints (paints_pixel hp hx' fun _ => by decide) hk).2 fun howner => ?_)
    exact hunlit (howner ▸ hlit)

theorem drawPixelFast_white (hm : d.mode = .mono ∨ d.mode = .ssd1326) (hblack : color ≠ black)
    (hxor : color ≠ xor) (x y : ℕ) : drawPixelFast d x y white = drawPixelFast d x y color := by
  have hwhite : white ≠ xor := by decide
  have hwhite' : white ≠ black := by decide
  funext f
  rcases hm with hm | hm
  · simp only [drawPixelFast, hm, drawPixel1, if_neg hblack, if_neg hxor, if_neg hwhite,
      if_neg hwhite']
  · simp only [drawPixelFast, hm, drawPixel1326, if_neg hblack, if_neg hxor, if_neg hwhite,
      if_neg hwhite']

/-- A bit of a pixel that is set. -/
theorem exists_lit (hp : Packed d) (hw : w ≤ d.width) (hnot : ¬ Blank data w h) :
    ∃ a k, k < 8 ∧ InBitmap d w h a k ∧ Lit data h (owner d a k) ∧
      (∀ color : Color, color.getLsbD 0 = true → value d color a k = true) ∧
      value d black a k = false := by
  simp only [Blank, not_forall, not_not] at hnot
  obtain ⟨x, y, hx, hy, hlit⟩ := hnot
  obtain ⟨a, k, hk, howner, hshown, hblack⟩ := exists_shown hp (Nat.lt_of_lt_of_le hx hw) y
  exact ⟨a, k, hk, by rw [InBitmap, howner]; exact ⟨hx, hy⟩, howner ▸ hlit, hshown, hblack⟩

/-- With one bit, pixels are set. -/
theorem mundane_white_iff (hm : d.mode = .mono ∨ d.mode = .ssd1326) (hp : Packed d)
    (hw : w ≤ d.width) :
    mundane d data white w h = mundane d data color w h ↔
      (color ≠ black ∧ color ≠ xor) ∨ Blank data w h := by
  have hwhite : Paints (mundane d data white w h) (InBitmap d w h) (drawn d data white h) :=
    paints_mundane hp (fun _ => by decide) hw
  constructor
  · intro heq
    by_contra hnot
    obtain ⟨hcolor, hblank⟩ := not_or.mp hnot
    obtain ⟨a, k, hk, hin, hlit, hshown, hblack⟩ := exists_lit hp hw hblank
    by_cases hxor : color = xor
    · subst hxor
      exact (mundane_xor hm hp hw hk hlit).not_paints hk hin (heq ▸ hwhite)
    · have hcolor' : color = black := by
        by_contra hne
        exact hcolor ⟨hne, hxor⟩
      subst hcolor'
      have hval := hwhite.val_of_eq (paints_mundane hp (fun _ => hxor) hw) heq hk hin
      rw [drawn, drawn, if_pos hlit, if_pos hlit, hshown white rfl, hblack] at hval
      exact absurd hval (by decide)
  · rintro (⟨hblack, hxor⟩ | hblank)
    · refine mundane_congr fun x y k hx hy hk => ?_
      rw [bit01_lit hk, bit01_lit hk]
      split
      case isTrue => exact drawPixelFast_white hm hblack hxor x (y * 8 + k)
      case isFalse => rfl
    · exact mundane_blank hblank fun _ _ => rfl

/-! ### `GDS_RGB666` -/

/-- The colour in three bytes, with what does not belong into them. -/
theorem getLsbD_spread666 (color : Color) (k : ℕ) (hk : k < 8) :
    (spread666 color).getLsbD (16 + k) = color.getLsbD (12 + k) ∧
      (spread666 color).getLsbD (8 + k) = color.getLsbD (6 + k) ∧
      (spread666 color).getLsbD k = color.getLsbD k := by
  have hhigh : ∀ i : Fin 32, (0xff0000 : Color).getLsbD i = decide (16 ≤ i.val ∧ i.val < 24) := by
    decide
  have hmid : ∀ i : Fin 32, (0xff00 : Color).getLsbD i = decide (8 ≤ i.val ∧ i.val < 16) := by
    decide
  have hlow : ∀ i : Fin 32, (0xff : Color).getLsbD i = decide (i.val < 8) := by decide
  have hbit : ∀ i, i < 32 → (spread666 color).getLsbD i =
      ((color <<< 4).getLsbD i && decide (16 ≤ i ∧ i < 24) ||
        (color <<< 2).getLsbD i && decide (8 ≤ i ∧ i < 16) ||
        color.getLsbD i && decide (i < 8)) := by
    intro i hi
    have h₁ := hhigh ⟨i, hi⟩
    have h₂ := hmid ⟨i, hi⟩
    have h₃ := hlow ⟨i, hi⟩
    simp only at h₁ h₂ h₃
    rw [spread666, BitVec.getLsbD_or, BitVec.getLsbD_or, BitVec.getLsbD_and, BitVec.getLsbD_and,
      BitVec.getLsbD_and, h₁, h₂, h₃]
  refine ⟨?_, ?_, ?_⟩
  · rw [hbit _ (by omega), BitVec.getLsbD_shiftLeft, show 16 + k - 4 = 12 + k by omega,
      decide_eq_true (show 16 ≤ 16 + k ∧ 16 + k < 24 by omega),
      decide_eq_false (show ¬ (8 ≤ 16 + k ∧ 16 + k < 16) by omega),
      decide_eq_false (show ¬ 16 + k < 8 by omega), decide_eq_true (show 16 + k < 32 by omega),
      decide_eq_false (show ¬ 16 + k < 4 by omega)]
    simp
  · rw [hbit _ (by omega), BitVec.getLsbD_shiftLeft (n := 2), show 8 + k - 2 = 6 + k by omega,
      decide_eq_false (show ¬ (16 ≤ 8 + k ∧ 8 + k < 24) by omega),
      decide_eq_true (show 8 ≤ 8 + k ∧ 8 + k < 16 by omega),
      decide_eq_false (show ¬ 8 + k < 8 by omega), decide_eq_true (show 8 + k < 32 by omega),
      decide_eq_false (show ¬ 8 + k < 2 by omega)]
    simp
  · rw [hbit _ (by omega), decide_eq_false (show ¬ (16 ≤ k ∧ k < 24) by omega),
      decide_eq_false (show ¬ (8 ≤ k ∧ k < 16) by omega), decide_eq_true hk]
    simp

/-- The bits that spill over. -/
theorem spill_iff : color &&& 0x30c0 = 0 ↔
    (∀ k, 6 ≤ k → k < 8 → color.getLsbD k = false) ∧
      ∀ k, 6 ≤ k → k < 8 → color.getLsbD (6 + k) = false := by
  have hmask : ∀ i : Fin 32, (0x30c0 : Color).getLsbD i =
      decide ((6 ≤ i.val ∧ i.val < 8) ∨ (12 ≤ i.val ∧ i.val < 14)) := by decide
  have hmask' : ∀ i, i < 32 → (0x30c0 : Color).getLsbD i =
      decide ((6 ≤ i ∧ i < 8) ∨ (12 ≤ i ∧ i < 14)) := fun i hi => hmask ⟨i, hi⟩
  constructor
  · intro hzero
    have hbit : ∀ i, (6 ≤ i ∧ i < 8) ∨ (12 ≤ i ∧ i < 14) → color.getLsbD i = false := by
      intro i hi
      have hand := congrArg (fun c : Color => c.getLsbD i) hzero
      rw [BitVec.getLsbD_and, hmask' i (by omega), decide_eq_true hi, Bool.and_true] at hand
      exact hand.trans BitVec.getLsbD_zero
    exact ⟨fun k h₁ h₂ => hbit k (.inl ⟨h₁, h₂⟩), fun k h₁ h₂ => hbit (6 + k) (.inr (by omega))⟩
  · rintro ⟨hlow, hhigh⟩
    refine BitVec.eq_of_getLsbD_eq fun i hi => ?_
    rw [BitVec.getLsbD_and, hmask' i hi]
    by_cases hin : (6 ≤ i ∧ i < 8) ∨ (12 ≤ i ∧ i < 14)
    · have hfalse : color.getLsbD i = false := by
        rcases hin with ⟨h₁, h₂⟩ | ⟨h₁, h₂⟩
        · exact hlow i h₁ h₂
        · have hbit := hhigh (i - 6) (by omega) (by omega)
          rw [show 6 + (i - 6) = i by omega] at hbit
          exact hbit
      rw [hfalse, Bool.false_and]
      exact BitVec.getLsbD_zero.symm
    · rw [decide_eq_false hin, Bool.and_false]
      exact BitVec.getLsbD_zero.symm

theorem value_spread666 (hspill : color &&& 0x30c0 = 0) (dw dh a k : ℕ) (hk : k < 8) :
    value ⟨.rgb888, dw, dh⟩ (spread666 color) a k = value ⟨.rgb666, dw, dh⟩ color a k := by
  obtain ⟨hlow, hhigh⟩ := spill_iff.mp hspill
  obtain ⟨h₁, h₂, h₃⟩ := getLsbD_spread666 color k hk
  simp only [value]
  by_cases hzero : a % 3 = 0
  · rw [if_pos hzero, if_pos hzero, h₁]
  · rw [if_neg hzero, if_neg hzero]
    by_cases hone : a % 3 = 1
    · rw [if_pos hone, if_pos hone, h₂]
      by_cases hsix : k < 6
      · rw [decide_eq_true hsix, Bool.true_and]
      · rw [hhigh k (by omega) hk, Bool.and_false]
    · rw [if_neg hone, if_neg hone, h₃]
      by_cases hsix : k < 6
      · rw [decide_eq_true hsix, Bool.true_and]
      · rw [hlow k (by omega) hk, Bool.and_false]

/-- What does not belong into a byte is seen wherever a pixel is set. -/
theorem mundane_spread666_iff (hm : d.mode = .rgb666) (hw : w ≤ d.width) :
    mundane ⟨.rgb888, d.width, d.height⟩ data (spread666 color) w h = mundane d data color w h ↔
      color &&& 0x30c0 = 0 ∨ Blank data w h := by
  obtain ⟨mode, dw, dh⟩ := d
  cases hm
  have hsets : ∀ {c : Color}, Sets ⟨.rgb666, dw, dh⟩ c := by
    rintro c (h | h) <;> cases h
  have hsets' : ∀ {c : Color}, Sets ⟨.rgb888, dw, dh⟩ c := by
    rintro c (h | h) <;> cases h
  have hcode : Paints (mundane ⟨.rgb888, dw, dh⟩ data (spread666 color) w h)
      (InBitmap ⟨.rgb888, dw, dh⟩ w h) (drawn ⟨.rgb888, dw, dh⟩ data (spread666 color) h) :=
    paints_mundane trivial hsets' hw
  have hspec : Paints (mundane ⟨.rgb666, dw, dh⟩ data color w h)
      (InBitmap ⟨.rgb666, dw, dh⟩ w h) (drawn ⟨.rgb666, dw, dh⟩ data color h) :=
    paints_mundane trivial hsets hw
  constructor
  · intro heq
    refine or_iff_not_imp_right.mpr fun hblank => ?_
    simp only [Blank, not_forall, not_not] at hblank
    obtain ⟨x, y, hx, hy, hlit⟩ := hblank
    have hbit : ∀ j k, j = 1 ∨ j = 2 → 6 ≤ k → k < 8 →
        (spread666 color).getLsbD (if j = 1 then 8 + k else k) = false := by
      intro j k hj hsix hk
      obtain ⟨hcol, hrow⟩ := (div_mod_iff (q := y) (Nat.lt_of_lt_of_le hx hw)).mpr rfl
      have hthird : ((y * dw + x) * 3 + j) / 3 = y * dw + x := by omega
      have hrest : ((y * dw + x) * 3 + j) % 3 = j := by omega
      have howner : owner ⟨.rgb888, dw, dh⟩ ((y * dw + x) * 3 + j) k = (x, y) := by
        simp only [owner, hthird]
        exact Prod.ext hcol hrow
      have howner' : owner ⟨.rgb666, dw, dh⟩ ((y * dw + x) * 3 + j) k = (x, y) := howner
      have hval := hcode.val_of_eq hspec heq hk (by rw [InBitmap, howner]; exact ⟨hx, hy⟩)
      rw [drawn, drawn, howner, howner', if_pos hlit, if_pos hlit] at hval
      simp only [value, hrest, if_neg (show ¬ j = 0 by omega),
        decide_eq_false (show ¬ k < 6 by omega), Bool.false_and] at hval
      exact hval
    refine spill_iff.mpr ⟨fun k hsix hk => ?_, fun k hsix hk => ?_⟩
    · rw [← (getLsbD_spread666 color k hk).2.2]
      exact hbit 2 k (.inr rfl) hsix hk
    · rw [← (getLsbD_spread666 color k hk).2.1]
      exact hbit 1 k (.inl rfl) hsix hk
  · rintro (hspill | hblank)
    · refine (hcode.congr (fun _ _ _ => Iff.rfl) fun a k hk _ => ?_).unique hspec
      change value _ (if Lit data h (owner ⟨.rgb666, dw, dh⟩ a k) then _ else _) a k = _
      rw [drawn]
      split
      · exact value_spread666 hspill dw dh a k hk
      · exact value_spread666 (by decide : black &&& 0x30c0 = 0) dw dh a k hk
    · exact mundane_blank hblank fun x y => rfl

/-! ### The ends of both memories -/

theorem index_lt {c r : ℕ} (hc : c < w) (hr : r < h) : c * h + r < w * h := by
  have hnext := Nat.mul_le_mul_right h (Nat.succ_le_of_lt hc)
  rw [Nat.succ_mul] at hnext
  omega

/-- A store of a pixel of the bitmap is inside, if its byte of the framebuffer is. -/
theorem inside_columns {size : ℕ}
    (hput : ∀ c r k, c < w → r < h → k < 8 →
      ∀ s ∈ put (c * h + r) c k (base c + 8 * line * r + k * line),
        s.src = c * h + r ∧ s.dst < size) :
    ∀ s ∈ columns line h base put 0 w, s.src < w * h ∧ s.dst < size := by
  intro s hs
  simp only [columns, ← List.range_eq_range', List.mem_flatMap, List.mem_range] at hs
  obtain ⟨c, hc, r, hr, k, hk, hmem⟩ := hs
  obtain ⟨hsrc, hdst⟩ := hput c r k hc hr hk s hmem
  exact ⟨hsrc ▸ index_lt hc hr, hdst⟩

section Ends

variable (hw : w ≤ d.width) (hh : h * 8 ≤ d.height)

include hw hh

theorem pixel_lt {c r k : ℕ} (hc : c < w) (hr : r < h) (hk : k < 8) :
    (r * 8 + k) * d.width + c < d.height * d.width :=
  index_lt (by omega) (by omega)

theorem inside_bitmap1 : ∀ s ∈ bitmap1 d w h, s.src < w * h ∧ s.dst < d.width * d.height / 8 := by
  intro s hs
  simp only [bitmap1, swapRow_eq, List.mem_flatMap, List.mem_range, List.mem_singleton] at hs
  obtain ⟨r, hr, c, hc, rfl⟩ := hs
  have hsrc := index_lt (h := h) hc hr
  have hdst : r * d.width + c < h * d.width := index_lt hr (by omega)
  have hsize : h * d.width ≤ d.width * d.height / 8 := by
    rw [Nat.le_div_iff_mul_le (by decide), Nat.mul_right_comm, Nat.mul_comm d.width]
    exact Nat.mul_le_mul_right _ hh
  exact ⟨by simp only; omega, by simp only; omega⟩

theorem inside_put1326 (hp : 8 ∣ d.width) :
    ∀ s ∈ columns (d.width / 8) h (fun c => c / 8) put1326 0 w,
      s.src < w * h ∧ s.dst < d.width * d.height / 8 := by
  refine inside_columns fun c r k hc hr hk s hs => ?_
  obtain rfl := List.mem_singleton.mp hs
  obtain ⟨q, hq⟩ := hp
  have hline : d.width / 8 = q := by omega
  have hsize : d.width * d.height / 8 = d.height * q := by
    rw [hq, Nat.mul_assoc, Nat.mul_div_cancel_left _ (by decide), Nat.mul_comm]
  have hdst : (r * 8 + k) * q + c / 8 < d.height * q := index_lt (by omega) (by omega)
  refine ⟨rfl, ?_⟩
  simp only [hline, hsize]
  have haddr : c / 8 + 8 * q * r + k * q = (r * 8 + k) * q + c / 8 := by ring
  omega

theorem inside_put4 (hp : 2 ∣ d.width) :
    ∀ s ∈ columns (d.width / 2) h (fun c => c / 2) (put4 color) 0 w,
      s.src < w * h ∧ s.dst < d.width * d.height / 2 := by
  refine inside_columns fun c r k hc hr hk s hs => ?_
  obtain rfl := List.mem_singleton.mp hs
  obtain ⟨q, hq⟩ := hp
  have hline : d.width / 2 = q := by omega
  have hsize : d.width * d.height / 2 = d.height * q := by
    rw [hq, Nat.mul_assoc, Nat.mul_div_cancel_left _ (by decide), Nat.mul_comm]
  have hdst : (r * 8 + k) * q + c / 2 < d.height * q := index_lt (by omega) (by omega)
  refine ⟨rfl, ?_⟩
  simp only [hline, hsize]
  have haddr : c / 2 + 8 * q * r + k * q = (r * 8 + k) * q + c / 2 := by ring
  omega

theorem inside_put8 : ∀ s ∈ columns d.width h id (put8 color) 0 w,
    s.src < w * h ∧ s.dst < d.width * d.height := by
  refine inside_columns fun c r k hc hr hk s hs => ?_
  obtain rfl := List.mem_singleton.mp hs
  have hdst := pixel_lt hw hh hc hr hk
  have haddr : c + 8 * d.width * r + k * d.width = (r * 8 + k) * d.width + c := by ring
  rw [Nat.mul_comm d.width d.height]
  exact ⟨rfl, by simp only [id]; omega⟩

theorem inside_put16 : ∀ s ∈ columns d.width h id (put16 color) 0 w,
    s.src < w * h ∧ s.dst < d.width * d.height * 2 := by
  refine inside_columns fun c r k hc hr hk s hs => ?_
  have hdst := pixel_lt hw hh hc hr hk
  have haddr : c + 8 * d.width * r + k * d.width = (r * 8 + k) * d.width + c := by ring
  rw [Nat.mul_comm d.width d.height]
  rcases List.mem_cons.mp hs with rfl | hs
  · exact ⟨rfl, by simp only [id]; omega⟩
  · obtain rfl := List.mem_singleton.mp hs
    exact ⟨rfl, by simp only [id]; omega⟩

theorem inside_put24 : ∀ s ∈ columns (d.width * 3) h (fun c => c * 3) (put24 color) 0 w,
    s.src < w * h ∧ s.dst < d.width * d.height * 3 := by
  refine inside_columns fun c r k hc hr hk s hs => ?_
  have hdst := pixel_lt hw hh hc hr hk
  have haddr : c * 3 + 8 * (d.width * 3) * r + k * (d.width * 3) =
      ((r * 8 + k) * d.width + c) * 3 := by ring
  rw [Nat.mul_comm d.width d.height]
  rcases List.mem_cons.mp hs with rfl | hs
  · exact ⟨rfl, by simp only; omega⟩
  rcases List.mem_cons.mp hs with rfl | hs
  · exact ⟨rfl, by simp only; omega⟩
  · obtain rfl := List.mem_singleton.mp hs
    exact ⟨rfl, by simp only; omega⟩

end Ends

end Pixel

/-- The last byte that SSD1675.c reads. -/
theorem bitmap1675_beyond (d : Display) {w h : ℕ} (hw : w ≠ 0) (hh : h ≠ 0) :
    ∃ s ∈ bitmap1675 d w h, w * h / 8 ≤ s.src := by
  obtain ⟨w, rfl⟩ := Nat.exists_eq_succ_of_ne_zero hw
  obtain ⟨h, rfl⟩ := Nat.exists_eq_succ_of_ne_zero hh
  refine ⟨⟨h + w * (h + 1), h * d.width + w, fun byte _ => byte⟩, ?_, ?_⟩
  · simp only [bitmap1675, swapRow_eq, List.mem_flatMap, List.mem_range, List.mem_singleton]
    exact ⟨h, Nat.lt_succ_self h, w, Nat.lt_succ_self w, rfl⟩
  · simp only [Nat.succ_eq_add_one, Nat.succ_mul]
    omega

theorem bitmap1675_nil (d : Display) {w h : ℕ} (hempty : w = 0 ∨ h = 0) :
    bitmap1675 d w h = [] := by
  rcases hempty with rfl | rfl
  · exact List.flatMap_eq_nil_iff.mpr fun _ _ => rfl
  · rfl

theorem mundane_empty (d : Display) (data : ℕ → UInt8) (color : Color) {w h : ℕ}
    (hempty : w = 0 ∨ h = 0) (f : Frame) : mundane d data color w h f = f := by
  have hblank : ∀ n (g : Frame), (List.range' 0 n).foldl (fun f _ => f) g = g := fun n g => by
    induction List.range' 0 n with
    | nil => rfl
    | cons _ l ih => exact ih
  rcases hempty with rfl | rfl
  · rfl
  · exact hblank _ f

/-- Stores that stay inside draw what they amount to. -/
theorem draws_iff {data : ℕ → UInt8} {stores : List Store} {code spec : Frame → Frame} {P : Prop}
    {w h size : ℕ} (hinside : ∀ s ∈ stores, s.src < w * (h / 8) ∧ s.dst < size)
    (hrun : run data stores = code) (hiff : code = spec ↔ P) :
    ((∀ f, run data stores f = spec f) ∧ ∀ s ∈ stores, s.src < w * h / 8 ∧ s.dst < size) ↔ P := by
  have hle : w * (h / 8) ≤ w * h / 8 := Nat.mul_div_le_mul_div_assoc w h 8
  rw [← hiff, ← hrun, funext_iff]
  refine and_iff_left fun s hs => ?_
  obtain ⟨hsrc, hdst⟩ := hinside s hs
  exact ⟨Nat.lt_of_lt_of_le hsrc hle, hdst⟩

/-- The bitmap is drawn as the mundane version has it, inside both memories, exactly for these
colours, bitmaps and modes. -/
theorem drawBitmapCBR_iff (d : Display) (data : ℕ → UInt8) (color : Color) (width height : ℕ)
    (hp : Packed d) (hw : width ≤ d.width) (hh : height ≤ d.height) :
    DrawsBitmap d data color width height ↔ SuitsBitmap d data color width height := by
  have hw' : sizeOr width d.width ≤ d.width := by
    rw [sizeOr]
    split <;> omega
  have hh' : sizeOr height d.height / 8 * 8 ≤ d.height := by
    have hle : sizeOr height d.height ≤ d.height := by
      rw [sizeOr]
      split <;> omega
    omega
  rw [DrawsBitmap, SuitsBitmap, drawBitmapCBR, framebufferSize]
  generalize sizeOr width d.width = w at hw' ⊢
  generalize sizeOr height d.height = h at hh' ⊢
  cases hm : d.mode with
  | mono =>
    exact draws_iff (inside_bitmap1 hw' hh') (run_bitmap1 hm hw')
      (mundane_white_iff (.inl hm) hp hw')
  | ssd1326 =>
    have hdiv : 8 ∣ d.width := by
      rw [Packed, hm] at hp
      exact hp
    have hrun : run data (columns (d.width / 8) (h / 8) (fun c => c / 8) put1326 0 w) =
        mundane d data white w (h / 8) :=
      run_columns fun c r k _ _ hk => run_put1326 (c * (h / 8) + r) c r hm hp hk
    simp only [columns1326_eq]
    exact draws_iff (inside_put1326 hw' hh' hdiv) hrun (mundane_white_iff (.inr hm) hp hw')
  | ssd1675 =>
    simp only
    constructor
    · rintro ⟨-, hinside⟩
      by_contra hnot
      obtain ⟨hw₀, hh₀⟩ := not_or.mp hnot
      obtain ⟨s, hs, hbeyond⟩ := bitmap1675_beyond d hw₀ hh₀
      exact absurd (hinside s hs).1 (Nat.not_lt.mpr hbeyond)
    · intro hempty
      rw [bitmap1675_nil d hempty]
      refine ⟨fun f => (mundane_empty d data color ?_ f).symm, fun s hs => ?_⟩
      case refine_2 => exact absurd hs List.not_mem_nil
      exact hempty.imp id fun hzero => by rw [hzero]
  | gray4 =>
    have hdiv : 2 ∣ d.width := by
      rw [Packed, hm] at hp
      exact hp
    have hrun : run data (columns (d.width / 2) (h / 8) (fun c => c / 2) (put4 color) 0 w) =
        mundane d data color w (h / 8) :=
      run_columns fun c r k _ _ hk => run_put4 (c * (h / 8) + r) c r hm hp hk
    simp only
    rw [linear_eq w rfl]
    exact draws_iff (inside_put4 hw' hh' hdiv) hrun (iff_of_true rfl trivial)
  | depth8 =>
    have hrun : run data (columns d.width (h / 8) id (put8 color) 0 w) =
        mundane d data color w (h / 8) :=
      run_columns fun c r k _ _ hk => run_put8 (c * (h / 8) + r) c r hm hk
    simp only
    rw [linear_eq w rfl]
    exact draws_iff (inside_put8 hw' hh') hrun (iff_of_true rfl trivial)
  | depth16 =>
    have hrun : run data (columns d.width (h / 8) id (put16 color) 0 w) =
        mundane d data color w (h / 8) :=
      run_columns fun c r k _ _ hk => run_put16 (c * (h / 8) + r) c r hm hk
    simp only
    rw [linear_eq w rfl]
    exact draws_iff (inside_put16 hw' hh') hrun (iff_of_true rfl trivial)
  | rgb666 =>
    have hrun : run data (columns (d.width * 3) (h / 8) (fun c => c * 3) (put24 (spread666 color))
          0 w) =
        mundane ⟨.rgb888, d.width, d.height⟩ data (spread666 color) w (h / 8) :=
      run_columns fun c r k _ _ hk => run_put24 (c * (h / 8) + r) c r hk
    simp only
    rw [linear_eq w rfl]
    exact draws_iff (inside_put24 hw' hh') hrun (mundane_spread666_iff hm hw')
  | rgb888 =>
    have hd : d = ⟨.rgb888, d.width, d.height⟩ := by
      rw [← hm]
    have hrun : run data (columns (d.width * 3) (h / 8) (fun c => c * 3) (put24 color) 0 w) =
        mundane ⟨.rgb888, d.width, d.height⟩ data color w (h / 8) :=
      run_columns fun c r k _ _ hk => run_put24 (c * (h / 8) + r) c r hk
    simp only
    rw [linear_eq w rfl]
    exact draws_iff (inside_put24 hw' hh') hrun (iff_of_true (by rw [← hd]) trivial)

/-- A bitmap of eight bits. -/
theorem drawBitmapCBR_depth8 : DrawsBitmap ⟨.depth8, 16, 16⟩ (fun _ => 0x81) 5 8 0 :=
  (drawBitmapCBR_iff ⟨.depth8, 16, 16⟩ (fun _ => 0x81) 5 8 0 trivial (by decide)
    (by decide)).mpr trivial

/-- A red pixel of `GDS_RGB666`. -/
theorem drawBitmapCBR_red : ¬ DrawsBitmap ⟨.rgb666, 8, 8⟩ (fun _ => 0x80) 0x3f000 1 8 := by
  rintro ⟨hdraws, -⟩
  have hbyte := congrFun (hdraws fun _ => 0) 1
  exact absurd hbyte (by decide)

end Pixels

end SqueezeliteMuse
