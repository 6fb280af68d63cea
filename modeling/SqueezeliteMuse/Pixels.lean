/-
SqueezeliteMuse/Pixels.lean

The pixels of a display in its framebuffer: `DrawPixelFast` of gds_private.h, and what the drivers
have in its place.

Each mode has its own layout.  `owner` says whose pixel a bit of the framebuffer is, and `value`
what it is in a colour; `paints_pixel`: drawing a pixel gives its bits the values of the colour,
unless the colour toggles them.
-/
import SqueezeliteMuse.Lib.Painting
import SqueezeliteMuse.Gds
import Mathlib.Data.Nat.Notation

namespace SqueezeliteMuse

namespace Pixels

open Gds Painting

/-! ### The code -/

/-- The layouts: SSD1306 and SH1106, SSD1326 with one bit, SSD1675, four bits, eight bits,
sixteen, and two with three bytes. -/
inductive Mode
  | mono | ssd1326 | ssd1675 | gray4 | depth8 | depth16 | rgb666 | rgb888
  deriving DecidableEq

/-- `Width`, `Height`, and what is drawn how. -/
structure Display where
  mode : Mode
  width : ℕ
  height : ℕ

/-- An `int` -/
abbrev Color := BitVec 32

/-- `GDS_COLOR_BLACK` -/
def black : Color := 0

/-- `GDS_COLOR_WHITE` -/
def white : Color := -1

/-- `GDS_COLOR_XOR` -/
def xor : Color := 256

/-- An `int` as a byte -/
def low (c : Color) : UInt8 := ⟨c.setWidth 8⟩

/-- `BIT` -/
def BIT (n : ℕ) : UInt8 := ⟨BitVec.twoPow 8 n⟩

variable (w x y : ℕ) (color : Color) (f : Frame)

/-- `DrawPixel1Fast` -/
def drawPixel1 : Frame :=
  Function.update f (y / 8 * w + x) <|
    if color = xor then f (y / 8 * w + x) ^^^ BIT (y % 8)
    else if color = black then f (y / 8 * w + x) &&& ~~~BIT (y % 8)
    else f (y / 8 * w + x) ||| BIT (y % 8)

/-- `_DrawPixel1Fast` of SSD132x.c -/
def drawPixel1326 : Frame :=
  Function.update f ((y * w + x) / 8) <|
    if color = xor then f ((y * w + x) / 8) ^^^ BIT (7 - x % 8)
    else if color = black then f ((y * w + x) / 8) &&& ~~~BIT (x % 8)
    else f ((y * w + x) / 8) ||| BIT (x % 8)

/-- `_DrawPixel` of SSD1675.c -/
def drawPixel1675 : Frame :=
  Function.update f (y / 8 * w + x) <|
    if color = black then f (y / 8 * w + x) &&& ~~~BIT (7 - y % 8)
    else f (y / 8 * w + x) ||| BIT (7 - y % 8)

/-- `DrawPixel4Fast` -/
def drawPixel4 : Frame :=
  Function.update f (y * w / 2 + x / 2) <|
    if x % 2 = 1 then (f (y * w / 2 + x / 2) &&& (0x0f : UInt8)) ||| low ((color &&& 0x0f) <<< 4)
    else (f (y * w / 2 + x / 2) &&& (0xf0 : UInt8)) ||| low (color &&& 0x0f)

/-- `DrawPixel8Fast` -/
def drawPixel8 : Frame := Function.update f (y * w + x) (low color)

/-- `__builtin_bswap16` -/
def bswap16 : Color := (color &&& 0xff) <<< 8 ||| color >>> 8 &&& 0xff

/-- A `uint16_t` in memory. -/
def store16 (f : Frame) (a : ℕ) (v : Color) : Frame :=
  Function.update (Function.update f (2 * a) (low v)) (2 * a + 1) (low (v >>> 8))

/-- Three bytes in memory. -/
def store24 (f : Frame) (a : ℕ) (b₀ b₁ b₂ : UInt8) : Frame :=
  Function.update (Function.update (Function.update f (a * 3) b₀) (a * 3 + 1) b₁) (a * 3 + 2) b₂

/-- `DrawPixel16Fast` -/
def drawPixel16 : Frame := store16 f (y * w + x) (bswap16 color)

/-- `DrawPixel18Fast` -/
def drawPixel18 : Frame :=
  store24 f (y * w + x) (low (color.sshiftRight 12)) (low (color.sshiftRight 6 &&& 0x3f))
    (low (color &&& 0x3f))

/-- `DrawPixel24Fast` -/
def drawPixel24 : Frame :=
  store24 f (y * w + x) (low (color.sshiftRight 16)) (low (color.sshiftRight 8)) (low color)

/-- `DrawPixelFast` -/
def drawPixelFast (d : Display) (x y : ℕ) (color : Color) (f : Frame) : Frame :=
  match d.mode with
  | .mono => drawPixel1 d.width x y color f
  | .ssd1326 => drawPixel1326 d.width x y color f
  | .ssd1675 => drawPixel1675 d.width x y color f
  | .gray4 => drawPixel4 d.width x y color f
  | .depth8 => drawPixel8 d.width x y color f
  | .depth16 => drawPixel16 d.width x y color f
  | .rgb666 => drawPixel18 d.width x y color f
  | .rgb888 => drawPixel24 d.width x y color f

/-! ### Whose bit it is -/

/-- The pixel that a bit of the framebuffer is of. -/
def owner (d : Display) (a k : ℕ) : ℕ × ℕ :=
  match d.mode with
  | .mono => (a % d.width, a / d.width * 8 + k)
  | .ssd1326 => (a % (d.width / 8) * 8 + k, a / (d.width / 8))
  | .ssd1675 => (a % d.width, a / d.width * 8 + (7 - k))
  | .gray4 => (a % (d.width / 2) * 2 + k / 4, a / (d.width / 2))
  | .depth8 => (a % d.width, a / d.width)
  | .depth16 => (a / 2 % d.width, a / 2 / d.width)
  | .rgb666 => (a / 3 % d.width, a / 3 / d.width)
  | .rgb888 => (a / 3 % d.width, a / 3 / d.width)

/-- A bit of the framebuffer, of a pixel in a colour. -/
def value (d : Display) (color : Color) (a k : ℕ) : Bool :=
  match d.mode with
  | .mono | .ssd1326 | .ssd1675 => color ≠ black
  | .gray4 => color.getLsbD (k % 4)
  | .depth8 => color.getLsbD k
  | .depth16 => color.getLsbD (if a % 2 = 0 then 8 + k else k)
  | .rgb666 =>
      if a % 3 = 0 then color.getLsbD (12 + k)
      else decide (k < 6) && color.getLsbD (if a % 3 = 1 then 6 + k else k)
  | .rgb888 => color.getLsbD (if a % 3 = 0 then 16 + k else if a % 3 = 1 then 8 + k else k)

/-- The colour sets pixels: it does not toggle them. -/
def Sets (d : Display) (color : Color) : Prop :=
  d.mode = .mono ∨ d.mode = .ssd1326 → color ≠ xor

/-- Rows are whole bytes. -/
def Packed (d : Display) : Prop :=
  match d.mode with
  | .ssd1326 => 8 ∣ d.width
  | .gray4 => 2 ∣ d.width
  | _ => True

/-! ### A pixel -/

theorem getLsbD_BIT {n k : ℕ} (hn : n < 8) : (BIT n).toBitVec.getLsbD k = decide (n = k) := by
  rw [BIT, BitVec.getLsbD_twoPow, decide_eq_true hn, Bool.true_and]

theorem getLsbD_low (c : Color) {k : ℕ} (hk : k < 8) :
    (low c).toBitVec.getLsbD k = c.getLsbD k := by
  rw [low, BitVec.getLsbD_setWidth, decide_eq_true hk, Bool.true_and]

theorem div_mod_iff {w a q x : ℕ} (hx : x < w) : a % w = x ∧ a / w = q ↔ a = q * w + x := by
  rw [and_comm, Nat.div_mod_unique (Nat.zero_lt_of_lt hx)]
  constructor
  · rintro ⟨rfl, -⟩
    rw [Nat.add_comm, Nat.mul_comm]
  · rintro rfl
    exact ⟨by rw [Nat.add_comm, Nat.mul_comm], hx⟩

/-- A bit that is set or cleared. -/
theorem paints_bit (a n : ℕ) (hn : n < 8) (color : Color) :
    Paints (fun f => Function.update f a
      (if color = black then f a &&& ~~~BIT n else f a ||| BIT n))
      (fun i k => i = a ∧ k = n) fun _ _ => color ≠ black := by
  refine Paints.update a (fun x => if color = black then x &&& ~~~BIT n else x ||| BIT n)
    (fun k => k = n) ?_ ?_
  · rintro x k hk rfl
    by_cases hblack : color = black
    · rw [if_pos hblack, UInt8.toBitVec_and, UInt8.toBitVec_not, BitVec.getLsbD_and,
        BitVec.getLsbD_not, getLsbD_BIT hn]
      simp [hblack]
    · rw [if_neg hblack, UInt8.toBitVec_or, BitVec.getLsbD_or, getLsbD_BIT hn]
      simp [hblack]
  · intro x k hk hne
    by_cases hblack : color = black
    · rw [if_pos hblack, UInt8.toBitVec_and, UInt8.toBitVec_not, BitVec.getLsbD_and,
        BitVec.getLsbD_not, getLsbD_BIT hn, decide_eq_true hk, decide_eq_false (Ne.symm hne)]
      simp
    · rw [if_neg hblack, UInt8.toBitVec_or, BitVec.getLsbD_or, getLsbD_BIT hn,
        decide_eq_false (Ne.symm hne), Bool.or_false]

/-- A byte that is stored. -/
theorem paints_byte (a : ℕ) (b : UInt8) {v : ℕ → ℕ → Bool}
    (hv : ∀ k, k < 8 → b.toBitVec.getLsbD k = v a k) :
    Paints (fun f => Function.update f a b) (fun i _ => i = a) v :=
  (Paints.update a (fun _ => b) (fun _ => True) (fun _ k hk _ => hv k hk)
    fun _ _ _ h => absurd trivial h).congr (fun _ _ _ => and_iff_left trivial) fun _ _ _ _ => rfl

section Modes

variable {w x y : ℕ} (color : Color)

theorem paints_pixel1 (hx : x < w) (hc : color ≠ xor) :
    Paints (drawPixel1 w x y color) (fun a k => (a % w, a / w * 8 + k) = (x, y))
      fun _ _ => color ≠ black := by
  have hbit := paints_bit (y / 8 * w + x) (y % 8) (Nat.mod_lt y (by decide)) color
  have hdraw : drawPixel1 w x y color = fun f => Function.update f (y / 8 * w + x)
      (if color = black then f (y / 8 * w + x) &&& ~~~BIT (y % 8)
        else f (y / 8 * w + x) ||| BIT (y % 8)) := by
    funext f
    rw [drawPixel1, if_neg hc]
  rw [hdraw]
  refine hbit.congr (fun a k hk => ?_) fun _ _ _ _ => rfl
  rw [← div_mod_iff hx, Prod.mk.injEq]
  omega

theorem paints_pixel1326 (hw : 8 ∣ w) (hx : x < w) (hc : color ≠ xor) :
    Paints (drawPixel1326 w x y color) (fun a k => (a % (w / 8) * 8 + k, a / (w / 8)) = (x, y))
      fun _ _ => color ≠ black := by
  obtain ⟨n, rfl⟩ := hw
  have hn : 8 * n / 8 = n := Nat.mul_div_cancel_left n (by decide)
  have haddr : (y * (8 * n) + x) / 8 = y * n + x / 8 := by
    rw [Nat.mul_left_comm, Nat.mul_add_div (by decide)]
  have hbit := paints_bit (y * n + x / 8) (x % 8) (Nat.mod_lt x (by decide)) color
  have hdraw : drawPixel1326 (8 * n) x y color = fun f => Function.update f (y * n + x / 8)
      (if color = black then f (y * n + x / 8) &&& ~~~BIT (x % 8)
        else f (y * n + x / 8) ||| BIT (x % 8)) := by
    funext f
    rw [drawPixel1326, if_neg hc, haddr]
  rw [hdraw, hn]
  refine hbit.congr (fun a k hk => ?_) fun _ _ _ _ => rfl
  rw [← div_mod_iff (show x / 8 < n by omega), Prod.mk.injEq]
  omega

theorem paints_pixel1675 (hx : x < w) :
    Paints (drawPixel1675 w x y color) (fun a k => (a % w, a / w * 8 + (7 - k)) = (x, y))
      fun _ _ => color ≠ black := by
  have hbit := paints_bit (y / 8 * w + x) (7 - y % 8) (by omega) color
  refine hbit.congr (fun a k hk => ?_) fun _ _ _ _ => rfl
  rw [← div_mod_iff hx, Prod.mk.injEq]
  omega

theorem getLsbD_0f (k : ℕ) (hk : k < 8) :
    (0x0f : UInt8).toBitVec.getLsbD k = decide (k < 4) := by
  have htable : ∀ k : Fin 8, (0x0f : UInt8).toBitVec.getLsbD k = decide (k.val < 4) := by decide
  exact htable ⟨k, hk⟩

theorem getLsbD_f0 (k : ℕ) (hk : k < 8) :
    (0xf0 : UInt8).toBitVec.getLsbD k = decide (4 ≤ k) := by
  have htable : ∀ k : Fin 8, (0xf0 : UInt8).toBitVec.getLsbD k = decide (4 ≤ k.val) := by decide
  exact htable ⟨k, hk⟩

theorem getLsbD_nibble (k : ℕ) (hk : k < 32) :
    (color &&& 0x0f).getLsbD k = (color.getLsbD k && decide (k < 4)) := by
  have htable : ∀ k : Fin 32, (0x0f : Color).getLsbD k = decide (k.val < 4) := by decide
  rw [BitVec.getLsbD_and]
  exact congrArg _ (htable ⟨k, hk⟩)

theorem getLsbD_nibble_low (k : ℕ) (hk : k < 8) :
    (low (color &&& 0x0f)).toBitVec.getLsbD k = (decide (k < 4) && color.getLsbD (k % 4)) := by
  rw [getLsbD_low _ hk, getLsbD_nibble color k (by omega), Bool.and_comm]
  by_cases hlow : k < 4
  · rw [Nat.mod_eq_of_lt hlow]
  · rw [decide_eq_false hlow, Bool.false_and, Bool.false_and]

theorem getLsbD_nibble_high (k : ℕ) (hk : k < 8) :
    (low ((color &&& 0x0f) <<< 4)).toBitVec.getLsbD k =
      (decide (4 ≤ k) && color.getLsbD (k % 4)) := by
  rw [getLsbD_low _ hk, BitVec.getLsbD_shiftLeft, decide_eq_true (show k < 32 by omega)]
  by_cases hlow : k < 4
  · rw [decide_eq_true hlow, decide_eq_false (show ¬ 4 ≤ k by omega)]
    rfl
  · rw [getLsbD_nibble color (k - 4) (by omega), decide_eq_true (show k - 4 < 4 by omega),
      decide_eq_false hlow, decide_eq_true (show 4 ≤ k by omega),
      show k % 4 = k - 4 by omega]
    simp

theorem paints_pixel4 (hw : 2 ∣ w) (hx : x < w) :
    Paints (drawPixel4 w x y color) (fun a k => (a % (w / 2) * 2 + k / 4, a / (w / 2)) = (x, y))
      fun _ k => color.getLsbD (k % 4) := by
  obtain ⟨n, rfl⟩ := hw
  have hn : 2 * n / 2 = n := Nat.mul_div_cancel_left n (by decide)
  have haddr : y * (2 * n) / 2 = y * n := by
    rw [Nat.mul_left_comm, Nat.mul_div_cancel_left _ (by decide)]
  have hdraw : drawPixel4 (2 * n) x y color = fun f => Function.update f (y * n + x / 2)
      (if x % 2 = 1 then (f (y * n + x / 2) &&& (0x0f : UInt8)) ||| low ((color &&& 0x0f) <<< 4)
        else (f (y * n + x / 2) &&& (0xf0 : UInt8)) ||| low (color &&& 0x0f)) := by
    funext f
    rw [drawPixel4, haddr]
  rw [hdraw, hn]
  refine (Paints.update (y * n + x / 2) (fun b => if x % 2 = 1 then
      (b &&& (0x0f : UInt8)) ||| low ((color &&& 0x0f) <<< 4)
    else (b &&& (0xf0 : UInt8)) ||| low (color &&& 0x0f)) (fun k => k / 4 = x % 2) ?_ ?_).congr
    (fun a k hk => ?_) fun _ _ _ _ => rfl
  · intro b k hk hT
    split
    case isTrue hodd =>
      rw [UInt8.toBitVec_or, UInt8.toBitVec_and, BitVec.getLsbD_or, BitVec.getLsbD_and,
        getLsbD_0f k hk, getLsbD_nibble_high color k hk, decide_eq_false (show ¬ k < 4 by omega),
        decide_eq_true (show 4 ≤ k by omega), Bool.and_false, Bool.false_or, Bool.true_and]
    case isFalse heven =>
      rw [UInt8.toBitVec_or, UInt8.toBitVec_and, BitVec.getLsbD_or, BitVec.getLsbD_and,
        getLsbD_f0 k hk, getLsbD_nibble_low color k hk, decide_eq_false (show ¬ 4 ≤ k by omega),
        decide_eq_true (show k < 4 by omega), Bool.and_false, Bool.false_or, Bool.true_and]
  · intro b k hk hT
    split
    case isTrue hodd =>
      rw [UInt8.toBitVec_or, UInt8.toBitVec_and, BitVec.getLsbD_or, BitVec.getLsbD_and,
        getLsbD_0f k hk, getLsbD_nibble_high color k hk, decide_eq_true (show k < 4 by omega),
        decide_eq_false (show ¬ 4 ≤ k by omega), Bool.and_true, Bool.false_and, Bool.or_false]
    case isFalse heven =>
      rw [UInt8.toBitVec_or, UInt8.toBitVec_and, BitVec.getLsbD_or, BitVec.getLsbD_and,
        getLsbD_f0 k hk, getLsbD_nibble_low color k hk, decide_eq_true (show 4 ≤ k by omega),
        decide_eq_false (show ¬ k < 4 by omega), Bool.and_true, Bool.false_and, Bool.or_false]
  · rw [← div_mod_iff (show x / 2 < n by omega), Prod.mk.injEq]
    omega

theorem paints_pixel8 (hx : x < w) :
    Paints (drawPixel8 w x y color) (fun a _ => (a % w, a / w) = (x, y))
      fun _ k => color.getLsbD k := by
  refine (paints_byte (y * w + x) (low color) fun k hk => getLsbD_low color hk).congr
    (fun a k hk => ?_) fun _ _ _ _ => rfl
  rw [← div_mod_iff hx, Prod.mk.injEq]

/-- The bytes of a value of sixteen bits. -/
theorem paints_store16 (a : ℕ) (c : Color) {v : ℕ → ℕ → Bool}
    (hlow : ∀ k, k < 8 → c.getLsbD k = v (2 * a) k)
    (hhigh : ∀ k, k < 8 → c.getLsbD (8 + k) = v (2 * a + 1) k) :
    Paints (fun f => store16 f a c) (fun i _ => i / 2 = a) v := by
  have h₀ := paints_byte (2 * a) (low c) (v := v) fun k hk => by rw [getLsbD_low c hk, hlow k hk]
  have h₁ := paints_byte (2 * a + 1) (low (c >>> 8)) (v := v) fun k hk => by
    rw [getLsbD_low _ hk, BitVec.getLsbD_ushiftRight, hhigh k hk]
  refine (h₀.comp h₁).congr (fun i k hk => ?_) fun _ _ _ _ => rfl
  omega

/-- Three bytes. -/
theorem paints_store24 (a : ℕ) (b₀ b₁ b₂ : UInt8) {v : ℕ → ℕ → Bool}
    (h₀ : ∀ k, k < 8 → b₀.toBitVec.getLsbD k = v (a * 3) k)
    (h₁ : ∀ k, k < 8 → b₁.toBitVec.getLsbD k = v (a * 3 + 1) k)
    (h₂ : ∀ k, k < 8 → b₂.toBitVec.getLsbD k = v (a * 3 + 2) k) :
    Paints (fun f => store24 f a b₀ b₁ b₂) (fun i _ => i / 3 = a) v := by
  refine (((paints_byte _ _ h₀).comp (paints_byte _ _ h₁)).comp (paints_byte _ _ h₂)).congr
    (fun i k hk => ?_) fun _ _ _ _ => rfl
  omega

theorem getLsbD_bswap16 (k : ℕ) (hk : k < 16) :
    (bswap16 color).getLsbD k = color.getLsbD (if k < 8 then 8 + k else k - 8) := by
  have htable : ∀ k : Fin 32, (0xff : Color).getLsbD k = decide (k.val < 8) := by decide
  have hff : ∀ k, k < 32 → (0xff : Color).getLsbD k = decide (k < 8) := fun k hk =>
    htable ⟨k, hk⟩
  rw [bswap16, BitVec.getLsbD_or, BitVec.getLsbD_shiftLeft, BitVec.getLsbD_and,
    BitVec.getLsbD_and, BitVec.getLsbD_ushiftRight, hff k (by omega), hff (k - 8) (by omega)]
  split
  case isTrue h => simp [h]
  case isFalse h => simp [h, show k < 32 by omega, show k - 8 < 8 by omega]

theorem paints_pixel16 (hx : x < w) :
    Paints (drawPixel16 w x y color) (fun a _ => (a / 2 % w, a / 2 / w) = (x, y))
      fun a k => color.getLsbD (if a % 2 = 0 then 8 + k else k) := by
  refine (paints_store16 (y * w + x) (bswap16 color) (fun k hk => ?_) fun k hk => ?_).congr
    (fun a k hk => ?_) fun _ _ _ _ => rfl
  · rw [getLsbD_bswap16 color k (by omega), if_pos hk, if_pos (Nat.mul_mod_right 2 _)]
  · rw [getLsbD_bswap16 color (8 + k) (by omega), if_neg (by omega), if_neg (by omega),
      Nat.add_sub_cancel_left]
  · rw [← div_mod_iff hx, Prod.mk.injEq]

theorem getLsbD_sshiftRight (n k : ℕ) (h : n + k < 32) :
    (color.sshiftRight n).getLsbD k = color.getLsbD (n + k) := by
  rw [BitVec.getLsbD_sshiftRight]
  simp [h, show ¬ 32 ≤ k by omega]

theorem getLsbD_3f (c : Color) (k : ℕ) (hk : k < 8) :
    (low (c &&& 0x3f)).toBitVec.getLsbD k = (decide (k < 6) && c.getLsbD k) := by
  have htable : ∀ k : Fin 8, (0x3f : Color).getLsbD k = decide (k.val < 6) := by decide
  rw [getLsbD_low _ hk, BitVec.getLsbD_and, Bool.and_comm]
  exact congrArg (· && _) (htable ⟨k, hk⟩)

theorem paints_pixel18 (hx : x < w) :
    Paints (drawPixel18 w x y color) (fun a _ => (a / 3 % w, a / 3 / w) = (x, y))
      fun a k => if a % 3 = 0 then color.getLsbD (12 + k)
        else decide (k < 6) && color.getLsbD (if a % 3 = 1 then 6 + k else k) := by
  refine (paints_store24 (y * w + x) _ _ _ (fun k hk => ?_) (fun k hk => ?_) fun k hk => ?_).congr
    (fun a k hk => ?_) fun _ _ _ _ => rfl
  · rw [getLsbD_low _ hk, getLsbD_sshiftRight color 12 k (by omega), if_pos (by omega)]
  · rw [getLsbD_3f _ k hk, getLsbD_sshiftRight color 6 k (by omega), if_neg (by omega),
      if_pos (by omega)]
  · rw [getLsbD_3f _ k hk, if_neg (by omega), if_neg (by omega)]
  · rw [← div_mod_iff hx, Prod.mk.injEq]

theorem paints_pixel24 (hx : x < w) :
    Paints (drawPixel24 w x y color) (fun a _ => (a / 3 % w, a / 3 / w) = (x, y))
      fun a k => color.getLsbD (if a % 3 = 0 then 16 + k else if a % 3 = 1 then 8 + k else k) := by
  refine (paints_store24 (y * w + x) _ _ _ (fun k hk => ?_) (fun k hk => ?_) fun k hk => ?_).congr
    (fun a k hk => ?_) fun _ _ _ _ => rfl
  · rw [getLsbD_low _ hk, getLsbD_sshiftRight color 16 k (by omega), if_pos (by omega)]
  · rw [getLsbD_low _ hk, getLsbD_sshiftRight color 8 k (by omega), if_neg (by omega),
      if_pos (by omega)]
  · rw [getLsbD_low _ hk, if_neg (by omega), if_neg (by omega)]
  · rw [← div_mod_iff hx, Prod.mk.injEq]

end Modes

/-- Drawing a pixel gives its bits the values of the colour. -/
theorem paints_pixel {d : Display} {x y : ℕ} {color : Color} (hp : Packed d) (hx : x < d.width)
    (hc : Sets d color) :
    Paints (drawPixelFast d x y color) (fun a k => owner d a k = (x, y)) (value d color) := by
  obtain ⟨mode, w, h⟩ := d
  cases mode with
  | mono => exact paints_pixel1 color hx (hc (.inl rfl))
  | ssd1326 => exact paints_pixel1326 color hp hx (hc (.inr rfl))
  | ssd1675 => exact paints_pixel1675 color hx
  | gray4 => exact paints_pixel4 color hp hx
  | depth8 => exact paints_pixel8 color hx
  | depth16 => exact paints_pixel16 color hx
  | rgb666 => exact paints_pixel18 color hx
  | rgb888 => exact paints_pixel24 color hx

/-- Any pixel has a bit that is set in white, and not in black. -/
theorem exists_shown {d : Display} (hp : Packed d) {x : ℕ} (hx : x < d.width) (y : ℕ) :
    ∃ a k, k < 8 ∧ owner d a k = (x, y) ∧
      (∀ color : Color, color.getLsbD 0 = true → value d color a k = true) ∧
      value d black a k = false := by
  have hblack : ∀ color : Color, color.getLsbD 0 = true → color ≠ black := by
    rintro _ h rfl
    exact absurd h (by decide)
  have hbits : ∀ n, black.getLsbD n = false := fun n => BitVec.getLsbD_zero
  obtain ⟨mode, w, h⟩ := d
  have hat : ∀ r : ℕ, (r * w + x) % w = x ∧ (r * w + x) / w = r := fun r =>
    (div_mod_iff hx).mpr rfl
  cases mode with
  | mono =>
    refine ⟨y / 8 * w + x, y % 8, by omega, ?_,
      fun color hc => decide_eq_true (hblack color hc), rfl⟩
    obtain ⟨hmod, hdiv⟩ := hat (y / 8)
    simp only [owner, hmod, hdiv, Prod.mk.injEq, true_and]
    omega
  | ssd1326 =>
    obtain ⟨n, rfl⟩ : 8 ∣ w := hp
    have hn : 8 * n / 8 = n := Nat.mul_div_cancel_left n (by decide)
    refine ⟨y * n + x / 8, x % 8, by omega, ?_,
      fun color hc => decide_eq_true (hblack color hc), rfl⟩
    have hx' : x / 8 < n := by
      simp only at hx
      omega
    obtain ⟨hmod, hdiv⟩ := (div_mod_iff (q := y) hx').mpr rfl
    simp only [owner, hn, hmod, hdiv, Prod.mk.injEq, and_true]
    omega
  | ssd1675 =>
    refine ⟨y / 8 * w + x, 7 - y % 8, by omega, ?_,
      fun color hc => decide_eq_true (hblack color hc), rfl⟩
    obtain ⟨hmod, hdiv⟩ := hat (y / 8)
    simp only [owner, hmod, hdiv, Prod.mk.injEq, true_and]
    omega
  | gray4 =>
    obtain ⟨n, rfl⟩ : 2 ∣ w := hp
    have hn : 2 * n / 2 = n := Nat.mul_div_cancel_left n (by decide)
    have hzero : 4 * (x % 2) % 4 = 0 := Nat.mul_mod_right 4 _
    refine ⟨y * n + x / 2, 4 * (x % 2), by omega, ?_, fun color hc => ?_, hbits _⟩
    · have hx' : x / 2 < n := by
        simp only at hx
        omega
      obtain ⟨hmod, hdiv⟩ := (div_mod_iff (q := y) hx').mpr rfl
      simp only [owner, hn, hmod, hdiv, Prod.mk.injEq, and_true]
      omega
    · simp only [value, hzero]
      exact hc
  | depth8 =>
    obtain ⟨hmod, hdiv⟩ := hat y
    exact ⟨y * w + x, 0, by decide, Prod.ext hmod hdiv, fun _ hc => hc, hbits _⟩
  | depth16 =>
    obtain ⟨hmod, hdiv⟩ := hat y
    have hhalf : (2 * (y * w + x) + 1) / 2 = y * w + x := by omega
    refine ⟨2 * (y * w + x) + 1, 0, by decide, ?_, fun color hc => ?_, hbits _⟩
    · simp only [owner, hhalf, hmod, hdiv]
    · have hodd : ¬ (2 * (y * w + x) + 1) % 2 = 0 := by omega
      simp only [value, if_neg hodd]
      exact hc
  | rgb666 =>
    obtain ⟨hmod, hdiv⟩ := hat y
    have hthird : (3 * (y * w + x) + 2) / 3 = y * w + x := by omega
    have h₀ : ¬ (3 * (y * w + x) + 2) % 3 = 0 := by omega
    have h₁ : ¬ (3 * (y * w + x) + 2) % 3 = 1 := by omega
    refine ⟨3 * (y * w + x) + 2, 0, by decide, ?_, fun color hc => ?_, ?_⟩
    · simp only [owner, hthird, hmod, hdiv]
    · simp only [value, if_neg h₀, if_neg h₁]
      exact hc
    · simp only [value, if_neg h₀, hbits, Bool.and_false]
  | rgb888 =>
    obtain ⟨hmod, hdiv⟩ := hat y
    have hthird : (3 * (y * w + x) + 2) / 3 = y * w + x := by omega
    have h₀ : ¬ (3 * (y * w + x) + 2) % 3 = 0 := by omega
    have h₁ : ¬ (3 * (y * w + x) + 2) % 3 = 1 := by omega
    refine ⟨3 * (y * w + x) + 2, 0, by decide, ?_, fun color hc => ?_, hbits _⟩
    · simp only [owner, hthird, hmod, hdiv]
    · simp only [value, if_neg h₀, if_neg h₁]
      exact hc

end Pixels

end SqueezeliteMuse
