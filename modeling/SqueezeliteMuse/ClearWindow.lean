/-
SqueezeliteMuse/ClearWindow.lean

`GDS_ClearWindow` of gds.c, and what SSD132x.c and SSD1675.c have for it.

Each depth has a faster way than pixel by pixel.  The branch for a depth of one is not closed
before that for a depth of four begins, so with one bit all pixels of the window are drawn once
more afterwards.  Sixteen bits are stored without the swap of `DrawPixel16Fast`, and of three bytes
each gets the lowest of the colour, and the last pixel of a row only its first.

Main result: `clearWindow_iff`: exactly when the framebuffer is what it is pixel by pixel.
-/
import SqueezeliteMuse.Pixels
import Mathlib.Data.Int.Notation

namespace SqueezeliteMuse

namespace Pixels

open Gds Painting

/-! ### The code -/

/-- `for (k = first; k < stop; k++)` -/
def loop (first stop : ℕ) (body : ℕ → Frame → Frame) (f : Frame) : Frame :=
  (List.range' first (stop - first)).foldl (fun f k => body k f) f

/-- -1 means up to width, or height. -/
def far (last : ℤ) (size : ℕ) : ℕ := if last < 0 then size - 1 else last.toNat

variable (d : Display) (x1 y1 x2 y2 : ℕ) (color : Color)

/-- Pixel by pixel. -/
def drawWindow : Frame → Frame :=
  loop y1 (y2 + 1) fun y => loop x1 (x2 + 1) fun x => drawPixelFast d x y color

/-- `_Color` of one bit -/
def fill1 : UInt8 := if color = black then 0 else 0xff

/-- The rows of a window of one bit, from `r` on. -/
def clearRows : ℕ → ℕ → Frame → Frame
  | 0, _, f => f
  | fuel + 1, r, f =>
      if y2 < r then f
      else
        -- for a row that is not on a boundary, no optimization possible
        let r' := min ((r + 7) / 8 * 8) (y2 + 1)
        let f := loop r r' (fun r => loop x1 (x2 + 1) fun c => drawPixelFast d c r color) f
        if r' + 8 ≤ y2 then
          clearRows fuel (r' + 8)
            (memset f (d.width / 8 % 256 * r' + x1) (fill1 color) (x2 - x1 + 1))
        else loop r' (y2 + 1) (fun r => loop x1 (x2 + 1) fun c => drawPixelFast d c r color) f

/-- All of the screen is erased. -/
def Whole : Prop := x2 - x1 = d.width - 1 ∧ y2 - y1 = d.height - 1

instance : Decidable (Whole d x1 y1 x2 y2) := instDecidableAnd

/-- A depth of one. -/
def clear1 (f : Frame) : Frame :=
  if Whole d x1 y1 x2 y2 then memset f 0 (fill1 color) (d.width * d.height / 8)
  else clearRows d x1 x2 y2 color (y2 + 1) y1 f

/-- A row of `ClearWindow` of SSD132x.c -/
def clearRow1326 (r : ℕ) (f : Frame) : Frame :=
  let c := min ((x1 + 7) / 8 * 8) (x2 + 1)
  let f := loop x1 c (fun c => drawPixelFast d c r color) f
  -- at this point we are aligned on column boundary
  let chunk := (x2 + 1 - c) / 8
  let f := memset f (d.width / 8 * r + c / 8) (fill1 color) chunk
  loop (c + chunk * 8) (x2 + 1) (fun c => drawPixelFast d c r color) f

/-- `ClearWindow` of SSD132x.c -/
def clear1326 : Frame → Frame := loop y1 (y2 + 1) (clearRow1326 d x1 x2 color)

/-- A row, of a depth of four. -/
def clearRow4 (r : ℕ) (f : Frame) : Frame :=
  let c := if x1 % 2 = 1 then x1 + 1 else x1
  let f := if x1 % 2 = 1 then drawPixelFast d x1 r color f else f
  let chunk := (x2 + 1 - c) / 2
  let f := memset f ((r * d.width + c) / 2) (low (color ||| color <<< 4)) chunk
  if c + chunk ≤ x2 then drawPixelFast d x2 r color f else f

/-- A depth of four. -/
def clear4 (f : Frame) : Frame :=
  if Whole d x1 y1 x2 y2 then memset f 0 (low (color ||| color <<< 4)) (d.width * d.height / 2)
  else loop y1 (y2 + 1) (clearRow4 d x1 x2 color) f

/-- `CLEAR_WINDOW`, of bytes -/
def clearBytes (n : ℕ) : Frame → Frame :=
  loop y1 (y2 + 1) fun y f => memset f ((y * d.width + x1) * n) (low color) ((x2 - x1) * n + 1)

/-- `CLEAR_WINDOW`, of `uint16_t` -/
def clearWords : Frame → Frame :=
  loop y1 (y2 + 1) fun y => loop 0 (x2 - x1 + 1) fun c f => store16 f (y * d.width + x1 + c) color

/-- `GDS_ClearWindow` -/
def clearWindow (x2 y2 : ℤ) (f : Frame) : Frame :=
  let x2 := far x2 d.width
  let y2 := far y2 d.height
  let f :=
    match d.mode with
    -- driver can provide own optimized clear window
    | .ssd1326 => clear1326 d x1 y1 x2 y2 color f
    | .ssd1675 => drawWindow d x1 y1 x2 y2 color f
    | .mono => clear1 d x1 y1 x2 y2 color f
    | _ => f
  match d.mode with
  | .gray4 => clear4 d x1 y1 x2 y2 color f
  | .depth8 => clearBytes d x1 y1 x2 y2 color 1 f
  | .depth16 => clearWords d x1 y1 x2 y2 color f
  | .rgb666 | .rgb888 => clearBytes d x1 y1 x2 y2 color 3 f
  | .mono | .ssd1326 | .ssd1675 => drawWindow d x1 y1 x2 y2 color f

/-! ### What it is for -/

/-- Whatever is in the framebuffer, clearing the window is drawing its pixels. -/
def Clears (x2 y2 : ℤ) : Prop :=
  clearWindow d x1 y1 color x2 y2 =
    drawWindow d x1 y1 (far x2 d.width) (far y2 d.height) color

/-- The colours of a mode. -/
def Valid : Prop :=
  match d.mode with
  | .mono | .ssd1326 | .ssd1675 => color = black ∨ color = white ∨ color = xor
  | .gray4 => color < 16 ∨ color = white
  | .depth8 => color < 256 ∨ color = white
  | .depth16 => color < 65536 ∨ color = white
  | .rgb666 => color < 262144 ∨ color = white
  | .rgb888 => color < 16777216 ∨ color = white

/-- The bit is of a pixel of the window. -/
def InWindow (a k : ℕ) : Prop :=
  (x1 ≤ (owner d a k).1 ∧ (owner d a k).1 ≤ x2) ∧ y1 ≤ (owner d a k).2 ∧ (owner d a k).2 ≤ y2

/-- The byte is one of those that are filled for eight rows, from row `r` on. -/
def Filled (r a : ℕ) : Prop :=
  ∃ r', r ≤ r' ∧ r' % 8 = 0 ∧ r' + 8 ≤ y2 ∧ d.width / 8 % 256 * r' + x1 ≤ a ∧
    a < d.width / 8 % 256 * r' + x1 + (x2 - x1 + 1)

/-- When it is. -/
def Agrees : Prop :=
  match d.mode with
  | .mono => color ≠ xor ∧
      (Whole d x1 y1 x2 y2 ∨ ∀ a, Filled d x1 x2 y2 y1 a → ∀ k < 8, InWindow d x1 y1 x2 y2 a k)
  | .ssd1326 => color ≠ xor
  | .ssd1675 | .gray4 | .depth8 => True
  | .depth16 => low color = low (color >>> 8)
  | .rgb666 | .rgb888 => False

/-! ### Loops -/

variable {d x1 y1 x2 y2 color}

/-- What a loop paints. -/
theorem paints_loop {first stop : ℕ} {body : ℕ → Frame → Frame} {T : ℕ → ℕ → ℕ → Prop}
    {v : ℕ → ℕ → Bool} (h : ∀ k, first ≤ k → k < stop → Paints (body k) (T k) v) :
    Paints (loop first stop body) (fun a b => ∃ k, (first ≤ k ∧ k < stop) ∧ T k a b) v := by
  have hmem : ∀ k, k ∈ List.range' first (stop - first) ↔ first ≤ k ∧ k < stop := by
    intro k
    rw [List.mem_range'_1]
    omega
  have hall : ∀ k ∈ List.range' first (stop - first), Paints (body k) (T k) v := fun k hk =>
    h k ((hmem k).mp hk).1 ((hmem k).mp hk).2
  refine (Paints.foldl _ hall).congr (fun a b _ => ?_) fun _ _ _ _ => rfl
  simp only [hmem]

/-- A row of pixels. -/
theorem paints_row (hp : Packed d) (hc : Sets d color) (r : ℕ) {first stop : ℕ}
    (hstop : stop ≤ d.width) :
    Paints (loop first stop fun c => drawPixelFast d c r color)
      (fun a k => (first ≤ (owner d a k).1 ∧ (owner d a k).1 < stop) ∧ (owner d a k).2 = r)
      (value d color) := by
  refine (paints_loop fun c _ hlt => paints_pixel hp (show c < d.width by omega) hc).congr
    (fun a k _ => ?_) fun _ _ _ _ => rfl
  constructor
  · rintro ⟨c, hin, howner⟩
    rw [howner]
    exact ⟨hin, rfl⟩
  · rintro ⟨hin, rfl⟩
    exact ⟨_, hin, rfl⟩

/-- Rows of pixels. -/
theorem paints_rows (hp : Packed d) (hc : Sets d color) (hx : x2 < d.width) (r stop : ℕ) :
    Paints (loop r stop fun r => loop x1 (x2 + 1) fun c => drawPixelFast d c r color)
      (fun a k => (x1 ≤ (owner d a k).1 ∧ (owner d a k).1 ≤ x2) ∧
        r ≤ (owner d a k).2 ∧ (owner d a k).2 < stop) (value d color) := by
  refine (paints_loop fun r _ _ => paints_row hp hc r (show x2 + 1 ≤ d.width by omega)).congr
    (fun a k _ => ?_) fun _ _ _ _ => rfl
  constructor
  · rintro ⟨r', hin, ⟨hfirst, hlast⟩, hrow⟩
    exact ⟨⟨hfirst, by omega⟩, by omega, by omega⟩
  · rintro ⟨⟨hfirst, hlast⟩, hin⟩
    exact ⟨_, hin, ⟨hfirst, by omega⟩, rfl⟩

theorem paints_window (hp : Packed d) (hc : Sets d color) (hx : x2 < d.width) :
    Paints (drawWindow d x1 y1 x2 y2 color) (InWindow d x1 y1 x2 y2) (value d color) := by
  refine (paints_rows hp hc hx y1 (y2 + 1)).congr (fun a k _ => ?_) fun _ _ _ _ => rfl
  rw [InWindow, Nat.lt_succ_iff]

/-- Rows that each paint their part of the window. -/
theorem paints_rows_window {body : ℕ → Frame → Frame} {v : ℕ → ℕ → Bool}
    (h : ∀ r, Paints (body r)
      (fun a k => (x1 ≤ (owner d a k).1 ∧ (owner d a k).1 ≤ x2) ∧ (owner d a k).2 = r) v) :
    Paints (loop y1 (y2 + 1) body) (InWindow d x1 y1 x2 y2) v := by
  refine (paints_loop fun r _ _ => h r).congr (fun a k _ => ?_) fun _ _ _ _ => rfl
  constructor
  · rintro ⟨r, hin, hcol, rfl⟩
    exact ⟨hcol, hin.1, by omega⟩
  · rintro ⟨hcol, hrow⟩
    exact ⟨_, ⟨hrow.1, by omega⟩, hcol, rfl⟩

/-! ### One bit -/

theorem fill1_bit (k : ℕ) (hk : k < 8) :
    (fill1 color).toBitVec.getLsbD k = decide (color ≠ black) := by
  rw [fill1]
  split
  case isTrue hblack =>
    rw [hblack]
    exact BitVec.getLsbD_zero
  case isFalse hne =>
    have hones : (0xff : UInt8).toBitVec = BitVec.allOnes 8 := rfl
    rw [hones, BitVec.getLsbD_allOnes, decide_eq_true hk, decide_eq_true hne]

/-- Bytes of one bit for each pixel. -/
theorem paints_fill1 (hmode : ∀ a k, value d color a k = decide (color ≠ black)) (a n : ℕ) :
    Paints (fun f => memset f a (fill1 color) n) (fun i _ => a ≤ i ∧ i < a + n)
      (value d color) :=
  Paints.memset a (fill1 color) n fun i k hk _ => by rw [fill1_bit k hk, hmode]

/-- The rows from `r` on paint pixels of the window, and what is filled. -/
theorem paints_clearRows (hmode : ∀ a k, value d color a k = decide (color ≠ black))
    (hp : Packed d) (hc : Sets d color) (hx : x2 < d.width) (fuel r : ℕ) (hr : y1 ≤ r)
    (hfuel : y2 < r + fuel) :
    ∃ S, Paints (clearRows d x1 x2 y2 color fuel r) S (value d color) ∧
      (∀ a k, S a k → InWindow d x1 y1 x2 y2 a k ∨ Filled d x1 x2 y2 r a) ∧
      ∀ a k, Filled d x1 x2 y2 r a → S a k := by
  have hnone : ∀ r, y2 < r → ∀ a, ¬ Filled d x1 x2 y2 r a := by
    rintro r hlt a ⟨r', hle, -, hlast, -⟩
    omega
  induction fuel generalizing r with
  | zero =>
    exact ⟨fun _ _ => False, Paints.id, fun _ _ h => h.elim,
      fun a _ h => hnone r (by omega) a h⟩
  | succ fuel ih =>
    by_cases hend : y2 < r
    · have hid : clearRows d x1 x2 y2 color (fuel + 1) r = id := by
        funext f
        rw [clearRows, if_pos hend]
        rfl
      exact ⟨fun _ _ => False, hid ▸ Paints.id, fun _ _ h => h.elim,
        fun a _ h => hnone r hend a h⟩
    · generalize hr' : min ((r + 7) / 8 * 8) (y2 + 1) = r'
      have hle : r ≤ r' := by omega
      have hbelow : r' ≤ y2 + 1 := by omega
      have hhead : Paints (loop r r' fun r => loop x1 (x2 + 1) fun c => drawPixelFast d c r color)
          _ _ := paints_rows hp hc hx r r'
      by_cases hmore : r' + 8 ≤ y2
      · obtain ⟨S, hS, hin, hfilled⟩ := ih (r' + 8) (by omega) (by omega)
        have hstep : clearRows d x1 x2 y2 color (fuel + 1) r = fun f =>
            clearRows d x1 x2 y2 color fuel (r' + 8)
              (memset (loop r r' (fun r => loop x1 (x2 + 1) fun c => drawPixelFast d c r color) f)
                (d.width / 8 % 256 * r' + x1) (fill1 color) (x2 - x1 + 1)) := by
          funext f
          rw [clearRows, if_neg hend, hr']
          exact if_pos hmore
        have hfill := paints_fill1 hmode (d.width / 8 % 256 * r' + x1) (x2 - x1 + 1)
        refine ⟨_, hstep ▸ (hhead.comp hfill).comp hS, ?_, ?_⟩
        · rintro a k ((⟨hcol, hrow₁, hrow₂⟩ | ⟨hfirst, hlast⟩) | hrest)
          · exact Or.inl ⟨hcol, by omega, by omega⟩
          · exact Or.inr ⟨r', hle, by omega, hmore, hfirst, hlast⟩
          · refine (hin a k hrest).imp_right ?_
            rintro ⟨r'', hle', hmore'⟩
            exact ⟨r'', by omega, hmore'⟩
        · rintro a k ⟨r'', hle', hmod, hmore', hfirst, hlast⟩
          by_cases heq : r'' = r'
          · subst heq
            exact Or.inl (Or.inr ⟨hfirst, hlast⟩)
          · exact Or.inr (hfilled a k ⟨r'', by omega, hmod, hmore', hfirst, hlast⟩)
      · have hstep : clearRows d x1 x2 y2 color (fuel + 1) r = fun f =>
            loop r' (y2 + 1) (fun r => loop x1 (x2 + 1) fun c => drawPixelFast d c r color)
              (loop r r' (fun r => loop x1 (x2 + 1) fun c => drawPixelFast d c r color) f) := by
          funext f
          rw [clearRows, if_neg hend, hr']
          exact if_neg hmore
        have htail : Paints
            (loop r' (y2 + 1) fun r => loop x1 (x2 + 1) fun c => drawPixelFast d c r color) _ _ :=
          paints_rows hp hc hx r' (y2 + 1)
        refine ⟨_, hstep ▸ hhead.comp htail, ?_, ?_⟩
        · rintro a k (⟨hcol, hrow₁, hrow₂⟩ | ⟨hcol, hrow₁, hrow₂⟩)
          · exact Or.inl ⟨hcol, by omega, by omega⟩
          · exact Or.inl ⟨hcol, by omega, by omega⟩
        · rintro a k ⟨r'', hle', hmod, hmore', -⟩
          omega

/-- Bytes of a row. -/
theorem row_range {w r lo hi a : ℕ} (hhi : hi ≤ w) :
    r * w + lo ≤ a ∧ a < r * w + hi ↔ (lo ≤ a % w ∧ a % w < hi) ∧ a / w = r := by
  constructor
  · rintro ⟨hlo, hlt⟩
    have hin : a - r * w < w := by omega
    obtain ⟨hmod, hdiv⟩ := (div_mod_iff (q := r) hin).mpr (show a = r * w + (a - r * w) by omega)
    exact ⟨by omega, hdiv⟩
  · rintro ⟨⟨hlo, hlt⟩, rfl⟩
    have hsplit := Nat.div_add_mod' a w
    omega

/-- What is painted before the pixels of the window are drawn does not show, if it is inside. -/
theorem absorbs_iff (hp : Packed d) (hc : Sets d color) (hx : x2 < d.width)
    {g : Frame → Frame} {S : ℕ → ℕ → Prop} (hg : Paints g S (value d color)) :
    (fun f => drawWindow d x1 y1 x2 y2 color (g f)) = drawWindow d x1 y1 x2 y2 color ↔
      ∀ a k, k < 8 → S a k → InWindow d x1 y1 x2 y2 a k := by
  have hdraw : Paints (drawWindow d x1 y1 x2 y2 color) (InWindow d x1 y1 x2 y2) (value d color) :=
    paints_window hp hc hx
  have hboth := hg.comp hdraw
  constructor
  · intro heq a k hk hS
    exact hboth.mem_of_eq hdraw heq hk (Or.inl hS)
  · intro hin
    refine (hboth.congr (fun a k hk => ?_) fun _ _ _ _ => rfl).unique hdraw
    exact ⟨fun h => h.elim (hin a k hk) id, Or.inr⟩

/-! ### A colour that toggles -/

/-- The pixel that toggles a bit. -/
def toggler (d : Display) (a k : ℕ) : ℕ × ℕ :=
  match d.mode with
  | .ssd1326 => owner d a (7 - k)
  | _ => owner d a k

section Toggle

variable {a k : ℕ} {φ : Bool → Bool}

theorem acts_loop_one {first stop j : ℕ} {body : ℕ → Frame → Frame} (hj : first ≤ j ∧ j < stop)
    (hone : Painting.Acts (body j) a k φ)
    (hid : ∀ i, first ≤ i → i < stop → i ≠ j → Painting.Acts (body i) a k id) :
    Painting.Acts (loop first stop body) a k φ := by
  have hmem : j ∈ List.range' first (stop - first) := List.mem_range'_1.mpr (by omega)
  refine Painting.Acts.foldl_one hmem List.nodup_range' hone fun i hi hne => ?_
  rw [List.mem_range'_1] at hi
  exact hid i (by omega) (by omega) hne

theorem acts_loop_id {first stop : ℕ} {body : ℕ → Frame → Frame}
    (hid : ∀ i, first ≤ i → i < stop → Painting.Acts (body i) a k id) :
    Painting.Acts (loop first stop body) a k id := by
  refine Painting.Acts.foldl_id _ fun i hi => ?_
  rw [List.mem_range'_1] at hi
  exact hid i (by omega) (by omega)

theorem getLsbD_BIT_eq {n : ℕ} (hn : n < 8) : ∀ k, k < 8 →
    (BIT n).toBitVec.getLsbD k = decide (n = k) := fun _ _ => getLsbD_BIT hn

theorem acts_pixel (hm : d.mode = .mono ∨ d.mode = .ssd1326) (hp : Packed d) {x y : ℕ}
    (hx : x < d.width) (hk : k < 8) :
    Painting.Acts (drawPixelFast d x y xor) a k
      (if toggler d a k = (x, y) then Bool.not else id) := by
  obtain ⟨mode, w, h⟩ := d
  rcases hm with hm | hm <;> cases hm
  · have hdraw : drawPixelFast ⟨.mono, w, h⟩ x y xor = fun f =>
        Function.update f (y / 8 * w + x) (f (y / 8 * w + x) ^^^ BIT (y % 8)) := by
      funext f
      change drawPixel1 w x y xor f = _
      rw [drawPixel1, if_pos rfl]
    have hbit := Painting.Acts.toggle (a := a) (y / 8 * w + x) (y % 8) (BIT (y % 8))
      (getLsbD_BIT_eq (Nat.mod_lt y (by decide))) hk
    have hiff : toggler ⟨.mono, w, h⟩ a k = (x, y) ↔ a = y / 8 * w + x ∧ k = y % 8 := by
      rw [← div_mod_iff hx]
      simp only [toggler, owner, Prod.mk.injEq]
      omega
    rw [hdraw]
    simp only [hiff]
    exact hbit
  · obtain ⟨n, hn⟩ := hp
    have hdiv : w / 8 = n := by
      simp only at hn
      omega
    have hdraw : drawPixelFast ⟨.ssd1326, w, h⟩ x y xor = fun f =>
        Function.update f ((y * w + x) / 8) (f ((y * w + x) / 8) ^^^ BIT (7 - x % 8)) := by
      funext f
      change drawPixel1326 w x y xor f = _
      rw [drawPixel1326, if_pos rfl]
    have hbit := Painting.Acts.toggle (a := a) ((y * w + x) / 8) (7 - x % 8) (BIT (7 - x % 8))
      (getLsbD_BIT_eq (by omega)) hk
    have haddr : (y * w + x) / 8 = y * n + x / 8 := by
      simp only at hn
      rw [hn, Nat.mul_left_comm, Nat.mul_add_div (by decide)]
    have hiff : toggler ⟨.ssd1326, w, h⟩ a k = (x, y) ↔
        a = (y * w + x) / 8 ∧ k = 7 - x % 8 := by
      rw [haddr, ← div_mod_iff (show x / 8 < n by simp only at hx hn; omega)]
      simp only [toggler, owner, Prod.mk.injEq, hdiv]
      omega
    rw [hdraw]
    simp only [hiff]
    exact hbit

/-- A row of pixels. -/
theorem acts_row (hm : d.mode = .mono ∨ d.mode = .ssd1326) (hp : Packed d) (hk : k < 8) (r : ℕ)
    {first stop : ℕ} (hstop : stop ≤ d.width) :
    Painting.Acts (loop first stop fun c => drawPixelFast d c r xor) a k
      (if (first ≤ (toggler d a k).1 ∧ (toggler d a k).1 < stop) ∧ (toggler d a k).2 = r
        then Bool.not else id) := by
  have hpixel : ∀ c, c < stop → Painting.Acts (drawPixelFast d c r xor) a k
      (if toggler d a k = (c, r) then Bool.not else id) := fun c hc =>
    acts_pixel hm hp (by omega) hk
  split
  case isTrue h =>
    obtain ⟨hin, rfl⟩ := h
    refine acts_loop_one hin ?_ fun i _ hi hne => ?_
    · have hone := hpixel _ hin.2
      rw [if_pos rfl] at hone
      exact hone
    · have hid := hpixel i hi
      rw [if_neg fun h => hne (congrArg Prod.fst h).symm] at hid
      exact hid
  case isFalse h =>
    refine acts_loop_id fun i hfirst hi => ?_
    have hid := hpixel i hi
    rw [if_neg fun heq => h (by rw [heq]; exact ⟨⟨hfirst, hi⟩, rfl⟩)] at hid
    exact hid

/-- Rows of pixels. -/
theorem acts_rows (hm : d.mode = .mono ∨ d.mode = .ssd1326) (hp : Packed d) (hk : k < 8)
    (hx : x2 < d.width) (r stop : ℕ) :
    Painting.Acts (loop r stop fun r => loop x1 (x2 + 1) fun c => drawPixelFast d c r xor) a k
      (if (x1 ≤ (toggler d a k).1 ∧ (toggler d a k).1 ≤ x2) ∧
        r ≤ (toggler d a k).2 ∧ (toggler d a k).2 < stop then Bool.not else id) := by
  have hrow : ∀ i, Painting.Acts (loop x1 (x2 + 1) fun c => drawPixelFast d c i xor) a k _ :=
    fun i => acts_row hm hp hk i (show x2 + 1 ≤ d.width by omega)
  split
  case isTrue h =>
    obtain ⟨hcol, hin⟩ := h
    refine acts_loop_one hin ?_ fun i _ _ hne => ?_
    · have hone := hrow (toggler d a k).2
      rw [if_pos ⟨⟨hcol.1, by omega⟩, rfl⟩] at hone
      exact hone
    · have hid := hrow i
      rw [if_neg fun h => hne h.2.symm] at hid
      exact hid
  case isFalse h =>
    refine acts_loop_id fun i hfirst hi => ?_
    have hid := hrow i
    rw [if_neg fun hin => h ⟨⟨hin.1.1, by omega⟩, by omega, by omega⟩] at hid
    exact hid

/-- A bit that is toggled twice, or painted first. -/
theorem not_absorbed {g : Frame → Frame} {b : Bool} (hg : Painting.Acts g a k φ) (hφ : φ b = !b)
    (hm : d.mode = .mono ∨ d.mode = .ssd1326) (hp : Packed d) (hk : k < 8) (hx : x2 < d.width)
    (hcol : x1 ≤ (toggler d a k).1 ∧ (toggler d a k).1 ≤ x2)
    (hrow : y1 ≤ (toggler d a k).2 ∧ (toggler d a k).2 ≤ y2) :
    (fun f => drawWindow d x1 y1 x2 y2 xor (g f)) ≠ drawWindow d x1 y1 x2 y2 xor := by
  intro heq
  have hdraw : Painting.Acts (drawWindow d x1 y1 x2 y2 xor) a k _ :=
    acts_rows hm hp hk hx y1 (y2 + 1)
  rw [if_pos ⟨hcol, hrow.1, by omega⟩] at hdraw
  obtain ⟨f, hf⟩ := Paints.exists_bit b
  have hval : _ = !(φ (bit f a k)) := hg.comp hdraw f
  rw [heq, hdraw f, hf a k hk, hφ] at hval
  cases b <;> exact absurd hval (by decide)

/-- Filling takes no bit, or sets it. -/
theorem acts_fill (p n : ℕ) (hk : k < 8) :
    Painting.Acts (fun f => memset f p (fill1 xor) n) a k
      (if p ≤ a ∧ a < p + n then fun _ => true else id) := by
  have hne : xor ≠ black := by decide
  have hpaint : Paints (fun f => memset f p (fill1 xor) n) (fun i _ => p ≤ i ∧ i < p + n)
      fun _ _ => true :=
    Paints.memset p (fill1 xor) n fun i j hj _ => by rw [fill1_bit j hj, decide_eq_true hne]
  obtain ⟨hin, hout⟩ := Painting.Acts.of_paints (a := a) hpaint hk
  split
  case isTrue h => exact hin h
  case isFalse h => exact hout h

/-- The last row is toggled, and nothing is filled after it. -/
theorem acts_clearRows (hm : d.mode = .mono) (hp : Packed d) (hk : k < 8) (hx : x2 < d.width)
    (hcol : x1 ≤ (toggler d a k).1 ∧ (toggler d a k).1 ≤ x2) (hrow : (toggler d a k).2 = y2)
    (fuel r : ℕ) (hr : r ≤ y2) (hfuel : y2 < r + fuel) :
    ∃ φ, Painting.Acts (clearRows d x1 x2 y2 xor fuel r) a k φ ∧ φ true = false := by
  induction fuel generalizing r with
  | zero => omega
  | succ fuel ih =>
    generalize hr' : min ((r + 7) / 8 * 8) (y2 + 1) = r'
    have hend : ¬ y2 < r := by omega
    have hhead : Painting.Acts
        (loop r r' fun r => loop x1 (x2 + 1) fun c => drawPixelFast d c r xor) a k _ :=
      acts_rows (Or.inl hm) hp hk hx r r'
    by_cases hmore : r' + 8 ≤ y2
    · obtain ⟨φ, hφ, htrue⟩ := ih (r' + 8) hmore (by omega)
      have hstep : clearRows d x1 x2 y2 xor (fuel + 1) r = fun f =>
          clearRows d x1 x2 y2 xor fuel (r' + 8)
            (memset (loop r r' (fun r => loop x1 (x2 + 1) fun c => drawPixelFast d c r xor) f)
              (d.width / 8 % 256 * r' + x1) (fill1 xor) (x2 - x1 + 1)) := by
        funext f
        rw [clearRows, if_neg hend, hr']
        exact if_pos hmore
      rw [if_neg fun h => Nat.not_lt.mpr (by omega) h.2.2] at hhead
      refine ⟨_, hstep ▸ (hhead.comp (acts_fill _ _ hk)).comp hφ, ?_⟩
      split <;> exact htrue
    · have hstep : clearRows d x1 x2 y2 xor (fuel + 1) r = fun f =>
          loop r' (y2 + 1) (fun r => loop x1 (x2 + 1) fun c => drawPixelFast d c r xor)
            (loop r r' (fun r => loop x1 (x2 + 1) fun c => drawPixelFast d c r xor) f) := by
        funext f
        rw [clearRows, if_neg hend, hr']
        exact if_neg hmore
      have htail : Painting.Acts
          (loop r' (y2 + 1) fun r => loop x1 (x2 + 1) fun c => drawPixelFast d c r xor) a k _ :=
        acts_rows (Or.inl hm) hp hk hx r' (y2 + 1)
      rw [hrow] at hhead htail
      -- the last row is among those before `r'`, or among those from there on
      by_cases hlast : y2 < r'
      · rw [if_pos ⟨hcol, hr, hlast⟩] at hhead
        rw [if_neg fun h => Nat.not_le.mpr hlast h.2.1] at htail
        exact ⟨_, hstep ▸ hhead.comp htail, rfl⟩
      · rw [if_neg fun h => hlast h.2.2] at hhead
        rw [if_pos ⟨hcol, Nat.not_lt.mp hlast, Nat.lt_succ_self y2⟩] at htail
        exact ⟨_, hstep ▸ hhead.comp htail, rfl⟩

end Toggle

/-- The bytes of a framebuffer of one bit. -/
theorem whole_bytes {a : ℕ} (hh : 8 ∣ d.height) (hw : 0 < d.width) :
    a / d.width < d.height / 8 ↔ a < d.width * d.height / 8 := by
  rw [Nat.div_lt_iff_lt_mul hw, Nat.mul_div_assoc _ hh, Nat.mul_comm]

/-- Whether the window is cleared with a depth of one. -/
theorem mono_iff (hm : d.mode = .mono) (hh : 8 ∣ d.height) (hx : x1 ≤ x2) (hx2 : x2 < d.width)
    (hy : y1 ≤ y2) (hy2 : y2 < d.height) :
    (fun f => drawWindow d x1 y1 x2 y2 color (clear1 d x1 y1 x2 y2 color f)) =
        drawWindow d x1 y1 x2 y2 color ↔
      color ≠ xor ∧ (Whole d x1 y1 x2 y2 ∨
        ∀ a, Filled d x1 x2 y2 y1 a → ∀ k < 8, InWindow d x1 y1 x2 y2 a k) := by
  have hp : Packed d := by
    rw [Packed, hm]
    trivial
  have hvalue : ∀ a k, value d color a k = decide (color ≠ black) := fun a k => by
    rw [value, hm]
  by_cases hxor : color = xor
  · subst hxor
    refine iff_of_false ?_ fun h => h.1 rfl
    -- a bit of the last row
    have hbit : y2 % 8 < 8 := Nat.mod_lt y2 (by decide)
    obtain ⟨hmod, hdiv⟩ := (div_mod_iff (show x1 < d.width by omega)).mpr
      (rfl : y2 / 8 * d.width + x1 = y2 / 8 * d.width + x1)
    have htog : toggler d (y2 / 8 * d.width + x1) (y2 % 8) = (x1, y2) := by
      simp only [toggler, hm, owner, hmod, hdiv, Prod.mk.injEq, true_and]
      omega
    have hcol : x1 ≤ (toggler d (y2 / 8 * d.width + x1) (y2 % 8)).1 ∧
        (toggler d (y2 / 8 * d.width + x1) (y2 % 8)).1 ≤ x2 := by
      rw [htog]
      exact ⟨Nat.le_refl x1, hx⟩
    have hrow : y1 ≤ (toggler d (y2 / 8 * d.width + x1) (y2 % 8)).2 ∧
        (toggler d (y2 / 8 * d.width + x1) (y2 % 8)).2 ≤ y2 := by
      rw [htog]
      exact ⟨hy, Nat.le_refl y2⟩
    by_cases hwhole : Whole d x1 y1 x2 y2
    · have hclear : clear1 d x1 y1 x2 y2 xor = fun f =>
          memset f 0 (fill1 xor) (d.width * d.height / 8) := by
        funext f
        exact if_pos hwhole
      have hlt : y2 / 8 * d.width + x1 < d.width * d.height / 8 := by
        rw [← whole_bytes hh (by omega), hdiv]
        omega
      have hfill := acts_fill (a := y2 / 8 * d.width + x1) 0 (d.width * d.height / 8) hbit
      rw [if_pos ⟨Nat.zero_le _, by omega⟩, ← hclear] at hfill
      exact not_absorbed (b := false) hfill rfl (Or.inl hm) hp hbit hx2 hcol hrow
    · have hclear : clear1 d x1 y1 x2 y2 xor = clearRows d x1 x2 y2 xor (y2 + 1) y1 := by
        funext f
        exact if_neg hwhole
      obtain ⟨φ, hφ, htrue⟩ := acts_clearRows hm hp hbit hx2 hcol (congrArg Prod.snd htog)
        (y2 + 1) y1 hy (by omega)
      exact not_absorbed (b := true) (hclear ▸ hφ) htrue (Or.inl hm) hp hbit hx2 hcol hrow
  · have hc : Sets d color := fun _ => hxor
    by_cases hwhole : Whole d x1 y1 x2 y2
    · have hclear : clear1 d x1 y1 x2 y2 color = fun f =>
          memset f 0 (fill1 color) (d.width * d.height / 8) := by
        funext f
        exact if_pos hwhole
      rw [hclear, absorbs_iff hp hc hx2 (paints_fill1 hvalue 0 (d.width * d.height / 8))]
      refine iff_of_true ?_ ⟨hxor, Or.inl hwhole⟩
      rintro a k hk ⟨-, hlt⟩
      rw [Nat.zero_add, ← whole_bytes hh (by omega)] at hlt
      have hcol := Nat.mod_lt a (show 0 < d.width by omega)
      obtain ⟨hw, hh'⟩ := hwhole
      simp only [InWindow, owner, hm]
      omega
    · have hfuel : y2 < y1 + (y2 + 1) := by omega
      obtain ⟨S, hS, hin, hfilled⟩ :=
        paints_clearRows hvalue hp hc hx2 (y2 + 1) y1 (Nat.le_refl y1) hfuel
      have hclear : clear1 d x1 y1 x2 y2 color = clearRows d x1 x2 y2 color (y2 + 1) y1 := by
        funext f
        exact if_neg hwhole
      rw [hclear, absorbs_iff hp hc hx2 hS]
      constructor
      · exact fun h => ⟨hxor, Or.inr fun a ha k hk => h a k hk (hfilled a k ha)⟩
      · rintro ⟨-, h⟩ a k hk ha
        rcases hin a k ha with hwin | hfill
        · exact hwin
        · exact h.resolve_left hwhole a hfill k hk

/-! ### SSD1326 -/

theorem paints_clearRow1326 (hm : d.mode = .ssd1326) (hw : 8 ∣ d.width) (hc : color ≠ xor)
    (hx : x1 ≤ x2) (hx2 : x2 < d.width) (r : ℕ) :
    Paints (clearRow1326 d x1 x2 color r)
      (fun a k => (x1 ≤ (owner d a k).1 ∧ (owner d a k).1 ≤ x2) ∧ (owner d a k).2 = r)
      (value d color) := by
  have hp : Packed d := by
    rw [Packed, hm]
    exact hw
  have hsets : Sets d color := fun _ => hc
  have hvalue : ∀ a k, value d color a k = decide (color ≠ black) := fun a k => by
    rw [value, hm]
  generalize hcol : min ((x1 + 7) / 8 * 8) (x2 + 1) = c
  generalize hchunk : (x2 + 1 - c) / 8 = chunk
  have hhead : Paints (loop x1 c fun c => drawPixelFast d c r color) _ _ :=
    paints_row hp hsets r (show c ≤ d.width by omega)
  have hfill := paints_fill1 hvalue (d.width / 8 * r + c / 8) chunk
  have htail : Paints (loop (c + chunk * 8) (x2 + 1) fun c => drawPixelFast d c r color) _ _ :=
    paints_row hp hsets r (show x2 + 1 ≤ d.width by omega)
  have hrow : clearRow1326 d x1 x2 color r = fun f =>
      loop (c + chunk * 8) (x2 + 1) (fun c => drawPixelFast d c r color)
        (memset (loop x1 c (fun c => drawPixelFast d c r color) f) (d.width / 8 * r + c / 8)
          (fill1 color) chunk) := by
    funext f
    rw [← hchunk, ← hcol]
    rfl
  refine hrow ▸ ((hhead.comp hfill).comp htail).congr (fun a k hk => ?_) fun _ _ _ _ => rfl
  have hend : c / 8 + chunk ≤ d.width / 8 := by omega
  rw [Nat.mul_comm, Nat.add_assoc, row_range hend]
  simp only [owner, hm]
  omega

/-- The first bit of a row is toggled, or filled. -/
theorem acts_clearRow1326 (hm : d.mode = .ssd1326) (hw : 8 ∣ d.width) (hx : x1 ≤ x2)
    (hx2 : x2 < d.width) {a k : ℕ} (hk : k < 8) (hcol : (toggler d a k).1 = x1) (r : ℕ) :
    ∃ φ, Painting.Acts (clearRow1326 d x1 x2 xor r) a k φ ∧
      ((toggler d a k).2 = r → φ false = true) ∧ ((toggler d a k).2 ≠ r → φ = id) := by
  have hp : Packed d := by
    rw [Packed, hm]
    exact hw
  generalize hcol' : min ((x1 + 7) / 8 * 8) (x2 + 1) = c
  generalize hchunk : (x2 + 1 - c) / 8 = chunk
  have hhead : Painting.Acts (loop x1 c fun c => drawPixelFast d c r xor) a k _ :=
    acts_row (Or.inr hm) hp hk r (show c ≤ d.width by omega)
  have hfill := acts_fill (a := a) (d.width / 8 * r + c / 8) chunk hk
  have htail : Painting.Acts
      (loop (c + chunk * 8) (x2 + 1) fun c => drawPixelFast d c r xor) a k _ :=
    acts_row (Or.inr hm) hp hk r (show x2 + 1 ≤ d.width by omega)
  have hrow : clearRow1326 d x1 x2 xor r = fun f =>
      loop (c + chunk * 8) (x2 + 1) (fun c => drawPixelFast d c r xor)
        (memset (loop x1 c (fun c => drawPixelFast d c r xor) f) (d.width / 8 * r + c / 8)
          (fill1 xor) chunk) := by
    funext f
    rw [← hchunk, ← hcol']
    rfl
  have hend : c / 8 + chunk ≤ d.width / 8 := by omega
  have htog : toggler d a k = (a % (d.width / 8) * 8 + (7 - k), a / (d.width / 8)) := by
    simp only [toggler, hm, owner]
  have hrange : d.width / 8 * r + c / 8 ≤ a ∧ a < d.width / 8 * r + c / 8 + chunk ↔
      (c / 8 ≤ a % (d.width / 8) ∧ a % (d.width / 8) < c / 8 + chunk) ∧ a / (d.width / 8) = r := by
    rw [Nat.mul_comm, Nat.add_assoc]
    exact row_range hend
  simp only [hrange] at hfill
  rw [htog] at hcol hhead htail ⊢
  simp only at hcol hhead htail ⊢
  refine ⟨_, hrow ▸ (hhead.comp hfill).comp htail, ?_, ?_⟩
  · -- exactly one of the three has the bit
    rintro rfl
    split <;> split <;> split <;> first | rfl | omega
  · intro hne
    split <;> split <;> split <;> first | rfl | omega

/-- Whether the window is cleared on an SSD1326. -/
theorem ssd1326_iff (hm : d.mode = .ssd1326) (hw : 8 ∣ d.width) (hx : x1 ≤ x2) (hx2 : x2 < d.width)
    (hy : y1 ≤ y2) :
    (fun f => drawWindow d x1 y1 x2 y2 color (clear1326 d x1 y1 x2 y2 color f)) =
      drawWindow d x1 y1 x2 y2 color ↔ color ≠ xor := by
  have hp : Packed d := by
    rw [Packed, hm]
    exact hw
  by_cases hxor : color = xor
  · subst hxor
    refine iff_of_false ?_ fun h => h rfl
    -- the first bit of the first row
    have hbit : 7 - x1 % 8 < 8 := by omega
    obtain ⟨hmod, hdiv⟩ := (div_mod_iff (show x1 / 8 < d.width / 8 by omega)).mpr
      (rfl : y1 * (d.width / 8) + x1 / 8 = y1 * (d.width / 8) + x1 / 8)
    have htog : toggler d (y1 * (d.width / 8) + x1 / 8) (7 - x1 % 8) = (x1, y1) := by
      simp only [toggler, hm, owner, hmod, hdiv, Prod.mk.injEq, and_true]
      omega
    have hrow := acts_clearRow1326 hm hw hx hx2 hbit (congrArg Prod.fst htog)
    obtain ⟨φ, hφ, hfirst, -⟩ := hrow y1
    have hclear : Painting.Acts (clear1326 d x1 y1 x2 y2 xor) (y1 * (d.width / 8) + x1 / 8)
        (7 - x1 % 8) φ := by
      refine acts_loop_one ⟨Nat.le_refl y1, by omega⟩ hφ fun r _ _ hne => ?_
      obtain ⟨ψ, hψ, -, hid⟩ := hrow r
      rw [htog] at hid
      exact hid (Ne.symm hne) ▸ hψ
    have hset := hfirst (congrArg Prod.snd htog)
    refine not_absorbed (b := false) hclear hset (Or.inr hm) hp hbit hx2 ?_ ?_
    · rw [htog]
      exact ⟨Nat.le_refl x1, hx⟩
    · rw [htog]
      exact ⟨Nat.le_refl y1, hy⟩
  · have hc : Sets d color := fun _ => hxor
    refine iff_of_true ((absorbs_iff hp hc hx2 ?_).mpr fun _ _ _ h => h) hxor
    exact paints_rows_window fun r => paints_clearRow1326 hm hw hxor hx hx2 r

/-! ### Four bits and more -/

/-- Both halves of a byte. -/
theorem twice_bit (k : ℕ) (hk : k < 8) (hv : color < 16 ∨ color = white) :
    (low (color ||| color <<< 4)).toBitVec.getLsbD k = color.getLsbD (k % 4) := by
  rw [getLsbD_low _ hk, BitVec.getLsbD_or, BitVec.getLsbD_shiftLeft,
    decide_eq_true (show k < 32 by omega), Bool.true_and]
  by_cases hlow : k < 4
  · rw [decide_eq_true hlow, Nat.mod_eq_of_lt hlow, Bool.not_true, Bool.false_and, Bool.or_false]
  · have hmod : k % 4 = k - 4 := by omega
    rw [decide_eq_false hlow, Bool.not_false, Bool.true_and, hmod]
    rcases hv with hsmall | rfl
    · have hzero : color.getLsbD k = false := by
        have hpow : 2 ^ 4 ≤ 2 ^ k := Nat.pow_le_pow_right (by decide) (by omega)
        exact Nat.testBit_lt_two_pow (Nat.lt_of_lt_of_le (BitVec.lt_def.mp hsmall) hpow)
      rw [hzero, Bool.false_or]
    · have hones : white = BitVec.allOnes 32 := rfl
      rw [hones, BitVec.getLsbD_allOnes, BitVec.getLsbD_allOnes,
        decide_eq_true (show k < 32 by omega), decide_eq_true (show k - 4 < 32 by omega),
        Bool.or_true]

theorem paints_clearRow4 (hm : d.mode = .gray4) (hw : 8 ∣ d.width)
    (hv : color < 16 ∨ color = white) (hx : x1 ≤ x2) (hx2 : x2 < d.width) (r : ℕ) :
    Paints (clearRow4 d x1 x2 color r)
      (fun a k => (x1 ≤ (owner d a k).1 ∧ (owner d a k).1 ≤ x2) ∧ (owner d a k).2 = r)
      (value d color) := by
  have hp : Packed d := by
    rw [Packed, hm]
    exact Nat.dvd_trans (by decide) hw
  have hc : Sets d color := by
    rintro (h | h) <;> exact absurd (hm.symm.trans h) (by decide)
  generalize hcol : (if x1 % 2 = 1 then x1 + 1 else x1) = c
  generalize hchunk : (x2 + 1 - c) / 2 = chunk
  have heven : c % 2 = 0 ∧ x1 ≤ c ∧ c ≤ x1 + 1 ∧ (c = x1 ↔ ¬ x1 % 2 = 1) := by
    rw [← hcol]
    split <;> omega
  have haddr : (r * d.width + c) / 2 = r * (d.width / 2) + c / 2 := by
    obtain ⟨n, hn⟩ := Nat.dvd_trans (by decide : 2 ∣ 8) hw
    rw [hn, Nat.mul_left_comm, Nat.mul_add_div (by decide), Nat.mul_div_cancel_left n (by decide)]
  have hhead := (paints_pixel (y := r) hp (show x1 < d.width by omega) hc).onlyIf (x1 % 2 = 1)
  have hfill : Paints
      (fun f => memset f ((r * d.width + c) / 2) (low (color ||| color <<< 4)) chunk) _
      (value d color) := Paints.memset _ _ _ fun a k hk _ => by
    rw [twice_bit k hk hv, value, hm]
  have htail := (paints_pixel (y := r) hp hx2 hc).onlyIf (c + chunk ≤ x2)
  have hrow : clearRow4 d x1 x2 color r = fun f =>
      if c + chunk ≤ x2 then drawPixelFast d x2 r color
        (memset (if x1 % 2 = 1 then drawPixelFast d x1 r color f else f) ((r * d.width + c) / 2)
          (low (color ||| color <<< 4)) chunk)
      else memset (if x1 % 2 = 1 then drawPixelFast d x1 r color f else f) ((r * d.width + c) / 2)
          (low (color ||| color <<< 4)) chunk := by
    funext f
    rw [← hchunk, ← hcol]
    rfl
  refine hrow ▸ ((hhead.comp hfill).comp htail).congr (fun a k hk => ?_) fun _ _ _ _ => rfl
  have hend : c / 2 + chunk ≤ d.width / 2 := by omega
  rw [haddr, Nat.add_assoc, row_range hend]
  simp only [owner, hm, Prod.mk.injEq]
  omega

theorem gray4_eq (hm : d.mode = .gray4) (hw : 8 ∣ d.width) (hv : color < 16 ∨ color = white)
    (hx : x1 ≤ x2) (hx2 : x2 < d.width) (hy : y1 ≤ y2) (hy2 : y2 < d.height) :
    clear4 d x1 y1 x2 y2 color = drawWindow d x1 y1 x2 y2 color := by
  have hp : Packed d := by
    rw [Packed, hm]
    exact Nat.dvd_trans (by decide) hw
  have hc : Sets d color := by
    rintro (h | h) <;> exact absurd (hm.symm.trans h) (by decide)
  refine Paints.unique ?_ (paints_window hp hc hx2)
  by_cases hwhole : Whole d x1 y1 x2 y2
  · have hclear : clear4 d x1 y1 x2 y2 color = fun f =>
        memset f 0 (low (color ||| color <<< 4)) (d.width * d.height / 2) := by
      funext f
      exact if_pos hwhole
    have hfill : Paints (fun f => memset f 0 (low (color ||| color <<< 4)) (d.width * d.height / 2))
        _ (value d color) := Paints.memset _ _ _ fun a k hk _ => by
      rw [twice_bit k hk hv, value, hm]
    refine hclear ▸ hfill.congr (fun a k hk => ?_) fun _ _ _ _ => rfl
    have hbytes : a / (d.width / 2) < d.height ↔ a < d.width * d.height / 2 := by
      rw [Nat.div_lt_iff_lt_mul (by omega), Nat.mul_comm d.width,
        Nat.mul_div_assoc _ (Nat.dvd_trans (by decide) hw)]
    have hcol := Nat.mod_lt a (show 0 < d.width / 2 by omega)
    obtain ⟨hwidth, hheight⟩ := hwhole
    rw [Nat.zero_add, ← hbytes]
    simp only [InWindow, owner, hm]
    generalize a / (d.width / 2) = q
    omega
  · have hclear : clear4 d x1 y1 x2 y2 color = loop y1 (y2 + 1) (clearRow4 d x1 x2 color) := by
      funext f
      exact if_neg hwhole
    exact hclear ▸ paints_rows_window fun r => paints_clearRow4 hm hw hv hx hx2 r

theorem depth8_eq (hm : d.mode = .depth8) (hx : x1 ≤ x2) (hx2 : x2 < d.width) :
    clearBytes d x1 y1 x2 y2 color 1 = drawWindow d x1 y1 x2 y2 color := by
  have hp : Packed d := by
    rw [Packed, hm]
    trivial
  have hc : Sets d color := by
    rintro (h | h) <;> exact absurd (hm.symm.trans h) (by decide)
  refine (paints_rows_window fun r => ?_).unique (paints_window hp hc hx2)
  refine (Paints.memset ((r * d.width + x1) * 1) (low color) ((x2 - x1) * 1 + 1)
    fun a k hk _ => ?_).congr (fun a k hk => ?_) fun _ _ _ _ => rfl
  · rw [getLsbD_low _ hk, value, hm]
  · have hrange : r * d.width + x1 ≤ a ∧ a < r * d.width + (x2 + 1) ↔ _ := row_range hx2
    simp only [owner, hm]
    omega

/-- Sixteen bits, without the swap of the bytes. -/
theorem depth16_iff (hm : d.mode = .depth16) (hx : x1 ≤ x2) (hx2 : x2 < d.width) (hy : y1 ≤ y2) :
    clearWords d x1 y1 x2 y2 color = drawWindow d x1 y1 x2 y2 color ↔
      low color = low (color >>> 8) := by
  have hp : Packed d := by
    rw [Packed, hm]
    trivial
  have hc : Sets d color := by
    rintro (h | h) <;> exact absurd (hm.symm.trans h) (by decide)
  have hdraw : Paints (drawWindow d x1 y1 x2 y2 color) (InWindow d x1 y1 x2 y2) (value d color) :=
    paints_window hp hc hx2
  have hwords : Paints (clearWords d x1 y1 x2 y2 color) (InWindow d x1 y1 x2 y2)
      fun a k => color.getLsbD (if a % 2 = 0 then k else 8 + k) := by
    refine paints_rows_window fun r => (paints_loop fun c _ _ =>
      paints_store16 (r * d.width + x1 + c) color (fun k _ => ?_) fun k _ => ?_).congr
        (fun a k _ => ?_) fun _ _ _ _ => rfl
    · rw [if_pos (by omega)]
    · rw [if_neg (by omega)]
    · have hrange : r * d.width + x1 ≤ a / 2 ∧ a / 2 < r * d.width + (x2 + 1) ↔ _ := row_range hx2
      simp only [owner, hm]
      constructor
      · rintro ⟨c, hin, ha⟩
        omega
      · intro h
        exact ⟨a / 2 - (r * d.width + x1), by omega, by omega⟩
  constructor
  · intro heq
    obtain ⟨hmod, hdiv⟩ := (div_mod_iff (show x1 < d.width by omega)).mpr
      (rfl : y1 * d.width + x1 = y1 * d.width + x1)
    refine UInt8.toBitVec_inj.mp (BitVec.eq_of_getLsbD_eq fun k hk => ?_)
    have hin : InWindow d x1 y1 x2 y2 (2 * (y1 * d.width + x1)) k := by
      simp only [InWindow, owner, hm, Nat.mul_div_cancel_left _ (show 0 < 2 by decide), hmod, hdiv]
      omega
    have hval := hwords.val_of_eq hdraw heq hk hin
    simp only [value, hm, Nat.mul_mod_right, if_true] at hval
    rw [getLsbD_low _ hk, getLsbD_low _ hk, BitVec.getLsbD_ushiftRight, hval]
  · intro hlow
    refine (hwords.congr (fun _ _ _ => Iff.rfl) fun a k hk _ => ?_).unique hdraw
    have hbit := congrArg (fun b => b.toBitVec.getLsbD k) hlow
    simp only [getLsbD_low _ hk, BitVec.getLsbD_ushiftRight] at hbit
    simp only [value, hm]
    split
    · exact hbit
    · exact hbit.symm

/-- Of the last pixel of a row only the first byte is written. -/
theorem bytes3_ne (hm : d.mode = .rgb666 ∨ d.mode = .rgb888) (hx : x1 ≤ x2) (hx2 : x2 < d.width)
    (hy : y1 ≤ y2) : clearBytes d x1 y1 x2 y2 color 3 ≠ drawWindow d x1 y1 x2 y2 color := by
  have hp : Packed d := by
    rcases hm with hm | hm <;> rw [Packed, hm] <;> trivial
  have hc : Sets d color := by
    rcases hm with hm | hm <;> rintro (h | h) <;> exact absurd (hm.symm.trans h) (by decide)
  have hdraw : Paints (drawWindow d x1 y1 x2 y2 color) (InWindow d x1 y1 x2 y2) (value d color) :=
    paints_window hp hc hx2
  have hbytes : Paints (clearBytes d x1 y1 x2 y2 color 3) _ fun _ k => color.getLsbD k :=
    paints_loop fun y _ _ => Paints.memset ((y * d.width + x1) * 3) (low color) ((x2 - x1) * 3 + 1)
      fun a k hk _ => getLsbD_low color hk
  intro heq
  obtain ⟨hmod, hdiv⟩ := (div_mod_iff hx2).mpr (rfl : y1 * d.width + x2 = y1 * d.width + x2)
  have hthird : ((y1 * d.width + x2) * 3 + 2) / 3 = y1 * d.width + x2 := by omega
  have hin : InWindow d x1 y1 x2 y2 ((y1 * d.width + x2) * 3 + 2) 0 := by
    rcases hm with hm | hm <;> simp only [InWindow, owner, hm, hthird, hmod, hdiv] <;> omega
  obtain ⟨y, -, hlow, hhigh⟩ := hdraw.mem_of_eq hbytes heq.symm (by decide) hin
  have hlt : y1 * d.width < y * d.width := by omega
  have hnext := Nat.mul_le_mul_right d.width (Nat.lt_of_mul_lt_mul_right hlt)
  rw [Nat.succ_mul] at hnext
  omega

/-- Clearing a window is drawing its pixels, exactly for these windows and colours. -/
theorem clearWindow_iff (d : Display) (x1 y1 : ℕ) (x2 y2 : ℤ) (color : Color) (hw : 8 ∣ d.width)
    (hh : 8 ∣ d.height) (hx : x1 ≤ far x2 d.width ∧ far x2 d.width < d.width)
    (hy : y1 ≤ far y2 d.height ∧ far y2 d.height < d.height) (hv : Valid d color) :
    Clears d x1 y1 color x2 y2 ↔
      Agrees d x1 y1 (far x2 d.width) (far y2 d.height) color := by
  obtain ⟨hx1, hx2⟩ := hx
  obtain ⟨hy1, hy2⟩ := hy
  obtain ⟨mode, w, h⟩ := d
  cases mode with
  | mono => exact mono_iff rfl hh hx1 hx2 hy1 hy2
  | ssd1326 => exact ssd1326_iff rfl hw hx1 hx2 hy1
  | ssd1675 =>
    have hp : Packed ⟨.ssd1675, w, h⟩ := trivial
    have hc : Sets ⟨.ssd1675, w, h⟩ color := by
      rintro (h | h) <;> cases h
    refine iff_of_true ?_ trivial
    exact (absorbs_iff hp hc hx2 (paints_window hp hc hx2)).mpr fun _ _ _ h => h
  | gray4 => exact iff_of_true (gray4_eq rfl hw hv hx1 hx2 hy1 hy2) trivial
  | depth8 => exact iff_of_true (depth8_eq rfl hx1 hx2) trivial
  | depth16 => exact depth16_iff rfl hx1 hx2 hy1
  | rgb666 => exact iff_of_false (bytes3_ne (.inl rfl) hx1 hx2 hy1) id
  | rgb888 => exact iff_of_false (bytes3_ne (.inr rfl) hx1 hx2 hy1) id

/-- Single pixels at the edges of a window, with four bits. -/
theorem clearWindow_gray4 : Clears ⟨.gray4, 16, 8⟩ 1 2 9 (-1) 5 :=
  (clearWindow_iff ⟨.gray4, 16, 8⟩ 1 2 (-1) 5 9 (by decide) (by decide) (by decide) (by decide)
    (Or.inl (by decide))).mpr trivial

/-- A red pixel of sixteen bits gets its bytes the other way round. -/
theorem clearWindow_red : ¬ Clears ⟨.depth16, 8, 8⟩ 0 0 0xF800 0 0 := fun h =>
  absurd ((depth16_iff rfl (Nat.le_refl 0) (by decide) (Nat.le_refl 0)).mp h) (by decide)

end Pixels

end SqueezeliteMuse
