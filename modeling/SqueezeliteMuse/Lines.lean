/-
SqueezeliteMuse/Lines.lean

The lines and boxes of gds_draw.c.

A drawing is the list of the pixels that `DrawPixelFast` is called for, in their order, so that a
colour that toggles is covered as well as one that sets.  Coordinates are integers: what is drawn
is as far from the bounds of an `int` as their sums need.

Oblique lines test each pixel.  Lines along an axis clamp their coordinates, which moves a line
that is outside to the edge, and cuts the last pixel of one that reaches the edge.

Main result: `draw_iff`: exactly which calls draw the visible pixels of their shape, each as often
as the shape has it.
-/
import Mathlib.Algebra.Order.Ring.Int
import Mathlib.Data.Int.Notation
import Mathlib.Data.List.Perm.Basic
import Mathlib.Data.List.Nodup
import Mathlib.Data.List.Pairwise
import Mathlib.Tactic.Common

namespace SqueezeliteMuse

namespace Lines

/-- `Width` and `Height` of a display. -/
structure Size where
  width : ℕ
  height : ℕ
  width_pos : 0 < width
  height_pos : 0 < height

variable (d : Size)

/-! ### The code -/

/-- `IsPixelVisible` -/
def Visible (p : ℤ × ℤ) : Bool := 0 ≤ p.1 ∧ p.1 < d.width ∧ 0 ≤ p.2 ∧ p.2 < d.height

/-- The pixels of a loop from `x` on, below `stop`. -/
def hspan (x stop y : ℤ) : List (ℤ × ℤ) := (List.range (stop - x).toNat).map fun k : ℕ => (x + k, y)

/-- The pixels of a loop from `y` on, below `stop`. -/
def vspan (x y stop : ℤ) : List (ℤ × ℤ) := (List.range (stop - y).toNat).map fun k : ℕ => (x, y + k)

/-- `GDS_DrawHLine` -/
def drawHLine (x y width : ℤ) : List (ℤ × ℤ) :=
  let xEnd := x + width
  let x := if x < 0 then 0 else x
  let xEnd := if xEnd ≥ d.width then (d.width : ℤ) - 1 else xEnd
  let y := if y < 0 then 0 else if y ≥ d.height then (d.height : ℤ) - 1 else y
  hspan x xEnd y

/-- `GDS_DrawVLine` -/
def drawVLine (x y height : ℤ) : List (ℤ × ℤ) :=
  let yEnd := y + height
  let x := if x < 0 then 0 else x
  let x := if x ≥ d.width then (d.width : ℤ) - 1 else x
  let (y, yEnd) :=
    if y < 0 then (0, yEnd)
    else if yEnd ≥ d.height then (y, (d.height : ℤ) - 1)
    else (y, yEnd)
  (vspan x y yEnd).filter (Visible d)

/-- The loop of `DrawWideLine`, of the pixels that pass a test. -/
def wideLoop (test : ℤ × ℤ → Bool) (dx dy incr : ℤ) : ℕ → ℤ → ℤ → ℤ → List (ℤ × ℤ)
  | 0, _, _, _ => []
  | n + 1, x, y, error =>
      let rest :=
        if error > 0 then
          wideLoop test dx dy incr n (x + 1) (y + incr) (error - dx * 2 + dy * 2)
        else wideLoop test dx dy incr n (x + 1) y (error + dy * 2)
      if test (x, y) then (x, y) :: rest else rest

/-- `DrawWideLine` -/
def drawWideLine (test : ℤ × ℤ → Bool) (x0 y0 x1 y1 : ℤ) : List (ℤ × ℤ) :=
  let dx := x1 - x0
  let dy := y1 - y0
  let incr := if dy < 0 then -1 else 1
  let dy := if dy < 0 then -dy else dy
  wideLoop test dx dy incr (x1 - x0).toNat x0 y0 (dy * 2 - dx)

/-- The loop of `DrawTallLine`, of the pixels that pass a test. -/
def tallLoop (test : ℤ × ℤ → Bool) (dx dy incr : ℤ) : ℕ → ℤ → ℤ → ℤ → List (ℤ × ℤ)
  | 0, _, _, _ => []
  | n + 1, x, y, error =>
      let rest :=
        if error > 0 then
          tallLoop test dx dy incr n (x + incr) (y + 1) (error - dy * 2 + dx * 2)
        else tallLoop test dx dy incr n x (y + 1) (error + dx * 2)
      if test (x, y) then (x, y) :: rest else rest

/-- `DrawTallLine` -/
def drawTallLine (test : ℤ × ℤ → Bool) (x0 y0 x1 y1 : ℤ) : List (ℤ × ℤ) :=
  let dx := x1 - x0
  let dy := y1 - y0
  let incr := if dx < 0 then -1 else 1
  let dx := if dx < 0 then -dx else dx
  tallLoop test dx dy incr (y1 - y0).toNat x0 y0 (dx * 2 - dy)

/-- The oblique lines of `GDS_DrawLine`, of the pixels that pass a test. -/
def drawOblique (test : ℤ × ℤ → Bool) (x0 y0 x1 y1 : ℤ) : List (ℤ × ℤ) :=
  if (x1 - x0).natAbs > (y1 - y0).natAbs then
    if x0 > x1 then drawWideLine test x1 y1 x0 y0 else drawWideLine test x0 y0 x1 y1
  else
    if y0 > y1 then drawTallLine test x1 y1 x0 y0 else drawTallLine test x0 y0 x1 y1

/-- `GDS_DrawLine` -/
def drawLine (x0 y0 x1 y1 : ℤ) : List (ℤ × ℤ) :=
  if x0 = x1 then drawVLine d x0 y0 (y1 - y0)
  else if y0 = y1 then drawHLine d x0 y0 (x1 - x0)
  else drawOblique (Visible d) x0 y0 x1 y1

/-- The rows of a loop from `y` on, up to `stop`. -/
def rows (y stop : ℤ) : List ℤ := (List.range (stop + 1 - y).toNat).map fun k : ℕ => y + k

/-- `GDS_DrawBox` -/
def drawBox (x1 y1 x2 y2 : ℤ) (fill : Bool) : List (ℤ × ℤ) :=
  let width := x2 - x1
  let height := y2 - y1
  if fill = false then
    drawHLine d x1 y1 width ++ drawHLine d x1 (y1 + height) width ++
      drawVLine d x1 y1 height ++ drawVLine d (x1 + width) y1 height
  else (rows y1 y2).flatMap fun y => drawHLine d x1 y width

/-! ### What it is for -/

/-- The functions, with their arguments. -/
inductive Call
  | hLine (x y width : ℤ)
  | vLine (x y height : ℤ)
  | line (x0 y0 x1 y1 : ℤ)
  | box (x1 y1 x2 y2 : ℤ) (fill : Bool)

/-- What a call draws. -/
def draw : Call → List (ℤ × ℤ)
  | .hLine x y width => drawHLine d x y width
  | .vLine x y height => drawVLine d x y height
  | .line x0 y0 x1 y1 => drawLine d x0 y0 x1 y1
  | .box x1 y1 x2 y2 fill => drawBox d x1 y1 x2 y2 fill

/-- The pixels of a shape, where nothing is clipped.  A line along an axis, from its upper to its
lower coordinate, is what it is the other way round, with or without its end pixels. -/
inductive Shape : Call → List (ℤ × ℤ) → Prop
  | hLine (x y width : ℤ) : Shape (.hLine x y width) (hspan x (x + width) y)
  | vLine (x y height : ℤ) : Shape (.vLine x y height) (vspan x y (y + height))
  | down (x y0 y1 : ℤ) (h : y0 ≤ y1) : Shape (.line x y0 x y1) (vspan x y0 y1)
  | right (x0 x1 y : ℤ) (h : x0 < x1) : Shape (.line x0 y x1 y) (hspan x0 x1 y)
  | up (x y0 y1 first stop : ℤ) (h : y1 < y0) (hfirst : y1 ≤ first ∧ first ≤ y1 + 1)
      (hstop : y0 ≤ stop ∧ stop ≤ y0 + 1) : Shape (.line x y0 x y1) (vspan x first stop)
  | left (x0 x1 y first stop : ℤ) (h : x1 < x0) (hfirst : x1 ≤ first ∧ first ≤ x1 + 1)
      (hstop : x0 ≤ stop ∧ stop ≤ x0 + 1) : Shape (.line x0 y x1 y) (hspan first stop y)
  | oblique (x0 y0 x1 y1 : ℤ) (hx : x0 ≠ x1) (hy : y0 ≠ y1) :
      Shape (.line x0 y0 x1 y1) (drawOblique (fun _ => true) x0 y0 x1 y1)
  | box (x1 y1 x2 y2 : ℤ) : Shape (.box x1 y1 x2 y2 false)
      (hspan x1 x2 y1 ++ hspan x1 x2 y2 ++ vspan x1 y1 y2 ++ vspan x2 y1 y2)
  | fill (x1 y1 x2 y2 : ℤ) : Shape (.box x1 y1 x2 y2 true)
      ((rows y1 y2).flatMap fun y => hspan x1 x2 y)

/-- A drawing is the visible pixels of a shape, each as often as the shape has it. -/
def Clips (drawn shape : List (ℤ × ℤ)) : Prop := drawn.Perm (shape.filter (Visible d))

/-- The call draws what is visible of its shape. -/
def Right (c : Call) : Prop := ∃ shape, Shape c shape ∧ Clips d (draw d c) shape

/-! ### When it is right -/

/-- A row on the display does not reach the last column; of one that is not, nothing is drawn. -/
def HFits (x y width : ℤ) : Prop :=
  if 0 ≤ y ∧ y < d.height then x + width < d.width ∨ d.width ≤ x
  else min (x + width) (d.width - 1) ≤ max x 0

/-- The same of a column, which may begin above the display. -/
def VFits (x y height : ℤ) : Prop :=
  if 0 ≤ x ∧ x < d.width then y < 0 ∨ y + height < d.height ∨ d.height ≤ y
  else (if y < 0 then y + height else min (y + height) (d.height - 1)) ≤ max y 0

/-- The box whose two pixels on each edge change places. -/
def Corner (x1 y1 x2 y2 : ℤ) : Prop :=
  0 ≤ x1 ∧ x1 = d.width - 2 ∧ 0 ≤ y1 ∧ y1 = d.height - 2 ∧ d.width ≤ x2 ∧ d.height ≤ y2

/-- The condition, on the arguments. -/
def Fits : Call → Prop
  | .hLine x y width => HFits d x y width
  | .vLine x y height => VFits d x y height
  | .line x0 y0 x1 y1 =>
      if x0 = x1 then
        if y0 ≤ y1 then VFits d x0 y0 (y1 - y0)
        else ∀ y, y1 < y → y < y0 → Visible d (x0, y) = false
      else if y0 = y1 then
        if x0 < x1 then HFits d x0 y0 (x1 - x0)
        else ∀ x, x1 < x → x < x0 → Visible d (x, y0) = false
      else True
  | .box x1 y1 x2 y2 true => ∀ y, y1 ≤ y → y ≤ y2 → HFits d x1 y (x2 - x1)
  | .box x1 y1 x2 y2 false =>
      HFits d x1 y1 (x2 - x1) ∧ HFits d x1 y2 (x2 - x1) ∧ VFits d x1 y1 (y2 - y1) ∧
          VFits d x2 y1 (y2 - y1) ∨
        Corner d x1 y1 x2 y2

variable {d}

/-! ### Spans -/

theorem mem_hspan {x stop y : ℤ} {p : ℤ × ℤ} :
    p ∈ hspan x stop y ↔ x ≤ p.1 ∧ p.1 < stop ∧ p.2 = y := by
  obtain ⟨i, j⟩ := p
  simp only [hspan, List.mem_map, List.mem_range, Prod.mk.injEq]
  constructor
  · rintro ⟨k, hk, rfl, rfl⟩
    omega
  · rintro ⟨hle, hlt, rfl⟩
    exact ⟨(i - x).toNat, by omega, by omega, rfl⟩

theorem mem_vspan {x y stop : ℤ} {p : ℤ × ℤ} :
    p ∈ vspan x y stop ↔ p.1 = x ∧ y ≤ p.2 ∧ p.2 < stop := by
  obtain ⟨i, j⟩ := p
  simp only [vspan, List.mem_map, List.mem_range, Prod.mk.injEq]
  constructor
  · rintro ⟨k, hk, rfl, rfl⟩
    omega
  · rintro ⟨rfl, hle, hlt⟩
    exact ⟨(j - y).toNat, by omega, rfl, by omega⟩

theorem nodup_hspan (x stop y : ℤ) : (hspan x stop y).Nodup := by
  refine List.Nodup.map ?_ List.nodup_range
  intro a b hab
  injection hab
  omega

theorem nodup_vspan (x y stop : ℤ) : (vspan x y stop).Nodup := by
  refine List.Nodup.map ?_ List.nodup_range
  intro a b hab
  injection hab
  omega

theorem visible_iff {p : ℤ × ℤ} :
    Visible d p = true ↔ 0 ≤ p.1 ∧ p.1 < d.width ∧ 0 ≤ p.2 ∧ p.2 < d.height := by
  rw [Visible, decide_eq_true_eq]

/-- Pixels that are drawn once each are compared one by one. -/
theorem clips_iff {drawn shape : List (ℤ × ℤ)} (h : drawn.Nodup) (h' : shape.Nodup) :
    Clips d drawn shape ↔ ∀ p, p ∈ drawn ↔ p ∈ shape ∧ Visible d p = true := by
  rw [Clips, List.perm_ext_iff_of_nodup h (h'.filter _)]
  simp only [List.mem_filter]

/-! ### Lines along an axis -/

theorem mem_drawHLine {x y width : ℤ} {p : ℤ × ℤ} : p ∈ drawHLine d x y width ↔
    max x 0 ≤ p.1 ∧ p.1 < min (x + width) (d.width - 1) ∧
      p.2 = max (min y (d.height - 1)) 0 := by
  have hpos := d.height_pos
  simp only [drawHLine, mem_hspan]
  split <;> split <;> split <;> (try split) <;> omega

theorem nodup_drawHLine (x y width : ℤ) : (drawHLine d x y width).Nodup := nodup_hspan _ _ _

theorem mem_drawVLine {x y height : ℤ} {p : ℤ × ℤ} : p ∈ drawVLine d x y height ↔
    p.1 = max (min x (d.width - 1)) 0 ∧ max y 0 ≤ p.2 ∧
      p.2 < (if y < 0 then min (y + height) d.height else min (y + height) (d.height - 1)) := by
  have hpos := d.width_pos
  simp only [drawVLine, List.mem_filter, visible_iff]
  split <;> split <;> simp only [mem_vspan] <;> split <;> (try split) <;> omega

theorem nodup_drawVLine (x y height : ℤ) : (drawVLine d x y height).Nodup :=
  (nodup_vspan _ _ _).filter _

theorem hLine_iff {x y width : ℤ} :
    Clips d (drawHLine d x y width) (hspan x (x + width) y) ↔ HFits d x y width := by
  have hw := d.width_pos
  have hh := d.height_pos
  rw [clips_iff (nodup_drawHLine _ _ _) (nodup_hspan _ _ _), HFits]
  simp only [mem_drawHLine, mem_hspan, visible_iff]
  constructor
  · intro h
    split
    case isTrue hrow =>
      -- the last column, of a row that reaches it
      by_contra hlost
      obtain ⟨-, hlast, -⟩ := (h (d.width - 1, y)).mpr (by simp only [and_true]; omega)
      simp only at hlast
      omega
    case isFalse hrow =>
      -- the first pixel that is drawn, of a row that is moved
      by_contra hmoved
      obtain ⟨⟨-, -, hrow'⟩, hvis⟩ := (h (max x 0, max (min y (d.height - 1)) 0)).mp
        ⟨Int.le_refl _, by simp only; omega, rfl⟩
      simp only at hrow' hvis
      omega
  · intro h p
    split at h <;> omega

theorem vLine_iff {x y height : ℤ} :
    Clips d (drawVLine d x y height) (vspan x y (y + height)) ↔ VFits d x y height := by
  have hw := d.width_pos
  have hh := d.height_pos
  rw [clips_iff (nodup_drawVLine _ _ _) (nodup_vspan _ _ _), VFits]
  simp only [mem_drawVLine, mem_vspan, visible_iff]
  constructor
  · intro h
    split
    case isTrue hcol =>
      by_contra hlost
      obtain ⟨-, -, hlast⟩ := (h (x, d.height - 1)).mpr (by simp only [true_and]; omega)
      rw [if_neg (by omega)] at hlast
      simp only at hlast
      omega
    case isFalse hcol =>
      by_contra hmoved
      obtain ⟨⟨hcol', -⟩, hvis⟩ := (h (max (min x (d.width - 1)) 0, max y 0)).mp
        ⟨rfl, Int.le_refl _, by simp only; split at hmoved <;> split <;> omega⟩
      simp only at hcol' hvis
      omega
  · intro h p
    split at h <;> split <;> (try split at h) <;> omega

/-! ### Lines -/

/-- A line that is drawn pixel by pixel is clipped pixel by pixel. -/
theorem wideLoop_filter (test : ℤ × ℤ → Bool) (dx dy incr : ℤ) (n : ℕ) (x y error : ℤ) :
    wideLoop test dx dy incr n x y error =
      (wideLoop (fun _ => true) dx dy incr n x y error).filter test := by
  induction n generalizing x y error with
  | zero => rfl
  | succ n ih =>
    rw [wideLoop, wideLoop, if_pos rfl, List.filter_cons, ih, ih, apply_ite (List.filter test)]

theorem tallLoop_filter (test : ℤ × ℤ → Bool) (dx dy incr : ℤ) (n : ℕ) (x y error : ℤ) :
    tallLoop test dx dy incr n x y error =
      (tallLoop (fun _ => true) dx dy incr n x y error).filter test := by
  induction n generalizing x y error with
  | zero => rfl
  | succ n ih =>
    rw [tallLoop, tallLoop, if_pos rfl, List.filter_cons, ih, ih, apply_ite (List.filter test)]

theorem drawOblique_filter (test : ℤ × ℤ → Bool) (x0 y0 x1 y1 : ℤ) :
    drawOblique test x0 y0 x1 y1 = (drawOblique (fun _ => true) x0 y0 x1 y1).filter test := by
  simp only [drawOblique, drawWideLine, drawTallLine]
  split <;> split
  · exact wideLoop_filter ..
  · exact wideLoop_filter ..
  · exact tallLoop_filter ..
  · exact tallLoop_filter ..

/-- Nothing is drawn of a line that is given from its end. -/
theorem clips_nil_iff {shape : List (ℤ × ℤ)} :
    Clips d [] shape ↔ ∀ p ∈ shape, Visible d p = false := by
  rw [Clips, List.nil_perm, List.filter_eq_nil_iff]
  simp only [Bool.not_eq_true]

theorem drawVLine_eq_nil {x y height : ℤ} (h : height ≤ 0) : drawVLine d x y height = [] := by
  refine List.eq_nil_iff_forall_not_mem.mpr fun p hp => ?_
  rw [mem_drawVLine] at hp
  split at hp <;> omega

theorem drawHLine_eq_nil {x y width : ℤ} (h : width ≤ 0) : drawHLine d x y width = [] := by
  refine List.eq_nil_iff_forall_not_mem.mpr fun p hp => ?_
  rw [mem_drawHLine] at hp
  omega

theorem vertical_iff {x y0 y1 : ℤ} :
    Right d (.line x y0 x y1) ↔ Fits d (.line x y0 x y1) := by
  have hdraw : draw d (.line x y0 x y1) = drawVLine d x y0 (y1 - y0) := if_pos rfl
  rw [Right, hdraw, Fits, if_pos rfl]
  by_cases hdown : y0 ≤ y1
  · have hstop : y0 + (y1 - y0) = y1 := by omega
    rw [if_pos hdown, ← vLine_iff, hstop]
    constructor
    · rintro ⟨shape, hshape, hclips⟩
      cases hshape with
      | down => exact hclips
      | right _ _ _ h => exact absurd h (Int.lt_irrefl x)
      | up _ _ _ _ _ h => exact absurd h (Int.not_lt.mpr hdown)
      | left _ _ _ _ _ h => exact absurd h (Int.lt_irrefl x)
      | oblique _ _ _ _ hx => exact absurd rfl hx
    · exact fun hclips => ⟨_, .down x y0 y1 hdown, hclips⟩
  · rw [if_neg hdown, drawVLine_eq_nil (by omega)]
    constructor
    · rintro ⟨shape, hshape, hclips⟩ y hfrom hto
      cases hshape with
      | down _ _ _ h => exact absurd h hdown
      | right _ _ _ h => exact absurd h (Int.lt_irrefl x)
      | up _ _ _ first stop _ hfirst hstop =>
        exact clips_nil_iff.mp hclips _ (mem_vspan.mpr (by simp only [true_and]; omega))
      | left _ _ _ _ _ h => exact absurd h (Int.lt_irrefl x)
      | oblique _ _ _ _ hx => exact absurd rfl hx
    · intro hhidden
      refine ⟨_, .up x y0 y1 (y1 + 1) y0 (by omega) (by omega) (by omega),
        clips_nil_iff.mpr fun p hp => ?_⟩
      obtain ⟨i, j⟩ := p
      obtain ⟨rfl, hfrom, hto⟩ := mem_vspan.mp hp
      exact hhidden j (by simp only at hfrom; omega) hto

theorem horizontal_iff {x0 x1 y : ℤ} (hx : x0 ≠ x1) :
    Right d (.line x0 y x1 y) ↔ Fits d (.line x0 y x1 y) := by
  have hdraw : draw d (.line x0 y x1 y) = drawHLine d x0 y (x1 - x0) :=
    (if_neg hx).trans (if_pos rfl)
  rw [Right, hdraw, Fits, if_neg hx, if_pos rfl]
  by_cases hright : x0 < x1
  · have hstop : x0 + (x1 - x0) = x1 := by omega
    rw [if_pos hright, ← hLine_iff, hstop]
    constructor
    · rintro ⟨shape, hshape, hclips⟩
      cases hshape with
      | down => exact absurd rfl hx
      | right => exact hclips
      | up => exact absurd rfl hx
      | left _ _ _ _ _ h => exact absurd h (Int.not_lt.mpr (Int.le_of_lt hright))
      | oblique _ _ _ _ _ hy => exact absurd rfl hy
    · exact fun hclips => ⟨_, .right x0 x1 y hright, hclips⟩
  · rw [if_neg hright, drawHLine_eq_nil (by omega)]
    constructor
    · rintro ⟨shape, hshape, hclips⟩ x hfrom hto
      cases hshape with
      | down => exact absurd rfl hx
      | right _ _ _ h => exact absurd h hright
      | up => exact absurd rfl hx
      | left _ _ _ first stop _ hfirst hstop =>
        exact clips_nil_iff.mp hclips _ (mem_hspan.mpr (by simp only [and_true]; omega))
      | oblique _ _ _ _ _ hy => exact absurd rfl hy
    · intro hhidden
      refine ⟨_, .left x0 x1 y (x1 + 1) x0 (by omega) (by omega) (by omega),
        clips_nil_iff.mpr fun p hp => ?_⟩
      obtain ⟨i, j⟩ := p
      obtain ⟨hfrom, hto, rfl⟩ := mem_hspan.mp hp
      exact hhidden i (by simp only at hfrom; omega) hto

theorem line_iff {x0 y0 x1 y1 : ℤ} :
    Right d (.line x0 y0 x1 y1) ↔ Fits d (.line x0 y0 x1 y1) := by
  by_cases hx : x0 = x1
  · exact hx ▸ vertical_iff
  · by_cases hy : y0 = y1
    · exact hy ▸ horizontal_iff hx
    · rw [Fits, if_neg hx, if_neg hy, iff_true]
      refine ⟨_, .oblique x0 y0 x1 y1 hx hy, ?_⟩
      have hdraw : draw d (.line x0 y0 x1 y1) = drawOblique (Visible d) x0 y0 x1 y1 :=
        (if_neg hx).trans (if_neg hy)
      rw [Clips, hdraw, drawOblique_filter]

/-! ### Boxes -/

theorem mem_rows {y stop j : ℤ} : j ∈ rows y stop ↔ y ≤ j ∧ j ≤ stop := by
  simp only [rows, List.mem_map, List.mem_range]
  constructor
  · rintro ⟨k, hk, rfl⟩
    omega
  · rintro ⟨hle, hlt⟩
    exact ⟨(j - y).toNat, by omega, by omega⟩

theorem nodup_rows (y stop : ℤ) : (rows y stop).Nodup := by
  refine List.Nodup.map ?_ List.nodup_range
  intro a b hab
  simp only at hab
  omega

/-- Rows that are drawn without a pixel in two of them. -/
theorem nodup_rows_flatMap {y stop : ℤ} {f : ℤ → List (ℤ × ℤ)} (hf : ∀ j, (f j).Nodup)
    (h : ∀ j k p, p ∈ f j → p ∈ f k → j = k) : ((rows y stop).flatMap f).Nodup := by
  refine List.nodup_flatMap.mpr ⟨fun j _ => hf j, (nodup_rows y stop).imp fun hne => ?_⟩
  exact fun p hj hk => hne (h _ _ p hj hk)

/-- A pixel that is drawn once is in one row. -/
theorem row_unique {l : List ℤ} {f : ℤ → List (ℤ × ℤ)} (h : (l.flatMap f).Nodup) {j k : ℤ}
    (hj : j ∈ l) (hk : k ∈ l) {p : ℤ × ℤ} (hp : p ∈ f j) (hp' : p ∈ f k) : j = k := by
  have hsymm : Std.Symm (Function.onFun List.Disjoint f) := ⟨fun _ _ h _ hp hp' => h hp' hp⟩
  by_contra hne
  exact (List.nodup_flatMap.mp h).2.forall hj hk hne hp hp'

/-- A box is filled right if and only if each of its rows is. -/
theorem fill_iff {x1 y1 x2 y2 : ℤ} :
    Right d (.box x1 y1 x2 y2 true) ↔ Fits d (.box x1 y1 x2 y2 true) := by
  have hw := d.width_pos
  have hh := d.height_pos
  have hdraw : draw d (.box x1 y1 x2 y2 true) =
      (rows y1 y2).flatMap fun y => drawHLine d x1 y (x2 - x1) := rfl
  have hstop : x1 + (x2 - x1) = x2 := by omega
  rw [Right, hdraw, Fits]
  constructor
  · rintro ⟨shape, hshape, hclips⟩ y hfrom hto
    cases hshape
    have hmem := fun p => hclips.mem_iff (a := p)
    have hnodup := hclips.nodup_iff.mpr <| (nodup_rows_flatMap (fun j => nodup_hspan x1 x2 j)
      fun j k p hj hk => (mem_hspan.mp hj).2.2.symm.trans (mem_hspan.mp hk).2.2).filter _
    simp only [List.mem_flatMap, List.mem_filter, mem_rows, mem_drawHLine, mem_hspan,
      visible_iff, hstop] at hmem
    rw [HFits, hstop]
    split
    case isTrue hrow =>
      by_contra hlost
      obtain ⟨j, -, -, hlast, -⟩ := (hmem (d.width - 1, y)).mpr
        ⟨⟨y, ⟨hfrom, hto⟩, by simp only [and_true]; omega⟩, by simp only; omega⟩
      simp only at hlast
      omega
    case isFalse hrow =>
      by_contra hmoved
      -- the row that this one is moved to, which is drawn twice or is not to be drawn
      have hpixel : (max x1 0, max (min y (d.height - 1)) 0) ∈ drawHLine d x1 y (x2 - x1) :=
        mem_drawHLine.mpr ⟨Int.le_refl _, by simp only; omega, rfl⟩
      obtain ⟨⟨j, hj, -, -, hrow'⟩, hvis⟩ := (hmem (max x1 0, max (min y (d.height - 1)) 0)).mp
        ⟨y, ⟨hfrom, hto⟩, Int.le_refl _, by simp only; omega, rfl⟩
      simp only at hrow' hvis
      have hother : (max x1 0, max (min y (d.height - 1)) 0) ∈ drawHLine d x1 j (x2 - x1) :=
        mem_drawHLine.mpr ⟨Int.le_refl _, by simp only; omega, by simp only; omega⟩
      have hsame := row_unique hnodup (mem_rows.mpr ⟨hfrom, hto⟩) (mem_rows.mpr hj) hpixel hother
      omega
  · intro h
    refine ⟨_, .fill x1 y1 x2 y2, ?_⟩
    rw [Clips, List.filter_flatMap]
    refine List.Perm.flatMap_left _ fun y hy => ?_
    obtain ⟨hfrom, hto⟩ := mem_rows.mp hy
    have hclips := hLine_iff.mpr (h y hfrom hto)
    rw [hstop] at hclips
    exact hclips

/-! ### Boxes that are not filled -/

/-- One or zero. -/
def once (P : Prop) [Decidable P] : ℕ := if P then 1 else 0

theorem once_le_one (P : Prop) [Decidable P] : once P ≤ 1 := by
  rw [once]
  split <;> decide

theorem once_le {P Q : Prop} [Decidable P] [Decidable Q] (h : Q → P) : once Q ≤ once P := by
  rw [once, once]
  split
  case isTrue hq => exact Nat.le_of_eq (if_pos (h hq)).symm
  case isFalse => exact Nat.zero_le _

theorem once_or {P Q R : Prop} [Decidable P] [Decidable Q] [Decidable R] (h : P ↔ Q ∨ R)
    (hno : ¬ (Q ∧ R)) : once P = once Q + once R := by
  rw [once, if_congr h rfl rfl, once, once]
  split <;> split <;> split <;> tauto

theorem count_eq_once {l : List (ℤ × ℤ)} (h : l.Nodup) {p : ℤ × ℤ} {P : Prop} [Decidable P]
    (hP : p ∈ l ↔ P) : l.count p = once P := by
  rw [h.count, once]
  exact if_congr hP rfl rfl

/-- The lines of a box. -/
inductive Side
  | top | bottom | left | right

/-- Of two sums that are the same, with all but one of the one in the other. -/
theorem once_sum {P Q : Side → Prop} [DecidablePred P] [DecidablePred Q]
    (hsum : once (P .top) + once (P .bottom) + once (P .left) + once (P .right) =
      once (Q .top) + once (Q .bottom) + once (Q .left) + once (Q .right))
    (k : Side) (hothers : ∀ l, l ≠ k → Q l → P l) (hk : P k) : Q k := by
  by_contra hno
  have hone : once (P k) = 1 := if_pos hk
  have hzero : once (Q k) = 0 := if_neg hno
  have hle := fun l hl => once_le (hothers l hl)
  cases k with
  | top =>
    have hbottom := hle .bottom nofun
    have hleft := hle .left nofun
    have hright := hle .right nofun
    omega
  | bottom =>
    have htop := hle .top nofun
    have hleft := hle .left nofun
    have hright := hle .right nofun
    omega
  | left =>
    have htop := hle .top nofun
    have hbottom := hle .bottom nofun
    have hright := hle .right nofun
    omega
  | right =>
    have htop := hle .top nofun
    have hbottom := hle .bottom nofun
    have hleft := hle .left nofun
    omega

section Box

variable (d) (x1 y1 x2 y2 i j : ℤ)

/-- Where the columns end. -/
def colStop : ℤ := if y1 < 0 then min y2 d.height else min y2 (d.height - 1)

theorem colStop_cases : y1 < 0 ∧ colStop d y1 y2 = min y2 d.height ∨
    0 ≤ y1 ∧ colStop d y1 y2 = min y2 (d.height - 1) := by
  rw [colStop]
  split
  case isTrue hneg => exact .inl ⟨hneg, rfl⟩
  case isFalse hpos => exact .inr ⟨Int.not_lt.mp hpos, rfl⟩

/-- The line is drawn at the pixel. -/
def Drawn : Side → Prop
  | .top => max x1 0 ≤ i ∧ i < min x2 (d.width - 1) ∧ j = max (min y1 (d.height - 1)) 0
  | .bottom => max x1 0 ≤ i ∧ i < min x2 (d.width - 1) ∧ j = max (min y2 (d.height - 1)) 0
  | .left => i = max (min x1 (d.width - 1)) 0 ∧ max y1 0 ≤ j ∧ j < colStop d y1 y2
  | .right => i = max (min x2 (d.width - 1)) 0 ∧ max y1 0 ≤ j ∧ j < colStop d y1 y2

/-- The line is to be drawn at the pixel. -/
def Seen : Side → Prop
  | .top => (x1 ≤ i ∧ i < x2 ∧ j = y1) ∧ 0 ≤ i ∧ i < d.width ∧ 0 ≤ j ∧ j < d.height
  | .bottom => (x1 ≤ i ∧ i < x2 ∧ j = y2) ∧ 0 ≤ i ∧ i < d.width ∧ 0 ≤ j ∧ j < d.height
  | .left => (i = x1 ∧ y1 ≤ j ∧ j < y2) ∧ 0 ≤ i ∧ i < d.width ∧ 0 ≤ j ∧ j < d.height
  | .right => (i = x2 ∧ y1 ≤ j ∧ j < y2) ∧ 0 ≤ i ∧ i < d.width ∧ 0 ≤ j ∧ j < d.height

instance (k : Side) : Decidable (Drawn d x1 y1 x2 y2 i j k) := by
  cases k <;> unfold Drawn <;> infer_instance

instance (k : Side) : Decidable (Seen d x1 y1 x2 y2 i j k) := by
  cases k <;> unfold Seen <;> infer_instance

/-- Each pixel is drawn as often as it is to be. -/
def Counted : Prop := ∀ i j,
  once (Drawn d x1 y1 x2 y2 i j .top) + once (Drawn d x1 y1 x2 y2 i j .bottom) +
      once (Drawn d x1 y1 x2 y2 i j .left) + once (Drawn d x1 y1 x2 y2 i j .right) =
    once (Seen d x1 y1 x2 y2 i j .top) + once (Seen d x1 y1 x2 y2 i j .bottom) +
      once (Seen d x1 y1 x2 y2 i j .left) + once (Seen d x1 y1 x2 y2 i j .right)

end Box

variable {x1 y1 x2 y2 : ℤ}

theorem box_iff_counted :
    Right d (.box x1 y1 x2 y2 false) ↔ Counted d x1 y1 x2 y2 := by
  have hstop : x1 + (x2 - x1) = x2 := by omega
  have hstop' : y1 + (y2 - y1) = y2 := by omega
  have hdraw : draw d (.box x1 y1 x2 y2 false) =
      drawHLine d x1 y1 (x2 - x1) ++ drawHLine d x1 y2 (x2 - x1) ++
        drawVLine d x1 y1 (y2 - y1) ++ drawVLine d x2 y1 (y2 - y1) := by
    simp only [draw, drawBox, if_pos, hstop, hstop']
  have hshape : Right d (.box x1 y1 x2 y2 false) ↔ Clips d (draw d (.box x1 y1 x2 y2 false))
      (hspan x1 x2 y1 ++ hspan x1 x2 y2 ++ vspan x1 y1 y2 ++ vspan x2 y1 y2) := by
    constructor
    · rintro ⟨shape, hshape, hclips⟩
      cases hshape
      exact hclips
    · exact fun hclips => ⟨_, .box x1 y1 x2 y2, hclips⟩
  rw [hshape, hdraw, Clips, List.perm_iff_count, Prod.forall, Counted]
  refine forall_congr' fun i => forall_congr' fun j => ?_
  simp only [List.filter_append, List.count_append]
  rw [count_eq_once (nodup_drawHLine _ _ _) (P := Drawn d x1 y1 x2 y2 i j .top)
      (by rw [mem_drawHLine, hstop]; exact Iff.rfl),
    count_eq_once (nodup_drawHLine _ _ _) (P := Drawn d x1 y1 x2 y2 i j .bottom)
      (by rw [mem_drawHLine, hstop]; exact Iff.rfl),
    count_eq_once (nodup_drawVLine _ _ _) (P := Drawn d x1 y1 x2 y2 i j .left)
      (by rw [mem_drawVLine, hstop']; exact Iff.rfl),
    count_eq_once (nodup_drawVLine _ _ _) (P := Drawn d x1 y1 x2 y2 i j .right)
      (by rw [mem_drawVLine, hstop']; exact Iff.rfl),
    count_eq_once ((nodup_hspan _ _ _).filter _) (P := Seen d x1 y1 x2 y2 i j .top)
      (by rw [List.mem_filter, mem_hspan, visible_iff]; exact Iff.rfl),
    count_eq_once ((nodup_hspan _ _ _).filter _) (P := Seen d x1 y1 x2 y2 i j .bottom)
      (by rw [List.mem_filter, mem_hspan, visible_iff]; exact Iff.rfl),
    count_eq_once ((nodup_vspan _ _ _).filter _) (P := Seen d x1 y1 x2 y2 i j .left)
      (by rw [List.mem_filter, mem_vspan, visible_iff]; exact Iff.rfl),
    count_eq_once ((nodup_vspan _ _ _).filter _) (P := Seen d x1 y1 x2 y2 i j .right)
      (by rw [List.mem_filter, mem_vspan, visible_iff]; exact Iff.rfl)]

namespace Counted

variable (h : Counted d x1 y1 x2 y2) (i j : ℤ) (k : Side)

include h

/-- Where the other lines are drawn as far as they are to be, a line is drawn only where it is
to be. -/
theorem seen (hothers : ∀ l, l ≠ k → Seen d x1 y1 x2 y2 i j l → Drawn d x1 y1 x2 y2 i j l) :
    Drawn d x1 y1 x2 y2 i j k → Seen d x1 y1 x2 y2 i j k :=
  once_sum (h i j) k hothers

/-- Where the other lines are drawn only where they are to be, a line is drawn where it is to
be. -/
theorem drawn (hothers : ∀ l, l ≠ k → Drawn d x1 y1 x2 y2 i j l → Seen d x1 y1 x2 y2 i j l) :
    Seen d x1 y1 x2 y2 i j k → Drawn d x1 y1 x2 y2 i j k :=
  once_sum (h i j).symm k hothers

/-- A row that is drawn begins on the display. -/
theorem top_row (hrow : max x1 0 < min x2 (d.width - 1)) : 0 ≤ y1 ∧ y1 < d.height := by
  have hw := d.width_pos
  have hh := d.height_pos
  have hstop := colStop_cases d y1 y2
  by_contra hout
  have hseen := h.seen (max x1 0) (max (min y1 (d.height - 1)) 0) .top
    (by intro l hl; cases l <;> simp only [Seen, Drawn] <;> omega)
    ⟨by omega, by omega, rfl⟩
  simp only [Seen] at hseen
  omega

/-- A column that is drawn is that of a line on the display. -/
theorem left_col (hcol : max y1 0 < colStop d y1 y2) : 0 ≤ x1 ∧ x1 < d.width := by
  have hw := d.width_pos
  have hh := d.height_pos
  have hstop := colStop_cases d y1 y2
  by_contra hout
  by_cases hone : d.width = 1 ∧ 0 < x2
  · -- both columns are drawn at the only one, where one pixel may be a row's
    have hleft : once (Drawn d x1 y1 x2 y2 (max (min x1 (d.width - 1)) 0) (max y1 0) .left) = 1 :=
      if_pos ⟨rfl, Int.le_refl _, hcol⟩
    have hright : once (Drawn d x1 y1 x2 y2 (max (min x1 (d.width - 1)) 0) (max y1 0) .right) = 1 :=
      if_pos ⟨by omega, Int.le_refl _, hcol⟩
    have htop : once (Seen d x1 y1 x2 y2 (max (min x1 (d.width - 1)) 0) (max y1 0) .top) ≤ 1 :=
      once_le_one _
    have hbottom :
        once (Seen d x1 y1 x2 y2 (max (min x1 (d.width - 1)) 0) (max y1 0) .bottom) = 0 :=
      if_neg (by simp only [Seen]; omega)
    have hleft' : once (Seen d x1 y1 x2 y2 (max (min x1 (d.width - 1)) 0) (max y1 0) .left) = 0 :=
      if_neg (by simp only [Seen]; omega)
    have hright' : once (Seen d x1 y1 x2 y2 (max (min x1 (d.width - 1)) 0) (max y1 0) .right) = 0 :=
      if_neg (by simp only [Seen]; omega)
    have hsum := h (max (min x1 (d.width - 1)) 0) (max y1 0)
    omega
  · have hseen := h.seen (max (min x1 (d.width - 1)) 0) (max y1 0) .left
      (by intro l hl; cases l <;> first | exact absurd rfl hl | simp only [Seen, Drawn]; omega)
      ⟨rfl, Int.le_refl _, hcol⟩
    simp only [Seen] at hseen
    omega

/-- Of a box whose rows are drawn, the last one is on the display, or the box is in the corner. -/
theorem bottom_row (hrow : max x1 0 < min x2 (d.width - 1)) (hcorner : ¬ Corner d x1 y1 x2 y2) :
    0 ≤ y2 ∧ y2 < d.height := by
  have hw := d.width_pos
  have hh := d.height_pos
  have hstop := colStop_cases d y1 y2
  obtain ⟨htop, htop'⟩ := h.top_row hrow
  by_contra hout
  rw [Corner] at hcorner
  by_cases hone : 0 ≤ x1 ∧ x1 + 1 = min x2 (d.width - 1) ∧ d.height ≤ y2
  · -- one pixel of the last row, which may stand for that of the left column
    by_cases hright : x2 < d.width
    · have hdrawn := h.drawn x2 (d.height - 1) .right
        (by intro l hl; cases l <;> first | exact absurd rfl hl | simp only [Seen, Drawn]; omega)
        (by simp only [Seen, true_and]; omega)
      simp only [Drawn] at hdrawn
      omega
    · by_cases hlast : y1 = d.height - 1
      · have hdrawn := h.drawn (d.width - 1) y1 .top
          (by intro l hl; cases l <;> first | exact absurd rfl hl | simp only [Seen, Drawn]; omega)
          (by simp only [Seen, and_true]; omega)
        simp only [Drawn] at hdrawn
        omega
      · have hseen := h.seen (d.width - 1) (y1 + 1) .right
          (by intro l hl; cases l <;> first | exact absurd rfl hl | simp only [Seen, Drawn]; omega)
          (by simp only [Drawn]; omega)
        simp only [Seen] at hseen
        omega
  · -- another pixel of the last row
    obtain ⟨i, hi⟩ : ∃ i, max x1 0 ≤ i ∧ i < min x2 (d.width - 1) ∧ (d.height ≤ y2 → x1 < i) := by
      by_cases hnext : 0 ≤ x1 ∧ d.height ≤ y2
      · exact ⟨x1 + 1, by omega⟩
      · exact ⟨max x1 0, by omega⟩
    have hseen := h.seen i (max (min y2 (d.height - 1)) 0) .bottom
      (by intro l hl; cases l <;> first | exact absurd rfl hl | simp only [Seen, Drawn]; omega)
      (by simp only [Drawn, and_true]; omega)
    simp only [Seen] at hseen
    omega

/-- Of a box whose columns are drawn, the last one is on the display, or the box is in the
corner. -/
theorem right_col (hcol : max y1 0 < colStop d y1 y2) (hcorner : ¬ Corner d x1 y1 x2 y2) :
    0 ≤ x2 ∧ x2 < d.width := by
  have hw := d.width_pos
  have hh := d.height_pos
  have hstop := colStop_cases d y1 y2
  obtain ⟨hleft, hleft'⟩ := h.left_col hcol
  by_contra hout
  by_cases hone : d.width ≤ x2 ∧ 0 ≤ y1 ∧ y1 + 1 = colStop d y1 y2
  · -- one pixel of the last column, which may stand for that of the upper row
    by_cases hbottom : y2 < d.height
    · have hdrawn := h.drawn (d.width - 1) y2 .bottom
        (by intro l hl; cases l <;> first | exact absurd rfl hl | simp only [Seen, Drawn]; omega)
        (by simp only [Seen, and_true]; omega)
      simp only [Drawn] at hdrawn
      omega
    · by_cases hrow : max x1 0 < min x2 (d.width - 1)
      · have hlast := h.bottom_row hrow hcorner
        omega
      · have hdrawn := h.drawn x1 (d.height - 1) .left
          (by intro l hl; cases l <;> first | exact absurd rfl hl | simp only [Seen, Drawn]; omega)
          (by simp only [Seen, true_and]; omega)
        simp only [Drawn] at hdrawn
        omega
  · -- another pixel of the last column
    obtain ⟨j, hj⟩ : ∃ j, max y1 0 ≤ j ∧ j < colStop d y1 y2 ∧ (d.width ≤ x2 → y1 < j) := by
      by_cases hnext : 0 ≤ y1 ∧ d.width ≤ x2
      · exact ⟨y1 + 1, by omega⟩
      · exact ⟨max y1 0, by omega⟩
    have hseen := h.seen (max (min x2 (d.width - 1)) 0) j .right
      (by intro l hl; cases l <;> first | exact absurd rfl hl | simp only [Seen, Drawn]; omega)
      (by simp only [Drawn, true_and]; omega)
    simp only [Seen] at hseen
    omega

/-- Nothing that is to be seen is cut off a side. -/
theorem uncut (hcorner : ¬ Corner d x1 y1 x2 y2) :
    (0 ≤ y1 ∧ y1 < d.height ∨ 0 ≤ y2 ∧ y2 < d.height → x2 < d.width ∨ d.width ≤ x1) ∧
      (0 ≤ x1 ∧ x1 < d.width ∨ 0 ≤ x2 ∧ x2 < d.width →
        y1 < 0 ∨ y2 < d.height ∨ d.height ≤ y1) := by
  have hw := d.width_pos
  have hh := d.height_pos
  have hstop := colStop_cases d y1 y2
  refine ⟨fun hrow => ?_, fun hcol => ?_⟩
  · by_contra hcut
    have hout : ¬ max y1 0 < colStop d y1 y2 := fun hcol => by
      have hright := h.right_col hcol hcorner
      omega
    rcases hrow with hrow | hrow
    · have hdrawn := h.drawn (d.width - 1) y1 .top
        (by intro l hl; cases l <;> first | exact absurd rfl hl | simp only [Seen, Drawn]; omega)
        (by simp only [Seen, and_true]; omega)
      simp only [Drawn] at hdrawn
      omega
    · have hdrawn := h.drawn (d.width - 1) y2 .bottom
        (by intro l hl; cases l <;> first | exact absurd rfl hl | simp only [Seen, Drawn]; omega)
        (by simp only [Seen, and_true]; omega)
      simp only [Drawn] at hdrawn
      omega
  · by_contra hcut
    have hout : ¬ max x1 0 < min x2 (d.width - 1) := fun hrow => by
      have hbottom := h.bottom_row hrow hcorner
      omega
    rcases hcol with hcol | hcol
    · have hdrawn := h.drawn x1 (d.height - 1) .left
        (by intro l hl; cases l <;> first | exact absurd rfl hl | simp only [Seen, Drawn]; omega)
        (by simp only [Seen, true_and]; omega)
      simp only [Drawn] at hdrawn
      omega
    · have hdrawn := h.drawn x2 (d.height - 1) .right
        (by intro l hl; cases l <;> first | exact absurd rfl hl | simp only [Seen, Drawn]; omega)
        (by simp only [Seen, true_and]; omega)
      simp only [Drawn] at hdrawn
      omega

end Counted

/-- The box in the corner: the lower row stands for the left column's last pixel, and the right
column for the upper row's. -/
theorem counted_corner (h : Corner d x1 y1 x2 y2) : Counted d x1 y1 x2 y2 := by
  intro i j
  have hstop := colStop_cases d y1 y2
  rw [Corner] at h
  have htop : once (Seen d x1 y1 x2 y2 i j .top) =
      once (Drawn d x1 y1 x2 y2 i j .top) + once (Drawn d x1 y1 x2 y2 i j .right) :=
    once_or (by simp only [Seen, Drawn]; omega) (by simp only [Drawn]; omega)
  have hleft : once (Seen d x1 y1 x2 y2 i j .left) =
      once (Drawn d x1 y1 x2 y2 i j .left) + once (Drawn d x1 y1 x2 y2 i j .bottom) :=
    once_or (by simp only [Seen, Drawn]; omega) (by simp only [Drawn]; omega)
  have hbottom : once (Seen d x1 y1 x2 y2 i j .bottom) = 0 :=
    if_neg (by simp only [Seen]; omega)
  have hright : once (Seen d x1 y1 x2 y2 i j .right) = 0 :=
    if_neg (by simp only [Seen]; omega)
  omega

/-- A box that is not filled is right if and only if its sides are, or it is in the corner. -/
theorem box_iff : Right d (.box x1 y1 x2 y2 false) ↔ Fits d (.box x1 y1 x2 y2 false) := by
  have hw := d.width_pos
  have hh := d.height_pos
  have hstop : x1 + (x2 - x1) = x2 := by omega
  have hstop' : y1 + (y2 - y1) = y2 := by omega
  rw [Fits]
  constructor
  · intro h
    by_cases hcorner : Corner d x1 y1 x2 y2
    · exact .inr hcorner
    · have hcount := box_iff_counted.mp h
      have hcol := colStop_cases d y1 y2
      obtain ⟨hrows, hcols⟩ := hcount.uncut hcorner
      have htop := hcount.top_row
      have hbottom := fun hrow => hcount.bottom_row hrow hcorner
      have hleft := hcount.left_col
      have hright := fun hcol => hcount.right_col hcol hcorner
      simp only [HFits, VFits, hstop, hstop']
      refine .inl ⟨?_, ?_, ?_, ?_⟩
      · split <;> omega
      · split <;> omega
      · split
        · omega
        · split <;> omega
      · split
        · omega
        · split <;> omega
  · rintro (⟨htop, hbottom, hleft, hright⟩ | hcorner)
    · have htop' := hLine_iff.mpr htop
      have hbottom' := hLine_iff.mpr hbottom
      have hleft' := vLine_iff.mpr hleft
      have hright' := vLine_iff.mpr hright
      rw [hstop] at htop' hbottom'
      rw [hstop'] at hleft' hright'
      refine ⟨_, .box x1 y1 x2 y2, ?_⟩
      simp only [draw, drawBox, if_pos, hstop, hstop', Clips, List.filter_append]
      exact ((htop'.append hbottom').append hleft').append hright'
    · exact box_iff_counted.mpr (counted_corner hcorner)

/-- A call draws the visible pixels of its shape, each as often as the shape has it, if and only if
the condition holds: rows and columns of the display are drawn right up to its last pixel but one,
of those that are outside nothing is drawn, and no line along an axis that has pixels on the display
is given from its end. -/
theorem draw_iff (d : Size) (c : Call) : Right d c ↔ Fits d c := by
  cases c with
  | hLine x y width =>
    rw [Fits, ← hLine_iff]
    constructor
    · rintro ⟨shape, hshape, hclips⟩
      cases hshape
      exact hclips
    · exact fun hclips => ⟨_, .hLine x y width, hclips⟩
  | vLine x y height =>
    rw [Fits, ← vLine_iff]
    constructor
    · rintro ⟨shape, hshape, hclips⟩
      cases hshape
      exact hclips
    · exact fun hclips => ⟨_, .vLine x y height, hclips⟩
  | line => exact line_iff
  | box x1 y1 x2 y2 fill =>
    cases fill with
    | true => exact fill_iff
    | false => exact box_iff

/-- A line above the display is drawn in its first row. -/
theorem drawHLine_above : ¬ Right ⟨128, 64, by decide, by decide⟩ (.hLine 0 (-1) 10) := by
  rintro ⟨shape, hshape, hclips⟩
  cases hshape
  have hpixel : ((0 : ℤ), (0 : ℤ)) ∈ drawHLine ⟨128, 64, by decide, by decide⟩ 0 (-1) 10 := by decide
  exact absurd (hclips.mem_iff.mp hpixel) (by decide)

end Lines

end SqueezeliteMuse
