/-
SqueezeliteMuse/VisuLayout.lean

Where the bars of a visualizer go.

The numbers of a visu packet are taken as they are.  `visu_fit` looks for a number of bars for
which there is room, from the wanted one down, and `visu_handler` gives up if the width of a bar
is negative in the end.  Without a bar at all it is negative only where the border is wider than
the visualizer; where they are just as wide, the visualizer is on, with no bars.

The width of the display is one that fits 16 bits, as it is in `GDS_Device`, and the gap of two
bars is 1 from `sb_displayer_init` on.

Main result: `sound_iff`: the layout is what it should be if and only if the wanted number of bars
is not negative, the pitch of a screensaver's spectrum is not 0, and the visualizer is narrower
than its border, or is wider and inside the display.
-/
import Mathlib.Algebra.Order.Ring.Int
import Mathlib.Tactic.Ring
import SqueezeliteMuse.Leftovers

namespace SqueezeliteMuse

namespace VisuLayout

open Octets

/-! ### What is required -/

/-- A number that an `int` can have. -/
def IsInt (x : ℤ) : Prop := -2 ^ 31 ≤ x ∧ x < 2 ^ 31

instance (x : ℤ) : Decidable (IsInt x) := inferInstanceAs (Decidable (_ ∧ _))

/-- Along the loop of `visu_fit`, from `n + 1` bars on, nothing overflows. -/
def LoopDefined (v : Visu) (width : ℤ) : ℕ → Prop
  | 0 => IsInt (width - v.border)
  | n + 1 =>
      IsInt (width - v.border - v.barGap * (n + 1)) ∧
        (Player.barWidth v width (n + 2) ≤ 0 → LoopDefined v width n)

/-- Nor does it in the line behind it. -/
def BorderDefined (v : Visu) (width : ℤ) : Prop :=
  let bars := (v.barWidth + v.barGap) * v.n
  IsInt bars ∧ IsInt (width - v.border - bars) ∧ IsInt (width - v.border - bars + v.barGap)

/-- What the bars are laid out with in `visu_fit` does not overflow. -/
def FitDefined (p : Player) (v : Visu) (bars : ℤ) : Prop :=
  let w := p.visuWanted v bars
  let width := Player.extent w
  IsInt (width - w.border) ∧ LoopDefined w width (w.n.toNat - 1) ∧
    BorderDefined (Player.placeBars w width) width

/-- What `visu_fit` is called for, and with how many bars, where `visu_handler` gets there. -/
def request (p : Player) (data : ℕ → UInt8) : Option (Visu × ℤ) :=
  let v := Player.visuReset p.visu (data 4)
  if data 4 = 0 then none
  else if data 4 &&& VISU_ESP32 ≠ 0 then
    some (if 4 ≤ data 5 then p.visuSmall v data else p.visuFull v data)
  else
    let w := p.visuPlace v
    if data 4 = VISU_SPECTRUM then
      let pitch := u32 (be data 30 4 + be data 34 4)
      if pitch = 0 then none else some (w, ((p.screen.width / pitch : ℕ) : ℤ))
    else
      let style := int32 (be data 10 4)
      some ({ w with style := style, row := if style ≠ 0 then w.height - SB_HEIGHT else 0 }, 0)

/-- Where the visualizer starts, along its bars. -/
def start (v : Visu) : ℤ := if v.rotate then v.row else v.col

/-- Where the display ends. -/
def limit (s : Screen) (v : Visu) : ℤ := if v.rotate then s.gdsHeight else s.width

/-- The bars of a visualizer: as many as there can be, on no more than its width, and this inside
the display. -/
structure LaidOut (s : Screen) (v : Visu) : Prop where
  some_bar : 1 ≤ v.n
  no_more : v.n ≤ MAX_BARS
  total : v.n * v.barWidth + (v.n - 1) * v.barGap ≤ Player.extent v
  inside : 0 ≤ start v ∧ start v + Player.extent v ≤ limit s v

/-- A visu packet is processed, and if there is a visualizer then, its bars are laid out. -/
structure Sound (p : Player) (data : ℕ → UInt8) (len : ℕ) : Prop where
  no_fault : .fault ∉ (p.visuHandler data len).2
  fit_defined : ∀ v bars, request p data = some (v, bars) → FitDefined p v bars
  laid_out : (p.visuHandler data len).1.visu.mode ≠ 0 →
    LaidOut p.screen (p.visuHandler data len).1.visu

/-! ### When it is so -/

/-- How many bars are wanted. -/
def wanted (spectrum : Bool) (bars : ℤ) : ℤ :=
  if spectrum then if bars = 0 then MAX_BARS else min bars MAX_BARS else 2

/-- Wanted are `n` bars on a width with a border: there is no room at all (by a width that can be
computed), or there is some, inside the display; a border that is negative is no more than what is
left over. -/
def Placed (n start width border limit : ℤ) : Prop :=
  1 ≤ n ∧
    (width < border ∧ IsInt (width - border - (n - 1)) ∨
      border < width ∧ 0 ≤ start ∧ start + width ≤ limit ∧
        -border ≤ (width - border + 1) % min n ((width - border + 1) / 2))

instance (n start width border limit : ℤ) : Decidable (Placed n start width border limit) :=
  inferInstanceAs (Decidable (_ ∧ (_ ∨ _)))

/-- The full-screen visualizer is rotated, beside an artwork. -/
def Rotated (p : Player) (width : ℤ) : Prop :=
  p.screen.height < p.screen.gdsHeight ∧ (p.artwork.enable = true ∧ p.artwork.y ≠ 0) ∧
    width = p.artwork.x

instance (p : Player) (width : ℤ) : Decidable (Rotated p width) :=
  inferInstanceAs (Decidable (_ ∧ (_ ∧ _) ∧ _))

/-- The packets whose numbers are such. -/
def Layable (p : Player) (data : ℕ → UInt8) : Prop :=
  let width := int32 (be data 6 4)
  if data 4 = 0 then True
  else if data 4 &&& VISU_ESP32 ≠ 0 then
    if 4 ≤ data 5 then
      let col := int32 (be data 14 4)
      Placed (wanted (Player.spectrum (data 4)) (int32 (be data 26 4)))
        (if col < 0 then p.screen.width + col else col) width (int32 (be data 22 4)) p.screen.width
    else
      let n := wanted (Player.spectrum (data 4)) (int32 (be data 10 4))
      if Rotated p width then 1 ≤ n else Placed n 0 width 0 p.screen.width
  else data 4 = VISU_SPECTRUM → u32 (be data 30 4 + be data 34 4) ≠ 0

/-! ### The loop -/

section Loop

variable {v : Visu} {width : ℤ} {n : ℕ}

/-- A bar is wide enough to be seen if with its gap it gets two pixels. -/
theorem barWidth_pos_iff (hgap : v.barGap = 1) {k : ℤ} (hk : 1 ≤ k) :
    0 < Player.barWidth v width k ↔ 2 * k ≤ width - v.border + 1 := by
  rw [Player.barWidth, hgap, one_mul]
  constructor
  · intro h
    by_contra hlt
    have hle : (width - v.border - (k - 1)).tdiv k ≤ 0 := by
      rcases le_or_gt 0 (width - v.border - (k - 1)) with h0 | h0
      · rw [Int.tdiv_eq_zero_of_lt h0 (by omega)]
      · have hneg := Int.tdiv_nonneg (a := -(width - v.border - (k - 1))) (b := k) (by omega)
          (by omega)
        rw [Int.neg_tdiv] at hneg
        omega
    omega
  · intro h
    rw [Int.tdiv_eq_ediv_of_nonneg (by omega)]
    exact (Int.le_ediv_iff_mul_le (by omega)).mpr (by omega)

/-- With some room, there are as many bars as wanted, or as many as get two pixels each. -/
theorem fitBars_of_room (hgap : v.barGap = 1) (hroom : v.border < width) (n : ℕ) :
    ∃ k : ℕ, (k : ℤ) = min ((n : ℤ) + 1) ((width - v.border + 1) / 2) ∧ 1 ≤ k ∧
      Player.fitBars v width n = (k, Player.barWidth v width k) := by
  induction n with
  | zero =>
      refine ⟨1, by omega, le_rfl, ?_⟩
      rw [Player.fitBars, if_pos ((barWidth_pos_iff hgap le_rfl).mpr (by omega))]
      rfl
  | succ n ih =>
      rw [Player.fitBars]
      by_cases hpos : 0 < Player.barWidth v width (n + 2)
      · have htwo := (barWidth_pos_iff hgap (by omega)).mp hpos
        refine ⟨n + 2, by omega, by omega, ?_⟩
        rw [if_pos hpos]
        push_cast
        rfl
      · have htwo := mt (barWidth_pos_iff hgap (by omega)).mpr hpos
        obtain ⟨k, hk, hone, heq⟩ := ih
        refine ⟨k, by omega, hone, ?_⟩
        rw [if_neg hpos, heq]

/-- With none, the loop ends at no bar. -/
theorem fitBars_of_no_room (hgap : v.barGap = 1) (hroom : width ≤ v.border) (n : ℕ) :
    Player.fitBars v width n = (0, width - v.border) := by
  induction n with
  | zero =>
      have hone : Player.barWidth v width 1 = width - v.border := by
        rw [Player.barWidth, sub_self, mul_zero, sub_zero, Int.tdiv_one]
      rw [Player.fitBars, hone, if_neg (by omega)]
  | succ n ih =>
      have hpos : ¬ 0 < Player.barWidth v width (n + 2) :=
        mt (barWidth_pos_iff hgap (by omega)).mp (by omega)
      rw [Player.fitBars, if_neg hpos, ih]

variable (width) in
/-- The bars take the room they have but for what is left over. -/
theorem total_eq (hgap : v.barGap = 1) {k : ℤ} (hk : 1 ≤ k) (hle : 2 * k ≤ width - v.border + 1) :
    k * Player.barWidth v width k + (k - 1) * v.barGap =
      width - v.border - (width - v.border + 1) % k := by
  have hmod : (width - v.border - (k - 1)) % k = (width - v.border + 1) % k := by
    rw [show width - v.border + 1 = width - v.border - (k - 1) + k by ring, Int.add_emod_right]
  have hdiv := Int.mul_ediv_add_emod (width - v.border - (k - 1)) k
  rw [hmod] at hdiv
  rw [Player.barWidth, hgap, one_mul, mul_one, Int.tdiv_eq_ediv_of_nonneg (by omega)]
  omega

theorem loopDefined_of_isInt (hgap : v.barGap = 1) (hwidth : IsInt (width - v.border))
    (hlast : IsInt (width - v.border - n)) : LoopDefined v width n := by
  obtain ⟨hge, hlt⟩ := hwidth
  induction n with
  | zero => exact ⟨hge, hlt⟩
  | succ n ih =>
      obtain ⟨hlge, -⟩ := hlast
      push_cast at hlge
      rw [LoopDefined, hgap, one_mul]
      exact ⟨⟨by omega, by omega⟩, fun _ => ih ⟨by omega, by omega⟩⟩

/-- The first round has the smallest number. -/
theorem LoopDefined.isInt (h : LoopDefined v width n) (hgap : v.barGap = 1) :
    IsInt (width - v.border - n) := by
  rcases n with - | n
  · rw [Nat.cast_zero, sub_zero]
    exact h
  · have hfirst := h.1
    rw [hgap, one_mul] at hfirst
    push_cast
    exact hfirst

end Loop

/-! ### `visu_fit` -/

section Fit

variable {p : Player} {v : Visu} {bars : ℤ} {calls : List Call}

variable (p v bars) in
theorem wanted_geometry :
    (p.visuWanted v bars).height = v.height ∧ (p.visuWanted v bars).col = v.col ∧
      (p.visuWanted v bars).row = v.row ∧ (p.visuWanted v bars).mode = v.mode := by
  rw [Player.visuWanted, Player.visuPrepare]
  split <;> exact ⟨rfl, rfl, rfl, rfl⟩

variable (p v bars) in
theorem extent_wanted : Player.extent (p.visuWanted v bars) = Player.extent v := by
  obtain ⟨-, -, hrotate, hwidth⟩ := Slimproto.visuWanted_place p v bars
  rw [Player.extent, Player.extent, hrotate, hwidth, (wanted_geometry p v bars).1]

variable (p v bars) in
theorem visuWanted_n : (p.visuWanted v bars).n = wanted (Player.spectrum v.mode) bars := by
  rw [Player.visuWanted, Player.visuPrepare, wanted]
  have hmax : MAX_BARS = 32 := rfl
  split
  · dsimp only
    split <;> split <;> omega
  · rfl

theorem wanted_le (spectrum : Bool) (bars : ℤ) : wanted spectrum bars ≤ MAX_BARS := by
  have hmax : MAX_BARS = 32 := rfl
  unfold wanted
  split
  · split <;> omega
  · omega

theorem wanted_ne_zero (spectrum : Bool) (bars : ℤ) : wanted spectrum bars ≠ 0 := by
  have hmax : MAX_BARS = 32 := rfl
  unfold wanted
  split
  · split <;> omega
  · omega

end Fit

section Bars

variable {s : Screen} {w : Visu}

/-- Where one bar at least is wanted, the loop decides. -/
theorem placeBars_of_pos (hn : 1 ≤ w.n) (width : ℤ) :
    (Player.placeBars w width).n = (Player.fitBars w width (w.n.toNat - 1)).1 ∧
      (Player.placeBars w width).barWidth = (Player.fitBars w width (w.n.toNat - 1)).2 := by
  unfold Player.placeBars
  rw [if_neg (by omega)]
  exact ⟨rfl, rfl⟩

/-- The visualizer where there is some room. -/
theorem placed_of_room (hgap : w.barGap = 1) (hn : 1 ≤ w.n) (hroom : w.border < Player.extent w) :
    ∃ k : ℤ, k = min w.n ((Player.extent w - w.border + 1) / 2) ∧ 1 ≤ k ∧
      (Player.visuPlaced w).n = k ∧
      (Player.visuPlaced w).barWidth = Player.barWidth w (Player.extent w) k ∧
      (Player.visuPlaced w).mode = w.mode := by
  obtain ⟨k, hk, hone, hfit⟩ := fitBars_of_room hgap hroom (w.n.toNat - 1)
  obtain ⟨hpn, hpwidth⟩ := placeBars_of_pos hn (Player.extent w)
  rw [hfit] at hpn hpwidth
  have hpos : 0 < Player.barWidth w (Player.extent w) k :=
    (barWidth_pos_iff hgap (by omega)).mpr (by omega)
  refine ⟨k, by omega, by omega, hpn, hpwidth, ?_⟩
  unfold Player.visuPlaced
  dsimp only at hpwidth ⊢
  rw [hpwidth, if_neg (by omega)]
  rfl

/-- The visualizer where there is none. -/
theorem placed_of_no_room (hgap : w.barGap = 1) (hn : 1 ≤ w.n)
    (hroom : Player.extent w ≤ w.border) :
    (Player.visuPlaced w).n = 0 ∧
      (Player.visuPlaced w).barWidth = Player.extent w - w.border ∧
      (Player.visuPlaced w).mode = if Player.extent w < w.border then 0 else w.mode := by
  obtain ⟨hpn, hpwidth⟩ := placeBars_of_pos hn (Player.extent w)
  rw [fitBars_of_no_room hgap hroom] at hpn hpwidth
  refine ⟨hpn, hpwidth, ?_⟩
  unfold Player.visuPlaced
  dsimp only at hpwidth ⊢
  rw [hpwidth]
  exact if_congr (by omega) rfl rfl

/-- The bars are laid out inside the display, with what is left over for a border that is
negative. -/
theorem laidOut_iff (hgap : w.barGap = 1) (hn : 1 ≤ w.n) (hle : w.n ≤ MAX_BARS)
    (hroom : w.border < Player.extent w) :
    LaidOut s (Player.visuPlaced w) ↔
      0 ≤ start w ∧ start w + Player.extent w ≤ limit s w ∧
        -w.border ≤ (Player.extent w - w.border + 1) %
          min w.n ((Player.extent w - w.border + 1) / 2) := by
  obtain ⟨k, hk, hone, hpn, hpwidth, -⟩ := placed_of_room hgap hn hroom
  have htotal := total_eq (Player.extent w) hgap hone (by omega)
  rw [← hk]
  constructor
  · rintro ⟨-, -, hsum, hstart, hend⟩
    rw [hpn, hpwidth] at hsum
    have hsum' := htotal ▸ hsum
    have hsame : Player.extent (Player.visuPlaced w) = Player.extent w := rfl
    exact ⟨hstart, hend, by omega⟩
  · rintro ⟨hstart, hend, hleft⟩
    refine ⟨by omega, by omega, ?_, hstart, hend⟩
    rw [hpn, hpwidth]
    show k * Player.barWidth w (Player.extent w) k + (k - 1) * w.barGap ≤ Player.extent w
    omega

/-- The numbers of bars that are laid out are small. -/
theorem defined_of_laidOut (hgap : w.barGap = 1) (hn : 1 ≤ w.n) (hle : w.n ≤ MAX_BARS)
    (hroom : w.border < Player.extent w) (hlimit : limit s w < 2 ^ 16)
    (h : LaidOut s (Player.visuPlaced w)) :
    IsInt (Player.extent w - w.border) ∧ LoopDefined w (Player.extent w) (w.n.toNat - 1) ∧
      BorderDefined (Player.placeBars w (Player.extent w)) (Player.extent w) := by
  have hmax : MAX_BARS = 32 := rfl
  obtain ⟨hstart, hend, hleft⟩ := (laidOut_iff hgap hn hle hroom).mp h
  obtain ⟨k, hk, hone, hpn, hpwidth, -⟩ := placed_of_room hgap hn hroom
  rw [← hk] at hleft
  have hless : (Player.extent w - w.border + 1) % k < k := Int.emod_lt_of_pos _ (by omega)
  have htotal := total_eq (Player.extent w) hgap hone (by omega)
  rw [hgap, mul_one] at htotal
  have hbars : (Player.barWidth w (Player.extent w) k + 1) * k =
      Player.extent w - w.border - (Player.extent w - w.border + 1) % k + 1 := by
    rw [add_mul, one_mul, mul_comm]
    omega
  have hpos : 0 ≤ (Player.extent w - w.border + 1) % k := Int.emod_nonneg _ (by omega)
  have hwidth : IsInt (Player.extent w - w.border) := ⟨by omega, by omega⟩
  refine ⟨hwidth, loopDefined_of_isInt hgap hwidth ⟨by omega, by omega⟩, ?_⟩
  have hplaced : BorderDefined (Player.visuPlaced w) (Player.extent w) := by
    unfold BorderDefined
    rw [hpn, hpwidth, show (Player.visuPlaced w).barGap = 1 from hgap,
      show (Player.visuPlaced w).border = w.border from rfl]
    dsimp only
    rw [hbars]
    exact ⟨⟨by omega, by omega⟩, ⟨by omega, by omega⟩, ⟨by omega, by omega⟩⟩
  exact hplaced

/-- Without room, the numbers are those of the loop. -/
theorem defined_of_no_room (hgap : w.barGap = 1) (hn : 1 ≤ w.n)
    (hroom : Player.extent w < w.border) :
    (IsInt (Player.extent w - w.border) ∧ LoopDefined w (Player.extent w) (w.n.toNat - 1) ∧
      BorderDefined (Player.placeBars w (Player.extent w)) (Player.extent w)) ↔
      IsInt (Player.extent w - w.border - (w.n - 1)) := by
  have hcount : ((w.n.toNat - 1 : ℕ) : ℤ) = w.n - 1 := by omega
  constructor
  · rintro ⟨-, hloop, -⟩
    have hfirst := hloop.isInt hgap
    rwa [hcount] at hfirst
  · rintro ⟨hge, -⟩
    have hwidth : IsInt (Player.extent w - w.border) := ⟨by omega, by omega⟩
    refine ⟨hwidth, loopDefined_of_isInt hgap hwidth (by rw [hcount]; exact ⟨hge, by omega⟩), ?_⟩
    obtain ⟨hpn, hpwidth, -⟩ := placed_of_no_room hgap hn hroom.le
    have hplaced : BorderDefined (Player.visuPlaced w) (Player.extent w) := by
      unfold BorderDefined
      rw [hpn, hpwidth, show (Player.visuPlaced w).barGap = 1 from hgap,
        show (Player.visuPlaced w).border = w.border from rfl]
      dsimp only
      rw [mul_zero, sub_zero]
      exact ⟨⟨by omega, by omega⟩, hwidth, ⟨by omega, by omega⟩⟩
    exact hplaced

end Bars

section Finish

variable {p : Player} {v : Visu} {bars : ℤ} {calls : List Call}

/-- What is required of one call of `visu_fit`, and of what follows in `visu_handler`. -/
structure FitSound (p : Player) (v : Visu) (bars : ℤ) (calls : List Call) : Prop where
  no_fault : .fault ∉ (p.visuFinish v bars calls).2
  fit_defined : FitDefined p v bars
  laid_out : (p.visuFinish v bars calls).1.visu.mode ≠ 0 →
    LaidOut p.screen (p.visuFinish v bars calls).1.visu

/-- Fewer than no bars: nothing is defined, or the visualizer is on with -1 bars. -/
theorem not_fitSound_of_neg (hmode : v.mode ≠ 0)
    (hn : wanted (Player.spectrum v.mode) bars < 1) : ¬ FitSound p v bars calls := by
  have hneg : (p.visuWanted v bars).n < 0 := by
    have hne := wanted_ne_zero (Player.spectrum v.mode) bars
    rw [visuWanted_n]
    omega
  intro h
  rcases hruns : Player.runsAway (p.visuWanted v bars) (Player.extent (p.visuWanted v bars))
  · have hvisu : (p.visuFinish v bars calls).1.visu = Player.visuPlaced (p.visuWanted v bars) := by
      rw [Slimproto.visuFinish_visu, hruns, if_neg Bool.false_ne_true]
    rw [Player.runsAway, decide_eq_true hneg, Bool.true_and, Bool.not_eq_false',
      Bool.and_eq_true, decide_eq_true_eq, decide_eq_true_eq] at hruns
    obtain ⟨hone, hpos⟩ := hruns
    have hplaced : (Player.visuPlaced (p.visuWanted v bars)).n = -1 ∧
        (Player.visuPlaced (p.visuWanted v bars)).mode = v.mode := by
      unfold Player.visuPlaced Player.placeBars
      simp only [hone, if_pos (show (-1 : ℤ) < 0 by decide), if_neg (not_lt_of_gt hpos),
        (wanted_geometry p v bars).2.2.2, and_self]
    have hlaid := (h.laid_out (by rw [hvisu, hplaced.2]; exact hmode)).some_bar
    rw [hvisu, hplaced.1] at hlaid
    omega
  · refine h.no_fault ?_
    rw [Player.visuFinish, if_pos hruns]
    exact List.mem_append_right _ (List.mem_singleton_self _)

/-- Where one bar at least is wanted, the visualizer gets its bars, or is off for want of room. -/
theorem visuFinish_of_pos (hn : 1 ≤ wanted (Player.spectrum v.mode) bars)
    (hcalls : .fault ∉ calls) :
    (p.visuFinish v bars calls).1.visu = Player.visuPlaced (p.visuWanted v bars) ∧
      .fault ∉ (p.visuFinish v bars calls).2 := by
  have hruns : Player.runsAway (p.visuWanted v bars) (Player.extent (p.visuWanted v bars)) =
      false := by
    rw [Player.runsAway, visuWanted_n, decide_eq_false (by omega), Bool.false_and]
  refine ⟨by rw [Slimproto.visuFinish_visu, hruns, if_neg Bool.false_ne_true], ?_⟩
  rw [Player.visuFinish, hruns, if_neg Bool.false_ne_true]
  intro hmem
  simp only [List.mem_append, List.mem_singleton, reduceCtorEq, or_false] at hmem
  rcases hmem with hmem | hmem
  · exact hcalls hmem
  · split at hmem
    · exact List.not_mem_nil hmem
    · exact Call.noConfusion (List.mem_singleton.mp hmem)

/-- A call of `visu_fit`, and what follows, are sound if and only if the bars are placed. -/
theorem fitSound_iff (hgap : v.barGap = 1) (hmode : v.mode ≠ 0) (hcalls : .fault ∉ calls)
    (hlimit : limit p.screen v < 2 ^ 16) :
    FitSound p v bars calls ↔
      Placed (wanted (Player.spectrum v.mode) bars) (start v) (Player.extent v) v.border
        (limit p.screen v) := by
  by_cases hn : 1 ≤ wanted (Player.spectrum v.mode) bars
  · obtain ⟨hvisu, hfault⟩ := visuFinish_of_pos (p := p) hn hcalls
    obtain ⟨hborder, hwgap, hrotate, -⟩ := Slimproto.visuWanted_place p v bars
    obtain ⟨-, hcol, hrow, hwmode⟩ := wanted_geometry p v bars
    have hextent := extent_wanted p v bars
    have hstart : start (p.visuWanted v bars) = start v := by
      rw [start, start, hrotate, hcol, hrow]
    have hlim : limit p.screen (p.visuWanted v bars) = limit p.screen v := by
      rw [limit, limit, hrotate]
    have hle := wanted_le (Player.spectrum v.mode) bars
    have hsound : FitSound p v bars calls ↔
        FitDefined p v bars ∧ ((Player.visuPlaced (p.visuWanted v bars)).mode ≠ 0 →
          LaidOut p.screen (Player.visuPlaced (p.visuWanted v bars))) := by
      rw [← hvisu]
      exact ⟨fun h => ⟨h.fit_defined, h.laid_out⟩, fun h => ⟨hfault, h.1, h.2⟩⟩
    rw [hsound, Placed, ← hborder, ← hextent, ← hstart, ← hlim]
    rw [← visuWanted_n p v bars] at hn hle ⊢
    rw [← hwgap] at hgap
    rw [← hwmode] at hmode
    rw [← hlim] at hlimit
    rcases lt_trichotomy (p.visuWanted v bars).border (Player.extent (p.visuWanted v bars)) with
      hroom | hroom | hroom
    · obtain ⟨-, -, -, -, -, hon⟩ := placed_of_room hgap hn hroom
      rw [hon]
      have hiff := laidOut_iff (s := p.screen) hgap hn hle hroom
      constructor
      · exact fun h => ⟨hn, .inr ⟨hroom, hiff.mp (h.2 hmode)⟩⟩
      · rintro ⟨-, ⟨hno, -⟩ | ⟨-, h⟩⟩
        · omega
        · have hlaid := hiff.mpr h
          exact ⟨defined_of_laidOut hgap hn hle hroom hlimit hlaid, fun _ => hlaid⟩
    · obtain ⟨hzero, -, hon⟩ := placed_of_no_room hgap hn hroom.ge
      rw [hon, if_neg (by omega)]
      constructor
      · intro h
        have hbar := (h.2 hmode).some_bar
        omega
      · rintro ⟨-, ⟨hno, -⟩ | ⟨hsome, -⟩⟩
        · omega
        · omega
    · obtain ⟨-, -, hon⟩ := placed_of_no_room hgap hn hroom.le
      rw [hon, if_pos hroom]
      have hdef := defined_of_no_room hgap hn hroom
      constructor
      · exact fun h => ⟨hn, .inl ⟨hroom, hdef.mp h.1⟩⟩
      · rintro ⟨-, ⟨-, h⟩ | ⟨hsome, -⟩⟩
        · exact ⟨hdef.mpr h, fun hoff => absurd rfl hoff⟩
        · omega
  · exact iff_of_false (not_fitSound_of_neg hmode (by omega)) fun h => hn h.1

end Finish

/-! ### `visu_handler` -/

section Handler

variable {p : Player} {data : ℕ → UInt8} {len : ℕ}

variable (p) in
theorem fault_not_mem_clean : .fault ∉ p.visuClean := by
  unfold Player.visuClean
  intro hmem
  split at hmem
  · exact Call.noConfusion (List.mem_singleton.mp hmem)
  · exact List.not_mem_nil hmem

/-- Where `visu_fit` is called, that is all there is to it. -/
theorem sound_of_request {v : Visu} {bars : ℤ} (hreq : request p data = some (v, bars))
    (h : p.visuHandler data len = p.visuFinish v bars p.visuClean) :
    Sound p data len ↔ FitSound p v bars p.visuClean := by
  constructor
  · rintro ⟨hfault, hdef, hlaid⟩
    rw [h] at hfault hlaid
    exact ⟨hfault, hdef v bars hreq, hlaid⟩
  · rintro ⟨hfault, hdef, hlaid⟩
    refine ⟨by rwa [h], fun v' bars' hsome => ?_, by rwa [h]⟩
    rw [hreq] at hsome
    obtain ⟨rfl, rfl⟩ := Prod.mk.inj (Option.some.inj hsome)
    exact hdef

theorem sound_stop (h4 : data 4 = 0) : Sound p data len := by
  have hhandler : p.visuHandler data len = ({ p with visu.mode := data 4 }, p.visuClean) := by
    rw [Player.visuHandler, if_pos h4]
  refine ⟨?_, fun v bars hsome => ?_, fun hon => ?_⟩
  · rw [hhandler]
    exact fault_not_mem_clean p
  · rw [request] at hsome
    dsimp only at hsome
    rw [if_pos h4] at hsome
    exact absurd hsome.symm (Option.some_ne_none _)
  · rw [hhandler] at hon
    exact absurd h4 hon

theorem sound_small (hgap : p.visu.barGap = 1) (hscreen : p.screen.width < 2 ^ 16)
    (hesp : data 4 &&& VISU_ESP32 ≠ 0) (h5 : 4 ≤ data 5) :
    Sound p data len ↔
      Placed (wanted (Player.spectrum (data 4)) (int32 (be data 26 4)))
        (if int32 (be data 14 4) < 0 then p.screen.width + int32 (be data 14 4)
          else int32 (be data 14 4))
        (int32 (be data 6 4)) (int32 (be data 22 4)) p.screen.width := by
  have h4 : data 4 ≠ 0 := by
    intro hz
    rw [hz] at hesp
    exact hesp (by decide)
  have hreq : request p data = some (p.visuSmall (Player.visuReset p.visu (data 4)) data) := by
    rw [request]
    dsimp only
    rw [if_neg h4, if_pos hesp, if_pos h5]
  have hhandler : p.visuHandler data len = p.visuFinish
      (p.visuSmall (Player.visuReset p.visu (data 4)) data).1
      (p.visuSmall (Player.visuReset p.visu (data 4)) data).2 p.visuClean := by
    rw [Slimproto.visuHandler_esp32 hesp, Player.visuEsp32, if_pos h5]
  have hlimit : limit p.screen (p.visuSmall (Player.visuReset p.visu (data 4)) data).1 =
    p.screen.width := rfl
  have hfit := @fitSound_iff p (p.visuSmall (Player.visuReset p.visu (data 4)) data).1
    (p.visuSmall (Player.visuReset p.visu (data 4)) data).2 p.visuClean
    hgap h4 (fault_not_mem_clean p) (by rw [hlimit]; omega)
  exact (sound_of_request hreq hhandler).trans hfit

/-- A full-screen visualizer is on the whole width, or beside the artwork on the lines below. -/
theorem layout_cases (v : Visu) (width : ℤ) (hrotate : v.rotate = false) (hcol : v.col = 0) :
    (p.visuLayout v width).border = v.border ∧ (p.visuLayout v width).barGap = v.barGap ∧
      (p.visuLayout v width).mode = v.mode ∧
      if Rotated p width then
        start (p.visuLayout v width) = p.screen.height ∧
          Player.extent (p.visuLayout v width) = p.screen.gdsHeight - p.screen.height ∧
          limit p.screen (p.visuLayout v width) = p.screen.gdsHeight
      else
        start (p.visuLayout v width) = 0 ∧ Player.extent (p.visuLayout v width) = width ∧
          limit p.screen (p.visuLayout v width) = p.screen.width := by
  unfold Player.visuLayout Rotated start Player.extent limit
  dsimp only
  by_cases hheight : p.screen.height < p.screen.gdsHeight
  · by_cases hart : p.artwork.enable = true ∧ p.artwork.y ≠ 0
    · by_cases hwidth : width = p.artwork.x
      · simp [hheight, hart, hwidth]
      · simp [hheight, hart, hwidth, hrotate, hcol]
    · simp [hheight, hart, hrotate, hcol]
  · simp [hheight, hrotate, hcol]

/-- The rest of the packet does not matter to its place. -/
theorem full_cases {v w : Visu} {bars : ℤ} (h : p.visuFull v data = (w, bars)) :
    w.border = (p.visuLayout v (int32 (be data 6 4))).border ∧
      w.barGap = (p.visuLayout v (int32 (be data 6 4))).barGap ∧
      w.mode = (p.visuLayout v (int32 (be data 6 4))).mode ∧
      start w = start (p.visuLayout v (int32 (be data 6 4))) ∧
      Player.extent w = Player.extent (p.visuLayout v (int32 (be data 6 4))) ∧
      limit p.screen w = limit p.screen (p.visuLayout v (int32 (be data 6 4))) ∧
      wanted (Player.spectrum v.mode) bars =
        wanted (Player.spectrum v.mode) (int32 (be data 10 4)) := by
  unfold Player.visuFull at h
  dsimp only at h
  rcases hspec : Player.spectrum v.mode
  · rw [hspec, if_neg Bool.false_ne_true] at h
    obtain ⟨rfl, rfl⟩ := Prod.mk.inj h
    exact ⟨rfl, rfl, rfl, rfl, rfl, rfl, rfl⟩
  · rw [hspec, if_pos rfl] at h
    obtain ⟨rfl, rfl⟩ := Prod.mk.inj h
    exact ⟨rfl, rfl, rfl, rfl, rfl, rfl, rfl⟩

theorem sound_full (hgap : p.visu.barGap = 1) (hscreen : p.screen.width < 2 ^ 16)
    (hgds : p.screen.gdsHeight < 2 ^ 16) (hesp : data 4 &&& VISU_ESP32 ≠ 0) (h5 : ¬ 4 ≤ data 5) :
    Sound p data len ↔
      if Rotated p (int32 (be data 6 4)) then
        1 ≤ wanted (Player.spectrum (data 4)) (int32 (be data 10 4))
      else Placed (wanted (Player.spectrum (data 4)) (int32 (be data 10 4))) 0
        (int32 (be data 6 4)) 0 p.screen.width := by
  have h4 : data 4 ≠ 0 := by
    intro hz
    rw [hz] at hesp
    exact hesp (by decide)
  obtain ⟨w, bars, hfull⟩ :
    ∃ w bars, p.visuFull (Player.visuReset p.visu (data 4)) data = (w, bars) := ⟨_, _, rfl⟩
  have hreq : request p data = some (w, bars) := by
    rw [request]
    dsimp only
    rw [if_neg h4, if_pos hesp, if_neg h5, hfull]
  have hhandler : p.visuHandler data len = p.visuFinish w bars p.visuClean := by
    rw [Slimproto.visuHandler_esp32 hesp, Player.visuEsp32, if_neg h5, hfull]
  obtain ⟨hborder, hwgap, hmode, hstart, hextent, hlimit, hwanted⟩ := full_cases hfull
  obtain ⟨hlborder, hlgap, hlmode, hplace⟩ :=
    layout_cases (p := p) (Player.visuReset p.visu (data 4)) (int32 (be data 6 4)) rfl rfl
  have hzero : w.border = 0 := hborder.trans hlborder
  have hmode4 : w.mode = data 4 := hmode.trans hlmode
  have hlt : limit p.screen w < 2 ^ 16 := by
    rw [hlimit]
    split at hplace
    · rw [hplace.2.2]
      omega
    · rw [hplace.2.2]
      omega
  have hfit := @fitSound_iff p w bars p.visuClean ((hwgap.trans hlgap).trans hgap)
    (by rw [hmode4]; exact h4) (fault_not_mem_clean p) hlt
  have hwanted4 : wanted (Player.spectrum (data 4)) bars =
    wanted (Player.spectrum (data 4)) (int32 (be data 10 4)) := hwanted
  rw [hmode4, hwanted4, hzero, hstart, hextent, hlimit] at hfit
  rw [sound_of_request hreq hhandler, hfit]
  split at hplace
  case isTrue hrot =>
    rw [hplace.1, hplace.2.1, hplace.2.2, if_pos hrot]
    have hheight := hrot.1
    constructor
    · exact fun h => h.1
    · intro hn
      refine ⟨hn, .inr ⟨by omega, by omega, by omega, ?_⟩⟩
      rw [neg_zero]
      exact Int.emod_nonneg _ (by omega)
  case isFalse hrot =>
    rw [hplace.1, hplace.2.1, hplace.2.2, if_neg hrot]

/-- A screensaver's visualizer has the whole display. -/
theorem sound_classical (hgap : p.visu.barGap = 1) (hscreen : p.screen.width < 2 ^ 16)
    (h4 : data 4 ≠ 0) (hesp : ¬ data 4 &&& VISU_ESP32 ≠ 0) :
    Sound p data len ↔ (data 4 = VISU_SPECTRUM → u32 (be data 30 4 + be data 34 4) ≠ 0) := by
  have hwidth := p.screen.width_pos
  have hclassical : p.visuHandler data len =
      p.visuClassical (Player.visuReset p.visu (data 4)) data p.visuClean :=
    Slimproto.visuHandler_classical h4 hesp
  have hplaced : ∀ n : ℤ, 1 ≤ n → Placed n 0 p.screen.width 0 p.screen.width := by
    intro n hn
    refine ⟨hn, .inr ⟨by omega, by omega, by omega, ?_⟩⟩
    rw [neg_zero]
    exact Int.emod_nonneg _ (by omega)
  have hfit : ∀ (v : Visu) (bars : ℤ), v.barGap = 1 → v.mode = data 4 → v.rotate = false →
      v.col = 0 → v.border = 0 → v.width = p.screen.width → 0 ≤ bars →
      FitSound p v bars p.visuClean := by
    intro v bars hvgap hmode hrotate hcol hborder hvwidth hbars
    have hstart : start v = 0 := by rw [start, hrotate, if_neg Bool.false_ne_true, hcol]
    have hextent : Player.extent v = p.screen.width := by
      rw [Player.extent, hrotate, if_neg Bool.false_ne_true, hvwidth]
    have hlimit : limit p.screen v = p.screen.width := by
      rw [limit, hrotate, if_neg Bool.false_ne_true]
    have hiff := @fitSound_iff p v bars p.visuClean hvgap (by rw [hmode]; exact h4)
      (fault_not_mem_clean p) (by rw [hlimit]; omega)
    rw [hiff, hstart, hextent, hborder, hlimit]
    refine hplaced _ ?_
    have hmax : MAX_BARS = 32 := rfl
    unfold wanted
    split
    · split <;> omega
    · omega
  by_cases hspec : data 4 = VISU_SPECTRUM
  · by_cases hpitch : u32 (be data 30 4 + be data 34 4) = 0
    · refine iff_of_false (fun h => h.no_fault ?_) (fun h => h hspec hpitch)
      rw [hclassical, Player.visuClassical]
      dsimp only
      rw [if_pos (show (Player.visuReset p.visu (data 4)).mode = VISU_SPECTRUM from hspec),
        if_pos hpitch]
      exact List.mem_append_right _ (List.mem_singleton_self _)
    · refine iff_of_true ?_ fun _ => hpitch
      rw [Player.visuClassical] at hclassical
      dsimp only at hclassical
      rw [if_pos (show (Player.visuReset p.visu (data 4)).mode = VISU_SPECTRUM from hspec),
        if_neg hpitch] at hclassical
      refine (sound_of_request ?_ hclassical).mpr
        (hfit _ _ hgap rfl rfl rfl rfl rfl (Int.natCast_nonneg _))
      rw [request]
      dsimp only
      rw [if_neg h4, if_neg hesp, if_pos hspec, if_neg hpitch]
  · refine iff_of_true ?_ fun h => absurd h hspec
    rw [Player.visuClassical] at hclassical
    dsimp only at hclassical
    rw [if_neg (show (Player.visuReset p.visu (data 4)).mode ≠ VISU_SPECTRUM from hspec)]
      at hclassical
    refine (sound_of_request ?_ hclassical).mpr (hfit _ _ hgap rfl rfl rfl rfl rfl le_rfl)
    rw [request]
    dsimp only
    rw [if_neg h4, if_neg hesp, if_neg hspec]

end Handler

/-- The gap of the bars is what it was. -/
theorem visuHandler_barGap (p : Player) (data : ℕ → UInt8) (len : ℕ) :
    (p.visuHandler data len).1.visu.barGap = p.visu.barGap := by
  have hfinish : ∀ (v : Visu) (bars : ℤ), v.barGap = p.visu.barGap →
      (p.visuFinish v bars p.visuClean).1.visu.barGap = p.visu.barGap := by
    intro v bars hgap
    have hwanted := (Slimproto.visuWanted_place p v bars).2.1.trans hgap
    rw [Slimproto.visuFinish_visu]
    split
    · exact hwanted
    · exact hwanted
  by_cases h4 : data 4 = 0
  · rw [Player.visuHandler, if_pos h4]
  · by_cases hesp : data 4 &&& VISU_ESP32 ≠ 0
    · rw [Slimproto.visuHandler_esp32 hesp, Player.visuEsp32]
      split
      · exact hfinish _ _ rfl
      · obtain ⟨w, bars, hfull⟩ :
          ∃ w bars, p.visuFull (Player.visuReset p.visu (data 4)) data = (w, bars) := ⟨_, _, rfl⟩
        rw [hfull]
        exact hfinish w bars ((full_cases hfull).2.1.trans
          (layout_cases (p := p) (Player.visuReset p.visu (data 4)) _ rfl rfl).2.1)
    · rw [Slimproto.visuHandler_classical h4 hesp, Player.visuClassical]
      dsimp only
      split
      · split
        · rfl
        · exact hfinish _ _ rfl
      · exact hfinish _ _ rfl

/-- The bars of a visualizer are laid out if and only if the numbers of the packet are such. -/
theorem sound_iff (p : Player) (data : ℕ → UInt8) (len : ℕ) (hgap : p.visu.barGap = 1)
    (hscreen : p.screen.width < 2 ^ 16) (hgds : p.screen.gdsHeight < 2 ^ 16) :
    Sound p data len ↔ Layable p data := by
  unfold Layable
  dsimp only
  by_cases h4 : data 4 = 0
  · rw [if_pos h4]
    exact iff_of_true (sound_stop h4) trivial
  · rw [if_neg h4]
    by_cases hesp : data 4 &&& VISU_ESP32 ≠ 0
    · rw [if_pos hesp]
      by_cases h5 : 4 ≤ data 5
      · rw [if_pos h5]
        exact sound_small hgap hscreen hesp h5
      · rw [if_neg h5, sound_full hgap hscreen hgds hesp h5]
    · rw [if_neg hesp]
      exact sound_classical hgap hscreen h4 hesp

/-- A packet with its numbers one after the other, from byte 6 on. -/
def packet (which count : UInt8) (numbers : List ℕ) (i : ℕ) : UInt8 :=
  if i = 4 then which
  else if i = 5 then count
  else if 6 ≤ i then
    UInt8.ofNat ((numbers.getD ((i - 6) / 4) 0) / 256 ^ (3 - (i - 6) % 4) % 256)
  else 0

/-- 16 bars on the right half of a display of 128. -/
theorem sixteen_bars :
    Sound Slimproto.restingPlayer (packet 0x12 4 [64, 32, 64, 0, 0, 16, 25]) 34 :=
  (sound_iff _ _ _ rfl (by decide) (by decide)).mpr (show Placed 16 64 64 0 128 by decide)

/-- A screensaver's spectrum whose bars have no width and no space. -/
theorem no_pitch :
    ¬ ∀ (p : Player) (data : ℕ → UInt8) (len : ℕ), p.visu.barGap = 1 →
      p.screen.width < 2 ^ 16 → p.screen.gdsHeight < 2 ^ 16 → Sound p data len := by
  intro h
  refine (h Slimproto.restingPlayer (packet 0x02 0 []) 82 rfl (by decide) (by decide)).no_fault ?_
  have hcalls : (Slimproto.restingPlayer.visuHandler (packet 0x02 0 []) 82).2 =
    Slimproto.restingPlayer.visuClean ++ [.fault] := rfl
  rw [hcalls]
  exact List.mem_append_right _ (List.mem_singleton_self _)

end VisuLayout

end SqueezeliteMuse
