/-
SqueezeliteMuse/RotaryEncoder.lean

The rotary encoder of rotary_encoder.c.

The levels of two pins, and the state so far, give the next state out of a table; with a state may
come a step, clockwise or not.  There is a table for full steps, which is the one in use, and one
for half steps.  The pins may be exchanged.

Main result: `position_counts`: whatever was read before, from where both pins are high the position
follows the turns exactly, as long as no reading misses a change: it goes on by one with every full
turn of the signals, or every half one, and bouncing does not matter.
-/
import SqueezeliteMuse.Lib.Quadrature
import Mathlib.Algebra.Order.Ring.Int
import Mathlib.Tactic.Ring

namespace SqueezeliteMuse

namespace RotaryEncoder

open Quadrature

/-! ### The code -/

/-- `DIR_CW` -/
def DIR_CW : ℕ := 0x10

/-- `DIR_CCW` -/
def DIR_CCW : ℕ := 0x20

/-- `R_START` -/
def R_START : ℕ := 0x0

/-- `table_row_t` -/
abbrev Table := List (List ℕ)

/-- `_ttable_half`; the states are `R_START`, `H_CCW_BEGIN`, `H_CW_BEGIN`, `H_START_M`,
`H_CW_BEGIN_M` and `H_CCW_BEGIN_M`. -/
def ttableHalf : Table :=
  [[0x3, 0x2, 0x1, R_START],
    [0x3 ||| DIR_CCW, R_START, 0x1, R_START],
    [0x3 ||| DIR_CW, 0x2, R_START, R_START],
    [0x3, 0x5, 0x4, R_START],
    [0x3, 0x3, 0x4, R_START ||| DIR_CW],
    [0x3, 0x5, 0x3, R_START ||| DIR_CCW],
    [0, 0, 0, 0]]

/-- `_ttable_full`; the states are `R_START`, `F_CW_FINAL`, `F_CW_BEGIN`, `F_CW_NEXT`,
`F_CCW_BEGIN`, `F_CCW_FINAL` and `F_CCW_NEXT`. -/
def ttableFull : Table :=
  [[R_START, 0x2, 0x4, R_START],
    [0x3, R_START, 0x1, R_START ||| DIR_CW],
    [0x3, 0x2, R_START, R_START],
    [0x3, 0x2, 0x1, R_START],
    [0x6, R_START, 0x4, R_START],
    [0x6, 0x5, R_START, R_START ||| DIR_CCW],
    [0x6, 0x5, 0x4, R_START]]

/-- `rotary_encoder_direction_t` -/
inductive Direction
  | notSet
  | clockwise
  | counterClockwise
  deriving DecidableEq

/-- `rotary_encoder_state_t` -/
structure State where
  position : ℤ
  direction : Direction
  deriving DecidableEq

/-- `rotary_encoder_info_t`, with the one item of the queue. -/
structure Info where
  pinA : ℕ
  pinB : ℕ
  table : Table
  tableState : ℕ
  state : State
  queue : Option State

/-- `info->table[state][pin_state]` -/
def lookup (table : Table) (state : ℕ) (pins : Pins) : ℕ :=
  (table.getD state []).getD (2 * pins.2.toNat + pins.1.toNat) 0

/-- `_process`: the state, and the event. -/
def process (info : Info) (level : ℕ → Bool) : Info × ℕ :=
  let s := lookup info.table (info.tableState &&& 0xf) (level info.pinA, level info.pinB)
  ({ info with tableState := s }, s &&& 0x30)

/-- `_isr_rotenc` -/
def isrRotenc (info : Info) (level : ℕ → Bool) : Info :=
  let (info, event) := process info level
  if event = DIR_CW then
    let state : State := ⟨info.state.position + 1, .clockwise⟩
    { info with state := state, queue := some state }
  else if event = DIR_CCW then
    let state : State := ⟨info.state.position - 1, .counterClockwise⟩
    { info with state := state, queue := some state }
  else info

/-- `rotary_encoder_init` -/
def init (pinA pinB : ℕ) : Info where
  pinA := pinA
  pinB := pinB
  table := ttableFull
  tableState := R_START
  state := ⟨0, .notSet⟩
  queue := none

/-- `rotary_encoder_enable_half_steps` -/
def enableHalfSteps (info : Info) (enable : Bool) : Info :=
  { info with table := if enable then ttableHalf else ttableFull, tableState := R_START }

/-- `rotary_encoder_flip_direction` -/
def flipDirection (info : Info) : Info := { info with pinA := info.pinB, pinB := info.pinA }

/-- `rotary_encoder_reset` -/
def reset (info : Info) : Info := { info with state := ⟨0, .notSet⟩ }

/-- What happens to an encoder that was initialised. -/
inductive Op
  | isr (level : ℕ → Bool)
  | halfSteps (enable : Bool)
  | flip
  | reset
  /-- The event is taken out of the queue. -/
  | receive

def apply (info : Info) : Op → Info
  | .isr level => isrRotenc info level
  | .halfSteps enable => enableHalfSteps info enable
  | .flip => flipDirection info
  | .reset => reset info
  | .receive => { info with queue := none }

/-! ### Tables -/

/-- What a step event adds to the position. -/
def stepOf (s : ℕ) : ℤ :=
  if s &&& 0x30 = DIR_CW then 1 else if s &&& 0x30 = DIR_CCW then -1 else 0

/-- What the states of a table stand for: how far they are from the last step, of which each is so
many quarters, and the pins in them. -/
structure Gauge (table : Table) where
  scale : ℤ
  phase : ℕ → ℤ
  home : List (ℕ × Pins)
  /-- From every state both pins high lead to the start. -/
  rest : ∀ s < 7, lookup table s (true, true) &&& 0xf = R_START
  start : (R_START, (true, true)) ∈ home
  /-- With both pins high the step is complete. -/
  still : ∀ h ∈ home, h.2 = (true, true) → phase h.1 = 0
  /-- A quarter turn is a quarter turn. -/
  turn : ∀ h ∈ home, ∀ q, Adjacent h.2 q →
    (lookup table h.1 q &&& 0xf, q) ∈ home ∧
      scale * stepOf (lookup table h.1 q) + phase (lookup table h.1 q &&& 0xf) =
        phase h.1 + quarter h.2 q
  /-- The states are the rows. -/
  rows : ∀ s < 7, ∀ q, lookup table s q &&& 0xf < 7

/-- Four quarters are a step. -/
def fullGauge : Gauge ttableFull where
  scale := 4
  phase s := [0, 3, 1, 2, -1, -3, -2].getD s 0
  home := [(0, true, true), (2, true, false), (3, false, false), (1, false, true), (4, false, true),
    (6, false, false), (5, true, false)]
  rest := by decide
  start := by decide
  still := by decide
  turn := by decide
  rows := by decide

/-- Two quarters are a step. -/
def halfGauge : Gauge ttableHalf where
  scale := 2
  phase s := [0, -1, 1, 0, 1, -1].getD s 0
  home := [(0, true, true), (2, true, false), (1, false, true), (3, false, false), (4, false, true),
    (5, true, false)]
  rest := by decide
  start := by decide
  still := by decide
  turn := by decide
  rows := by decide

/-! ### Runs -/

/-- An encoder after some operations. -/
def after (info : Info) (ops : List Op) : Info := ops.foldl apply info

/-- An encoder after some readings. -/
def readings (info : Info) (levels : List (ℕ → Bool)) : Info := levels.foldl isrRotenc info

/-- The pins, as the encoder reads them. -/
def Info.pins (info : Info) (level : ℕ → Bool) : Pins := (level info.pinA, level info.pinB)

/-- The quarters of a step, of the table in use. -/
def Info.quarters (info : Info) : ℤ := if info.table = ttableHalf then 2 else 4

/-- How often the pins were exchanged. -/
def flips : List Op → ℕ
  | [] => 0
  | .flip :: ops => flips ops + 1
  | _ :: ops => flips ops

section Tracking

variable {info : Info}

theorem isr_fields (info : Info) (level : ℕ → Bool) :
    (isrRotenc info level).pinA = info.pinA ∧ (isrRotenc info level).pinB = info.pinB ∧
      (isrRotenc info level).table = info.table ∧
      (isrRotenc info level).tableState =
        lookup info.table (info.tableState &&& 0xf) (info.pins level) ∧
      (isrRotenc info level).state.position = info.state.position +
        stepOf (lookup info.table (info.tableState &&& 0xf) (info.pins level)) := by
  unfold isrRotenc process Info.pins stepOf
  simp only
  split
  · exact ⟨rfl, rfl, rfl, rfl, rfl⟩
  · split
    · exact ⟨rfl, rfl, rfl, rfl, rfl⟩
    · exact ⟨rfl, rfl, rfl, rfl, (Int.add_zero _).symm⟩

/-- From a state of its own on the position follows the turns. -/
theorem readings_tracks {table : Table} (g : Gauge table) {p : Pins} {levels : List (ℕ → Bool)}
    (htable : info.table = table) (hhome : (info.tableState &&& 0xf, p) ∈ g.home)
    (hwalk : Walk p (levels.map info.pins)) :
    ((readings info levels).tableState &&& 0xf,
        (p :: levels.map info.pins).getLast (List.cons_ne_nil _ _)) ∈ g.home ∧
      g.scale * ((readings info levels).state.position - info.state.position) +
          g.phase ((readings info levels).tableState &&& 0xf) =
        g.phase (info.tableState &&& 0xf) + winding p (levels.map info.pins) := by
  induction levels generalizing info p with
  | nil =>
    refine ⟨hhome, ?_⟩
    simp [readings, winding]
  | cons level levels ih =>
    obtain ⟨hA, hB, htable', hstate, hposition⟩ := isr_fields info level
    obtain ⟨hnext, hcount⟩ := g.turn _ hhome _ hwalk.1
    simp only at hnext hcount
    rw [htable] at hstate hposition htable'
    have hpins : (isrRotenc info level).pins = info.pins := by
      funext l
      rw [Info.pins, Info.pins, hA, hB]
    obtain ⟨hhome', hcount'⟩ := @ih (isrRotenc info level) (info.pins level) htable'
      (hstate ▸ hnext) (hpins ▸ hwalk.2)
    have hrun : readings info (level :: levels) = readings (isrRotenc info level) levels := rfl
    rw [hpins] at hhome' hcount'
    refine ⟨?_, ?_⟩
    · rw [hrun]
      simpa using hhome'
    · rw [hrun, List.map_cons, winding]
      rw [hstate, hposition] at hcount'
      rw [Int.mul_sub] at hcount' ⊢
      rw [Int.mul_add] at hcount'
      omega

end Tracking

/-! ### The main result -/

section Whole

variable {info : Info}

/-- The encoder has one of its tables, and a state of it. -/
structure Sane (info : Info) : Prop where
  table : info.table = ttableFull ∨ info.table = ttableHalf
  state : info.tableState &&& 0xf < 7

theorem Sane.apply (h : Sane info) (op : Op) : Sane (apply info op) := by
  cases op with
  | isr level =>
    obtain ⟨-, -, htable, hstate, -⟩ := isr_fields info level
    refine ⟨htable ▸ h.table, ?_⟩
    rw [RotaryEncoder.apply, hstate]
    rcases h.table with hfull | hhalf
    · rw [hfull]
      exact fullGauge.rows _ h.state _
    · rw [hhalf]
      exact halfGauge.rows _ h.state _
  | halfSteps enable =>
    cases enable
    · exact ⟨.inl rfl, by simp [RotaryEncoder.apply, enableHalfSteps, R_START]⟩
    · exact ⟨.inr rfl, by simp [RotaryEncoder.apply, enableHalfSteps, R_START]⟩
  | flip | reset | receive => exact ⟨h.table, h.state⟩

theorem sane_after (h : Sane info) (ops : List Op) : Sane (after info ops) := by
  induction ops generalizing info with
  | nil => exact h
  | cons op ops ih => exact ih (h.apply op)

/-- The pins after some operations: exchanged as often as there are flips. -/
theorem pins_after (info : Info) (ops : List Op) :
    ((after info ops).pinA, (after info ops).pinB) =
      if flips ops % 2 = 0 then (info.pinA, info.pinB) else (info.pinB, info.pinA) := by
  induction ops generalizing info with
  | nil => rfl
  | cons op ops ih =>
    have hrun : after info (op :: ops) = after (apply info op) ops := rfl
    rw [hrun, ih]
    cases op with
    | isr level =>
      obtain ⟨hA, hB, -⟩ := isr_fields info level
      rw [apply, hA, hB]
      rfl
    | flip =>
      have hflips : flips (.flip :: ops) = flips ops + 1 := rfl
      rw [hflips, apply, flipDirection]
      by_cases heven : flips ops % 2 = 0
      · rw [if_pos heven, if_neg (by omega)]
      · rw [if_neg heven, if_pos (by omega)]
    | halfSteps enable | reset | receive => rfl

theorem getLast_rest {f : (ℕ → Bool) → Pins} {x : Pins} {levels : List (ℕ → Bool)}
    (h : ∀ level ∈ levels.getLast?, f level = x) :
    (x :: levels.map f).getLast (List.cons_ne_nil _ _) = x := by
  rcases levels.eq_nil_or_concat' with rfl | ⟨ls, l, rfl⟩
  · rfl
  · simpa using h l (by simp)

/-- Whatever has been done before: when both pins have been read high, and no reading misses a
change from there until they are so again, the position goes on by the turns of the signals, the
other way if the pins are exchanged. -/
theorem position_counts (pinA pinB : ℕ) (ops : List Op) (rest : ℕ → Bool)
    (levels : List (ℕ → Bool)) (hrest : rest pinA = true ∧ rest pinB = true)
    (hwalk : Walk (true, true) (levels.map fun level => (level pinA, level pinB)))
    (hend : ∀ level ∈ levels.getLast?, level pinA = true ∧ level pinB = true) :
    (after (init pinA pinB) ops).quarters *
        ((readings (after (init pinA pinB) (ops ++ [.isr rest])) levels).state.position -
          (after (init pinA pinB) (ops ++ [.isr rest])).state.position) =
      (if flips ops % 2 = 0 then 1 else -1) *
        winding (true, true) (levels.map fun level => (level pinA, level pinB)) := by
  have hsane : Sane (after (init pinA pinB) ops) :=
    sane_after ⟨.inl rfl, by simp [init, R_START]⟩ ops
  have hpins := pins_after (init pinA pinB) ops
  have hone : after (init pinA pinB) (ops ++ [.isr rest]) =
      isrRotenc (after (init pinA pinB) ops) rest := by
    rw [after, List.foldl_append]
    rfl
  rw [hone]
  generalize after (init pinA pinB) ops = info at hsane hpins ⊢
  obtain ⟨hA, hB, htable, hstate, -⟩ := isr_fields info rest
  -- the walk, as the encoder reads it
  obtain ⟨hhigh, hread, hstill, hsign⟩ : info.pins rest = (true, true) ∧
      Walk (true, true) (levels.map (isrRotenc info rest).pins) ∧
        (∀ level ∈ levels.getLast?, (isrRotenc info rest).pins level = (true, true)) ∧
        winding (true, true) (levels.map (isrRotenc info rest).pins) =
          (if flips ops % 2 = 0 then 1 else -1) *
            winding (true, true) (levels.map fun level => (level pinA, level pinB)) := by
    split at hpins
    case isTrue heven =>
      obtain ⟨hpinA, hpinB⟩ := Prod.mk.injEq .. ▸ hpins
      have hsame : (isrRotenc info rest).pins = fun level => (level pinA, level pinB) := by
        funext l
        rw [Info.pins, hA, hB, hpinA, hpinB]
        rfl
      rw [hsame, if_pos heven, Int.one_mul]
      exact ⟨by rw [Info.pins, hpinA, hpinB]; exact Prod.ext hrest.1 hrest.2, hwalk,
        fun l hl => Prod.ext (hend l hl).1 (hend l hl).2, rfl⟩
    case isFalse hodd =>
      obtain ⟨hpinA, hpinB⟩ := Prod.mk.injEq .. ▸ hpins
      have hswap : levels.map (isrRotenc info rest).pins =
          (levels.map fun level => (level pinA, level pinB)).map Prod.swap := by
        rw [List.map_map]
        refine List.map_congr_left fun l _ => ?_
        rw [Info.pins, hA, hB, hpinA, hpinB]
        rfl
      rw [hswap, if_neg hodd, Int.neg_one_mul]
      refine ⟨by rw [Info.pins, hpinA, hpinB]; exact Prod.ext hrest.2 hrest.1,
        walk_swap hwalk, fun l hl => ?_, winding_swap hwalk⟩
      rw [Info.pins, hA, hB, hpinA, hpinB]
      exact Prod.ext (hend l hl).2 (hend l hl).1
  rw [hhigh] at hstate
  rw [← hsign]
  -- in the end both pins are high
  have hlast : ((true, true) :: levels.map (isrRotenc info rest).pins).getLast
      (List.cons_ne_nil _ _) = (true, true) := getLast_rest hstill
  have hcounts : ∀ {table : Table} (g : Gauge table), info.table = table →
      g.scale * ((readings (isrRotenc info rest) levels).state.position -
        (isrRotenc info rest).state.position) =
          winding (true, true) (levels.map (isrRotenc info rest).pins) := by
    intro table g hg
    have hstart : (isrRotenc info rest).tableState &&& 0xf = R_START := by
      rw [hstate, hg]
      exact g.rest _ hsane.state
    obtain ⟨hhome, hcount⟩ := readings_tracks g (htable.trans hg) (hstart ▸ g.start) hread
    rw [hlast] at hhome
    have hzero := g.still _ hhome rfl
    have hfirst := g.still _ g.start rfl
    simp only at hzero hfirst
    rw [hzero, hstart, hfirst, Int.add_zero, Int.zero_add] at hcount
    exact hcount
  rw [Info.quarters]
  rcases hsane.table with hfull | hhalf
  · rw [if_neg (by rw [hfull]; decide)]
    exact hcounts fullGauge hfull
  · rw [if_pos hhalf]
    exact hcounts halfGauge hhalf

/-- Both pins at a level of their own. -/
def both (a b : Bool) : ℕ → Bool := fun pin => if pin = 1 then a else b

/-- A full step with a bounce, after noise. -/
theorem position_counts_step :
    (after (init 1 2) [.isr (both false false), .isr (both true true)]).state.position + 1 =
      (readings (after (init 1 2) [.isr (both false false), .isr (both true true)])
        [both true false, both true true, both true false, both false false, both false true,
          both true true]).state.position := by
  have hcount := position_counts 1 2 [.isr (both false false)] (both true true)
    [both true false, both true true, both true false, both false false, both false true,
      both true true] (by decide) (by decide) (by decide)
  revert hcount
  decide +kernel

end Whole

end RotaryEncoder

end SqueezeliteMuse
