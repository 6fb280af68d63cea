/-
SqueezeliteMuse/Durations.lean

Durations that become frames.

The server says how long to pause or how much to skip in milliseconds (strm 'p'
and 'a'), and at which clock value to start (strm 'u'); AirPlay corrects by the
milliseconds it is off.  Each of them is multiplied by the sample rate, in 32
bits, before it is divided by 1000; and start at compares clock values as plain
numbers.

Main result: `converted_iff`: what comes out is the number of frames, and start at
waits when it should, if and only if the product fits and the clock does not
wrap in the ten seconds that start at looks ahead.
-/
import SqueezeliteMuse.Leftovers
import SqueezeliteMuse.RaopSync

namespace SqueezeliteMuse

open Saturate

/-- A duration that comes in: an interval of strm 'p' or 'a', the clock value of start at with that
of the moment, the error that AirPlay corrects. -/
inductive Duration
  | pause (p : Player) (interval : UInt32)
  | skip (p : Player) (interval : UInt32)
  | startAt (s : Output) (start now : UInt32)
  | airplay (error : BitVec 32)

/-- The frames of so many milliseconds, as far as a `u32_t` goes. -/
def framesOf (ms rate : ℕ) : ℕ := min (ms * rate / 1000) (2 ^ 32 - 1)

/-- `OUTPUT_START_AT` -/
def Output.startingAt (s : Output) (start : UInt32) : Output :=
  { s with state := .startAt, pauseFrames := start.toNat }

/-- There are more than 0 and at most 10000 ms to go, on a clock that wraps. -/
def ToGo (start now : UInt32) : Prop := 0 < (start - now).toNat ∧ (start - now).toNat ≤ 10000

/-- The duration becomes the right number of frames; start at waits while there is time to go. -/
def Duration.Converted : Duration → Prop
  | .pause p interval =>
      (p.strmPause interval.toNat).1.output.pauseFrames =
        framesOf interval.toNat p.status.currentSampleRate
  | .skip p interval =>
      (p.strmSkip interval.toNat).1.output.pauseFrames =
        framesOf interval.toNat p.status.currentSampleRate
  | .startAt s start now =>
      ((s.startingAt start).startReached now.toNat = false ↔ ToGo start now) ∧
        (ToGo start now → (s.startingAt start).deltaFrames now.toNat =
          framesOf (start - now).toNat s.currentSampleRate)
  | .airplay error =>
      syncCorrection error.toInt =
        some (if error.toInt < 0 then .skip (framesOf error.toInt.natAbs RAOP_SAMPLE_RATE)
          else .pause (framesOf error.toInt.natAbs RAOP_SAMPLE_RATE))

/-- The product fits; the clock does not wrap while start at is waited for. -/
def Duration.Fits : Duration → Prop
  | .pause p interval | .skip p interval =>
      interval.toNat * p.status.currentSampleRate < 2 ^ 32
  | .startAt s start now =>
      ToGo start now →
        now.toNat + 10000 < 2 ^ 32 ∧ (start - now).toNat * s.currentSampleRate < 2 ^ 32
  | .airplay error => error.toInt.natAbs * RAOP_SAMPLE_RATE < 2 ^ 31

/-- Nothing that wraps comes out right. -/
theorem wrapped_eq_iff (x : ℕ) :
    x % 2 ^ 32 / 1000 = min (x / 1000) (2 ^ 32 - 1) ↔ x < 2 ^ 32 := by
  omega

theorem pauseFrames_strmPause (p : Player) (interval : ℕ) :
    (p.strmPause interval).1.output.pauseFrames = p.frames interval := by
  unfold Player.strmPause
  split
  · rfl
  · dsimp only
    split <;> rfl

/-- Start at waits if the clock value is ahead, and no more than the clock can go on by. -/
theorem startReached_eq_false (s : Output) (start now : UInt32) :
    (s.startingAt start).startReached now.toNat = false ↔
      now.toNat < start.toNat ∧ start.toNat ≤ (now.toNat + 10000) % 2 ^ 32 := by
  rw [Output.startReached, Bool.or_eq_false_iff, decide_eq_false_iff_not,
    decide_eq_false_iff_not, ge_iff_le, gt_iff_lt, Nat.not_le, Nat.not_lt]
  exact Iff.rfl

theorem toNat_sub_of_lt {start now : UInt32} (h : now.toNat < start.toNat) :
    (start - now).toNat = start.toNat - now.toNat := by
  rw [UInt32.toNat_sub]
  have := start.toNat_lt
  omega

/-- While the clock does not wrap, start at waits when there is time to go. -/
theorem startReached_iff_toGo (s : Output) {start now : UInt32} (h : now.toNat + 10000 < 2 ^ 32) :
    (s.startingAt start).startReached now.toNat = false ↔ ToGo start now := by
  rw [startReached_eq_false, ToGo, UInt32.toNat_sub]
  have := start.toNat_lt
  omega

/-- Before the clock wraps, start at does not wait. -/
theorem startReached_of_wraps (s : Output) {start now : UInt32} (h : ¬now.toNat + 10000 < 2 ^ 32) :
    (s.startingAt start).startReached now.toNat = true := by
  apply eq_true_of_ne_false
  rw [startReached_eq_false]
  have := now.toNat_lt
  omega

/-! ### The correction of AirPlay -/

/-- The quotient of a product that is not negative. -/
theorem u32_tdiv {n : ℕ} (h : n < 2 ^ 31) :
    u32 ((n : ℤ).tdiv 1000) = min (n / 1000) (2 ^ 32 - 1) := by
  rw [u32, Int.tdiv_eq_ediv_of_nonneg (Int.natCast_nonneg n)]
  omega

theorem cInt_eq_none {z : ℤ} (h : ¬InRange 32 z) : cInt z = none := if_neg h

/-- An `int` too many milliseconds off has no product. -/
theorem inRange_product_iff (e : ℤ) :
    InRange 32 (e * RAOP_SAMPLE_RATE) ↔ e.natAbs * RAOP_SAMPLE_RATE < 2 ^ 31 := by
  rw [InRange, half, RAOP_SAMPLE_RATE]
  omega

/-- The correction is right as far as it is defined. -/
theorem syncCorrection_eq {e : ℤ} (h : e.natAbs * RAOP_SAMPLE_RATE < 2 ^ 31) :
    syncCorrection e = some (if e < 0 then .skip (framesOf e.natAbs RAOP_SAMPLE_RATE)
      else .pause (framesOf e.natAbs RAOP_SAMPLE_RATE)) := by
  have hproduct := cInt_of_inRange ((inRange_product_iff e).mpr h)
  unfold syncCorrection
  simp only [hproduct, Option.bind_eq_bind, Option.bind_some]
  split
  · rename_i hneg
    have habs : -(e * RAOP_SAMPLE_RATE) = ((e.natAbs * RAOP_SAMPLE_RATE : ℕ) : ℤ) := by
      rw [RAOP_SAMPLE_RATE]
      omega
    have hnegated : InRange 32 (-(e * RAOP_SAMPLE_RATE)) := by
      rw [habs, InRange, half]
      omega
    rw [cInt_of_inRange hnegated, Option.bind_some, habs, u32_tdiv h]
    rfl
  · have habs : e * RAOP_SAMPLE_RATE = ((e.natAbs * RAOP_SAMPLE_RATE : ℕ) : ℤ) := by
      rw [RAOP_SAMPLE_RATE]
      omega
    rw [habs, u32_tdiv h]
    rfl

theorem syncCorrection_eq_none {e : ℤ} (h : ¬e.natAbs * RAOP_SAMPLE_RATE < 2 ^ 31) :
    syncCorrection e = none := by
  have hproduct := cInt_eq_none (mt (inRange_product_iff e).mp h)
  unfold syncCorrection
  simp only [hproduct, Option.bind_eq_bind, Option.bind_none, ite_self]

/-! ### All of them -/

/-- **A duration becomes the right number of frames exactly if its product fits**, and, for
start at, the clock does not wrap meanwhile. -/
theorem converted_iff (d : Duration) : d.Converted ↔ d.Fits := by
  cases d with
  | pause p interval =>
      show (p.strmPause interval.toNat).1.output.pauseFrames = _ ↔ _
      rw [pauseFrames_strmPause]
      exact wrapped_eq_iff _
  | skip p interval => exact wrapped_eq_iff _
  | startAt s start now =>
      have hdelta (hgo : ToGo start now) (hlt : now.toNat + 10000 < 2 ^ 32) :
          (s.startingAt start).deltaFrames now.toNat =
            (start - now).toNat * s.currentSampleRate % 2 ^ 32 / 1000 := by
        have hwaits := (startReached_iff_toGo s hlt).mpr hgo
        rw [toNat_sub_of_lt ((startReached_eq_false s start now).mp hwaits).1]
        rfl
      constructor
      · rintro ⟨hwaits, hframes⟩ hgo
        have hlt : now.toNat + 10000 < 2 ^ 32 := by
          by_contra hwraps
          exact absurd (hwaits.mpr hgo) (by rw [startReached_of_wraps s hwraps]; decide)
        refine ⟨hlt, (wrapped_eq_iff _).mp ?_⟩
        rw [← hdelta hgo hlt]
        exact hframes hgo
      · intro hfits
        by_cases hlt : now.toNat + 10000 < 2 ^ 32
        · refine ⟨startReached_iff_toGo s hlt, fun hgo => ?_⟩
          rw [hdelta hgo hlt]
          exact (wrapped_eq_iff _).mpr (hfits hgo).2
        · have hnot : ¬ToGo start now := fun hgo => hlt (hfits hgo).1
          refine ⟨iff_of_false ?_ hnot, fun hgo => absurd hgo hnot⟩
          rw [startReached_of_wraps s hlt]
          decide
  | airplay error =>
      constructor
      · intro hconv
        by_contra hbig
        cases (syncCorrection_eq_none hbig).symm.trans hconv
      · exact syncCorrection_eq

/-- A pause of 100 s; start at five seconds ahead, two of them before the clock wraps; an error of
50 s. -/
theorem durations_wrapped :
    ¬(Duration.pause Slimproto.restingPlayer 100000).Converted ∧
      ¬(Duration.startAt (outputInit ⟨0, fun _ => 0⟩ 64 44100 0 false) 3000 4294965296).Converted ∧
      ¬(Duration.airplay 50000).Converted := by
  refine ⟨fun h => ?_, fun h => ?_, fun h => ?_⟩
  · have hframes : Slimproto.restingPlayer.frames 100000 = framesOf 100000 44100 :=
      (pauseFrames_strmPause Slimproto.restingPlayer 100000).symm.trans h
    exact absurd hframes (by decide)
  · have hwaits := h.1.mpr (by rw [ToGo]; decide)
    exact absurd hwaits (by decide)
  · cases (syncCorrection_eq_none (by decide)).symm.trans h

end SqueezeliteMuse
