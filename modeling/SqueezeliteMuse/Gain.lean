/-
SqueezeliteMuse/Gain.lean

What `_apply_gain` and `_apply_cross` make of the samples.

`gain` multiplies in 64 bits and clamps to 32, so what it returns is the scaled sample,
saturated to 32 bits.  What becomes of it depends on the build: it is stored in a sample of 16
bits or of 32, and for an average or a crossfade two of them are added before, in an `int`.

Memory is by samples, at their addresses in bytes.

Main result: `samples_saturate_iff`: what is stored is the saturation of the scaled samples, of
their average or of their sum exactly where these are in the range of a sample (or beyond it by a
multiple of what a sample can hold), and where the sum is in the range of an `int`.
-/
import SqueezeliteMuse.Lib.Saturate
import SqueezeliteMuse.PcmSamples
import Mathlib.Algebra.Order.Ring.Abs

namespace SqueezeliteMuse

open Saturate

/-! ### The code -/

/-- `MONO_RIGHT` -/
def MONO_RIGHT : ℕ := 0x02

/-- `MONO_LEFT` -/
def MONO_LEFT : ℕ := 0x01

/-- `sizeof(ISAMPLE_T)` -/
def Build.sampleBytes : Build → ℕ
  | .s16 => 2
  | .s32 => 4

/-- `BYTES_PER_FRAME` of the build. -/
def Build.frameBytes (w : Build) : ℕ := 2 * w.sampleBytes

/-- The samples in memory. -/
abbrev Samples (w : Build) := ℕ → BitVec w.bits

/-- An `int`. -/
def inInt (x : ℤ) : ℤ := (BitVec.ofInt 32 x).toInt

section Code

variable {w : Build}

/-- A frame of `_apply_gain`: the left and the right sample that are stored. -/
def gainFrame (gainL gainR : BitVec 32) (flags : ℕ) (l r : BitVec w.bits) :
    BitVec w.bits × BitVec w.bits :=
  if gainL.toInt = FIXED_ONE ∧ gainR.toInt = FIXED_ONE ∧
      flags &&& (MONO_LEFT ||| MONO_RIGHT) = 0 then
    (l, r)
  else if flags &&& MONO_LEFT ≠ 0 ∧ flags &&& MONO_RIGHT ≠ 0 then
    let v := BitVec.ofInt w.bits
      ((inInt (gain gainL.toInt l.toInt + gain gainR.toInt r.toInt)).tdiv 2)
    (v, v)
  else if flags &&& MONO_RIGHT ≠ 0 then
    let v := BitVec.ofInt w.bits (gain gainR.toInt r.toInt)
    (v, v)
  else if flags &&& MONO_LEFT ≠ 0 then
    let v := BitVec.ofInt w.bits (gain gainL.toInt l.toInt)
    (v, v)
  else
    (BitVec.ofInt w.bits (gain gainL.toInt l.toInt), BitVec.ofInt w.bits (gain gainR.toInt r.toInt))

/-- `_apply_gain`, of `count` frames at `ptr`. -/
def applyGain (gainL gainR : BitVec 32) (flags : ℕ) : ℕ → ℕ → Samples w → Samples w
  | 0, _, m => m
  | count + 1, ptr, m =>
      let v := gainFrame gainL gainR flags (m ptr) (m (ptr + w.sampleBytes))
      applyGain gainL gainR flags count (ptr + w.frameBytes)
        (Function.update (Function.update m ptr v.1) (ptr + w.sampleBytes) v.2)

/-- The loop of `_apply_cross`. -/
structure Crossing (w : Build) where
  mem : Samples w
  ptr : ℕ
  crossPtr : ℕ

/-- `*cross_ptr`, back into the buffer. -/
def crossBack (w : Build) (b : Buffer) (p : ℕ) : ℕ :=
  if p > b.wrap then p - b.size / w.frameBytes * 2 * w.sampleBytes else p

/-- The sample that is mixed of two. -/
def crossSample (gainIn gainOut : BitVec 32) (out incoming : BitVec w.bits) : BitVec w.bits :=
  BitVec.ofInt w.bits (inInt (gain gainOut.toInt out.toInt + gain gainIn.toInt incoming.toInt))

def crossStep (b : Buffer) (gainIn gainOut : BitVec 32) (x : Crossing w) : Crossing w where
  mem := Function.update x.mem x.ptr
    (crossSample gainIn gainOut (x.mem x.ptr) (x.mem (crossBack w b x.crossPtr)))
  ptr := x.ptr + w.sampleBytes
  crossPtr := crossBack w b x.crossPtr + w.sampleBytes

/-- `_apply_cross` after `k` samples; a call takes two for each frame. -/
def applyCross (b : Buffer) (gainIn gainOut : BitVec 32) (x : Crossing w) : ℕ → Crossing w
  | 0 => x
  | k + 1 => crossStep b gainIn gainOut (applyCross b gainIn gainOut x k)

end Code

/-! ### What they are for -/

/-- A sample, scaled by a gain. -/
def scaled (g s : ℤ) : ℤ := saturate 32 (g * s / 2 ^ 16)

/-- What the left and the right sample are to be, before they saturate. -/
def wanted (gainL gainR : ℤ) (flags : ℕ) (l r : ℤ) : ℤ × ℤ :=
  if flags &&& MONO_LEFT ≠ 0 ∧ flags &&& MONO_RIGHT ≠ 0 then
    ((scaled gainL l + scaled gainR r).tdiv 2, (scaled gainL l + scaled gainR r).tdiv 2)
  else if flags &&& MONO_RIGHT ≠ 0 then (scaled gainR r, scaled gainR r)
  else if flags &&& MONO_LEFT ≠ 0 then (scaled gainL l, scaled gainL l)
  else (scaled gainL l, scaled gainR r)

/-- `gain` is the scaled sample. -/
theorem gain_eq_scaled (g s : ℤ) : gain g s = scaled g s := by
  have hhalf : half 32 = 2147483648 := by decide
  rw [gain, scaled, saturate, hhalf, MAX_SCALESAMPLE]
  omega

theorem scaled_inRange (g s : ℤ) : InRange 32 (scaled g s) := inRange_saturate (by decide) _

/-- With a gain of one nothing changes. -/
theorem scaled_one {w : Build} (s : BitVec w.bits) : scaled FIXED_ONE s.toInt = s.toInt := by
  have hmono : half w.bits ≤ half 32 := half_mono (by cases w <;> decide)
  have hrange := inRange_toInt (by cases w <;> decide) s
  have hdiv : FIXED_ONE * s.toInt / 2 ^ 16 = s.toInt := by
    rw [FIXED_ONE]
    omega
  rw [scaled, hdiv]
  exact saturate_of_inRange ⟨by have := hrange.1; omega, by have := hrange.2; omega⟩

/-- The product of a gain and a sample is a number of 64 bits. -/
theorem product_inRange {w : Build} (g : BitVec 32) (s : BitVec w.bits) :
    InRange 64 (g.toInt * s.toInt) := by
  have hmono : half w.bits ≤ half 32 := half_mono (by cases w <;> decide)
  have hg := inRange_toInt (by decide) g
  have hs := inRange_toInt (by cases w <;> decide) s
  have hhalf : half 32 = 2147483648 := by decide
  have htop : half 64 = 9223372036854775808 := by decide
  have hgabs : |g.toInt| ≤ 2147483648 :=
    abs_le.mpr ⟨by have := hg.1; omega, by have := hg.2; omega⟩
  have hsabs : |s.toInt| ≤ 2147483648 :=
    abs_le.mpr ⟨by have := hs.1; omega, by have := hs.2; omega⟩
  have hprod : |g.toInt * s.toInt| ≤ 2147483648 * 2147483648 := by
    rw [abs_mul]
    exact mul_le_mul hgabs hsabs (abs_nonneg _) (by decide)
  have hboth := abs_le.mp hprod
  exact ⟨by omega, by omega⟩

/-- A sample that is stored: the number it is to be, saturated, and with its sign. -/
structure Saturates {n : ℕ} (v : BitVec n) (x : ℤ) : Prop where
  value : v.toInt = saturate n x
  sign : v.toInt < 0 ↔ x < 0

/-- The sum of two scaled samples does not leave an `int`. -/
def SumFits (gainL gainR l r : ℤ) : Prop := InRange 32 (scaled gainL l + scaled gainR r)

/-- What is cut off a number when it saturates is nothing that a sample of `n` bits holds. -/
def Cut (n : ℕ) (x : ℤ) : Prop := (2 : ℤ) ^ n ∣ saturate n x - x

/-- What the samples of a frame have to be for `_apply_gain` to be right. -/
structure Quiet (w : Build) (gainL gainR : ℤ) (flags : ℕ) (l r : ℤ) : Prop where
  left : Cut w.bits (wanted gainL gainR flags l r).1
  right : Cut w.bits (wanted gainL gainR flags l r).2
  sum : flags &&& MONO_LEFT ≠ 0 → flags &&& MONO_RIGHT ≠ 0 → SumFits gainL gainR l r

section Rules

variable {w : Build}

theorem bits_pos (w : Build) : 0 < w.bits := by cases w <;> decide

theorem sampleBytes_pos (w : Build) : 0 < w.sampleBytes := by cases w <;> decide

theorem saturates_ofInt_iff {n : ℕ} (hn : 0 < n) {x : ℤ} :
    Saturates (BitVec.ofInt n x) x ↔ Cut n x := by
  constructor
  · exact fun h => (toInt_ofInt_eq_saturate_iff hn).mp h.value
  · intro h
    have hvalue := (toInt_ofInt_eq_saturate_iff hn).mpr h
    exact ⟨hvalue, by rw [hvalue, saturate_neg_iff hn]⟩

/-- A number in range is stored as it is. -/
theorem cut_of_inRange {n : ℕ} {x : ℤ} (h : InRange n x) : Cut n x := by
  rw [Cut, saturate_of_inRange h, Int.sub_self]
  exact Int.dvd_zero _

theorem inInt_of_inRange {x : ℤ} (h : InRange 32 x) : inInt x = x :=
  toInt_ofInt_of_inRange (by decide) h

/-- The frame that `_apply_gain` is to make of one. -/
structure FrameSaturates (gainL gainR : ℤ) (flags : ℕ) (l r : BitVec w.bits)
    (v : BitVec w.bits × BitVec w.bits) : Prop where
  left : Saturates v.1 (wanted gainL gainR flags l.toInt r.toInt).1
  right : Saturates v.2 (wanted gainL gainR flags l.toInt r.toInt).2
  sum : flags &&& MONO_LEFT ≠ 0 → flags &&& MONO_RIGHT ≠ 0 →
    SumFits gainL gainR l.toInt r.toInt

variable (gainL gainR : BitVec 32) (flags : ℕ) (l r : BitVec w.bits)

/-- With two flags it is the sum that decides first. -/
theorem gainFrame_both (hleft : flags &&& MONO_LEFT ≠ 0) (hright : flags &&& MONO_RIGHT ≠ 0) :
    FrameSaturates gainL.toInt gainR.toInt flags l r (gainFrame gainL gainR flags l r) ↔
      Quiet w gainL.toInt gainR.toInt flags l.toInt r.toInt := by
  have hframe : gainFrame gainL gainR flags l r =
      (BitVec.ofInt w.bits ((inInt (scaled gainL.toInt l.toInt +
          scaled gainR.toInt r.toInt)).tdiv 2),
        BitVec.ofInt w.bits ((inInt (scaled gainL.toInt l.toInt +
          scaled gainR.toInt r.toInt)).tdiv 2)) := by
    have hmono : flags &&& (MONO_LEFT ||| MONO_RIGHT) ≠ 0 := by
      rw [Nat.and_or_distrib_left]
      exact fun h => hleft (Nat.or_eq_zero_iff.mp h).1
    rw [gainFrame, if_neg (fun h => hmono h.2.2), if_pos ⟨hleft, hright⟩, gain_eq_scaled,
      gain_eq_scaled]
  have hwanted : wanted gainL.toInt gainR.toInt flags l.toInt r.toInt =
      ((scaled gainL.toInt l.toInt + scaled gainR.toInt r.toInt).tdiv 2,
        (scaled gainL.toInt l.toInt + scaled gainR.toInt r.toInt).tdiv 2) :=
    if_pos ⟨hleft, hright⟩
  constructor
  · intro h
    have hsum := h.sum hleft hright
    have hv := h.left
    rw [hframe, hwanted, inInt_of_inRange hsum] at hv
    have hcut := (saturates_ofInt_iff (bits_pos w)).mp hv
    exact ⟨by rwa [hwanted], by rwa [hwanted], fun _ _ => hsum⟩
  · intro h
    have hsum := h.sum hleft hright
    have hcut := h.left
    rw [hwanted] at hcut
    have hv := (saturates_ofInt_iff (bits_pos w)).mpr hcut
    refine ⟨?_, ?_, fun _ _ => hsum⟩
    · rwa [hframe, hwanted, inInt_of_inRange hsum]
    · rwa [hframe, hwanted, inInt_of_inRange hsum]

/-- Otherwise each sample is one that is scaled. -/
theorem gainFrame_single (h : ¬ (flags &&& MONO_LEFT ≠ 0 ∧ flags &&& MONO_RIGHT ≠ 0)) :
    FrameSaturates gainL.toInt gainR.toInt flags l r (gainFrame gainL gainR flags l r) ↔
      Quiet w gainL.toInt gainR.toInt flags l.toInt r.toInt := by
  have hnone : ∀ v : BitVec w.bits × BitVec w.bits,
      v = (BitVec.ofInt w.bits (wanted gainL.toInt gainR.toInt flags l.toInt r.toInt).1,
        BitVec.ofInt w.bits (wanted gainL.toInt gainR.toInt flags l.toInt r.toInt).2) →
      (FrameSaturates gainL.toInt gainR.toInt flags l r v ↔
        Quiet w gainL.toInt gainR.toInt flags l.toInt r.toInt) := by
    rintro v rfl
    have hiff (x : ℤ) := saturates_ofInt_iff (bits_pos w) (x := x)
    constructor
    · exact fun hf => ⟨(hiff _).mp hf.left, (hiff _).mp hf.right,
        fun hl hr => absurd ⟨hl, hr⟩ h⟩
    · exact fun hq => ⟨(hiff _).mpr hq.left, (hiff _).mpr hq.right,
        fun hl hr => absurd ⟨hl, hr⟩ h⟩
  apply hnone
  have hofInt (v : BitVec w.bits) : BitVec.ofInt w.bits v.toInt = v := BitVec.ofInt_toInt
  by_cases hone : gainL.toInt = FIXED_ONE ∧ gainR.toInt = FIXED_ONE ∧
      flags &&& (MONO_LEFT ||| MONO_RIGHT) = 0
  · obtain ⟨hL, hR, hmono⟩ := hone
    rw [Nat.and_or_distrib_left, Nat.or_eq_zero_iff] at hmono
    rw [gainFrame, if_pos ⟨hL, hR, by rw [Nat.and_or_distrib_left, hmono.1, hmono.2]; rfl⟩,
      wanted, if_neg h, if_neg (fun hr => hr hmono.2), if_neg (fun hl => hl hmono.1), hL, hR,
      scaled_one, scaled_one, hofInt, hofInt]
  · rw [gainFrame, if_neg hone, if_neg h, wanted, if_neg h]
    simp only [gain_eq_scaled]
    split
    · rfl
    · split
      · rfl
      · rfl

theorem gainFrame_saturates_iff :
    FrameSaturates gainL.toInt gainR.toInt flags l r (gainFrame gainL gainR flags l r) ↔
      Quiet w gainL.toInt gainR.toInt flags l.toInt r.toInt := by
  by_cases h : flags &&& MONO_LEFT ≠ 0 ∧ flags &&& MONO_RIGHT ≠ 0
  · exact gainFrame_both gainL gainR flags l r h.1 h.2
  · exact gainFrame_single gainL gainR flags l r h

/-- With samples of 32 bits, one at a time, there is nothing to be cut off. -/
theorem quiet_s32 {gL gR : ℤ} {left right : ℤ}
    (h : ¬ (flags &&& MONO_LEFT ≠ 0 ∧ flags &&& MONO_RIGHT ≠ 0)) :
    Quiet .s32 gL gR flags left right := by
  have hcut (g s : ℤ) : Cut Build.s32.bits (scaled g s) := cut_of_inRange (scaled_inRange g s)
  refine ⟨?_, ?_, fun hl hr => absurd ⟨hl, hr⟩ h⟩
  · rw [wanted, if_neg h]
    split
    · exact hcut gR right
    · split
      · exact hcut gL left
      · exact hcut gL left
  · rw [wanted, if_neg h]
    split
    · exact hcut gR right
    · split
      · exact hcut gL left
      · exact hcut gR right

end Rules

/-! ### The loops -/

section Loops

variable {w : Build}

theorem frameBytes_eq (w : Build) : w.frameBytes = w.sampleBytes + w.sampleBytes := Nat.two_mul _

/-- `_apply_gain` leaves what is before `ptr`. -/
theorem applyGain_before (gainL gainR : BitVec 32) (flags count : ℕ) {a : ℕ} :
    ∀ {ptr : ℕ} {m : Samples w}, a < ptr → applyGain gainL gainR flags count ptr m a = m a := by
  induction count with
  | zero => exact fun _ => rfl
  | succ count ih =>
    intro ptr m h
    have hpos := sampleBytes_pos w
    have hbytes := frameBytes_eq w
    rw [applyGain]
    refine (ih (by omega)).trans ?_
    rw [Function.update_of_ne (by omega), Function.update_of_ne (by omega)]

/-- ... and takes each frame to its own. -/
theorem applyGain_frame (gainL gainR : BitVec 32) (flags count : ℕ) :
    ∀ {i ptr : ℕ} {m : Samples w}, i < count →
      (applyGain gainL gainR flags count ptr m (ptr + i * w.frameBytes),
        applyGain gainL gainR flags count ptr m (ptr + i * w.frameBytes + w.sampleBytes)) =
      gainFrame gainL gainR flags (m (ptr + i * w.frameBytes))
        (m (ptr + i * w.frameBytes + w.sampleBytes)) := by
  have hpos := sampleBytes_pos w
  have hbytes := frameBytes_eq w
  induction count with
  | zero => exact fun h => absurd h (Nat.not_lt_zero _)
  | succ count ih =>
    intro i ptr m h
    rw [applyGain]
    cases i with
    | zero =>
      rw [Nat.zero_mul, Nat.add_zero, applyGain_before _ _ _ _ (by omega),
        applyGain_before _ _ _ _ (by omega), Function.update_self,
        Function.update_of_ne (by omega), Function.update_self]
    | succ i =>
      have hnext : ptr + (i + 1) * w.frameBytes = ptr + w.frameBytes + i * w.frameBytes := by
        rw [Nat.succ_mul]
        omega
      rw [hnext, ih (by omega)]
      rw [Function.update_of_ne (by omega), Function.update_of_ne (by omega),
        Function.update_of_ne (by omega), Function.update_of_ne (by omega)]

variable (b : Buffer) (gainIn gainOut : BitVec 32)

theorem applyCross_ptr (x : Crossing w) (k : ℕ) :
    (applyCross b gainIn gainOut x k).ptr = x.ptr + k * w.sampleBytes := by
  induction k with
  | zero => rw [applyCross, Nat.zero_mul, Nat.add_zero]
  | succ k ih =>
    show (applyCross b gainIn gainOut x k).ptr + w.sampleBytes = _
    rw [ih, Nat.succ_mul, Nat.add_assoc]

/-- What `_apply_cross` has not come to is as it was. -/
theorem applyCross_ahead (x : Crossing w) {k a : ℕ} (h : x.ptr + k * w.sampleBytes ≤ a) :
    (applyCross b gainIn gainOut x k).mem a = x.mem a := by
  have hpos := sampleBytes_pos w
  induction k with
  | zero => rfl
  | succ k ih =>
    rw [Nat.succ_mul] at h
    refine (Function.update_of_ne ?_ _ _).trans (ih (by omega))
    rw [applyCross_ptr]
    omega

/-- The sample that is mixed in after `k`. -/
def mixedIn (x : Crossing w) (k : ℕ) : BitVec w.bits :=
  (applyCross b gainIn gainOut x k).mem
    (crossBack w b (applyCross b gainIn gainOut x k).crossPtr)

/-- ... and what becomes of the sample it is mixed into. -/
theorem applyCross_sample (x : Crossing w) {count k : ℕ} (h : k < count) :
    (applyCross b gainIn gainOut x count).mem (x.ptr + k * w.sampleBytes) =
      crossSample gainIn gainOut (x.mem (x.ptr + k * w.sampleBytes))
        (mixedIn b gainIn gainOut x k) := by
  have hpos := sampleBytes_pos w
  obtain ⟨d, rfl⟩ : ∃ d, count = k + 1 + d := ⟨count - (k + 1), by omega⟩
  clear h
  induction d with
  | zero =>
    have hptr := applyCross_ptr b gainIn gainOut x k
    show Function.update _ (applyCross b gainIn gainOut x k).ptr _ _ = _
    rw [hptr, Function.update_self, applyCross_ahead b gainIn gainOut x (Nat.le_refl _)]
    rfl
  | succ d ih =>
    have hmul : (k + 1 + d) * w.sampleBytes =
        k * w.sampleBytes + w.sampleBytes + d * w.sampleBytes := by
      rw [Nat.add_mul, Nat.succ_mul]
    refine (Function.update_of_ne ?_ _ _).trans ih
    rw [applyCross_ptr]
    show _ ≠ x.ptr + (k + 1 + d) * w.sampleBytes
    omega

end Loops

/-! ### Both together -/

section Both

variable (w : Build) (b : Buffer) (flags : ℕ)

/-- What `_apply_gain` is to do: `count` frames at `ptr`. -/
def GainSaturates (gainL gainR : BitVec 32) (ptr count : ℕ) (m m' : Samples w) : Prop :=
  ∀ i < count, FrameSaturates gainL.toInt gainR.toInt flags (m (ptr + i * w.frameBytes))
    (m (ptr + i * w.frameBytes + w.sampleBytes))
    (m' (ptr + i * w.frameBytes), m' (ptr + i * w.frameBytes + w.sampleBytes))

/-- What `_apply_cross` is to do, with the samples that are mixed in. -/
def CrossSaturates (gainIn gainOut : BitVec 32) (ptr count : ℕ) (m m' : Samples w)
    (incoming : ℕ → BitVec w.bits) : Prop :=
  ∀ k < 2 * count,
    Saturates (m' (ptr + k * w.sampleBytes))
      (scaled gainOut.toInt (m (ptr + k * w.sampleBytes)).toInt +
        scaled gainIn.toInt (incoming k).toInt) ∧
    SumFits gainOut.toInt gainIn.toInt (m (ptr + k * w.sampleBytes)).toInt (incoming k).toInt

/-- The samples of each frame have to be quiet enough for their gains ... -/
def GainQuiet (gainL gainR : BitVec 32) (ptr count : ℕ) (m : Samples w) : Prop :=
  ∀ i < count, Quiet w gainL.toInt gainR.toInt flags (m (ptr + i * w.frameBytes)).toInt
    (m (ptr + i * w.frameBytes + w.sampleBytes)).toInt

/-- ... and so do the two samples that are mixed. -/
def CrossQuiet (gainIn gainOut : BitVec 32) (ptr count : ℕ) (m : Samples w)
    (incoming : ℕ → BitVec w.bits) : Prop :=
  ∀ k < 2 * count,
    Cut w.bits (scaled gainOut.toInt (m (ptr + k * w.sampleBytes)).toInt +
      scaled gainIn.toInt (incoming k).toInt) ∧
    SumFits gainOut.toInt gainIn.toInt (m (ptr + k * w.sampleBytes)).toInt (incoming k).toInt

theorem gainSaturates_iff (gainL gainR : BitVec 32) (ptr count : ℕ) (m : Samples w) :
    GainSaturates w flags gainL gainR ptr count m (applyGain gainL gainR flags count ptr m) ↔
      GainQuiet w flags gainL gainR ptr count m := by
  refine forall₂_congr fun i hi => ?_
  rw [applyGain_frame gainL gainR flags count hi]
  exact gainFrame_saturates_iff gainL gainR flags _ _

/-- A sum that fits is stored like any other number. -/
theorem crossSample_saturates {gainIn gainOut : BitVec 32} {out incoming : BitVec w.bits}
    (h : SumFits gainOut.toInt gainIn.toInt out.toInt incoming.toInt) :
    Saturates (crossSample gainIn gainOut out incoming)
        (scaled gainOut.toInt out.toInt + scaled gainIn.toInt incoming.toInt) ↔
      Cut w.bits (scaled gainOut.toInt out.toInt + scaled gainIn.toInt incoming.toInt) := by
  rw [crossSample, gain_eq_scaled, gain_eq_scaled, inInt_of_inRange h]
  exact saturates_ofInt_iff (bits_pos w)

theorem crossSaturates_iff (gainIn gainOut : BitVec 32) (x : Crossing w) (count : ℕ) :
    CrossSaturates w gainIn gainOut x.ptr count x.mem
        (applyCross b gainIn gainOut x (2 * count)).mem (mixedIn b gainIn gainOut x) ↔
      CrossQuiet w gainIn gainOut x.ptr count x.mem (mixedIn b gainIn gainOut x) := by
  refine forall₂_congr fun k hk => ?_
  rw [applyCross_sample b gainIn gainOut x hk]
  constructor
  · rintro ⟨hv, hsum⟩
    exact ⟨(crossSample_saturates w hsum).mp hv, hsum⟩
  · rintro ⟨hcut, hsum⟩
    exact ⟨(crossSample_saturates w hsum).mpr hcut, hsum⟩

/-- What `_apply_gain` and `_apply_cross` store is right exactly if the numbers to be stored are
in the range of a sample (or cut off by nothing it would show), and the sums in that of an
`int`. -/
theorem samples_saturate_iff (gainL gainR gainIn gainOut : BitVec 32) (ptr count : ℕ)
    (m : Samples w) (x : Crossing w) :
    (GainSaturates w flags gainL gainR ptr count m (applyGain gainL gainR flags count ptr m) ∧
        CrossSaturates w gainIn gainOut x.ptr count x.mem
          (applyCross b gainIn gainOut x (2 * count)).mem (mixedIn b gainIn gainOut x)) ↔
      GainQuiet w flags gainL gainR ptr count m ∧
        CrossQuiet w gainIn gainOut x.ptr count x.mem (mixedIn b gainIn gainOut x) :=
  and_congr (gainSaturates_iff w flags gainL gainR ptr count m)
    (crossSaturates_iff w b gainIn gainOut x count)

end Both

/-- Samples of 16 bits at 20000, with a gain of two: they are stored as −25536. -/
theorem loud_wraps :
    let m : Samples .s16 := fun _ => 20000#16
    ¬ GainSaturates .s16 0 0x20000#32 0x20000#32 0 1 m (applyGain 0x20000#32 0x20000#32 0 1 0 m) := by
  intro m h
  have hvalue := (h 0 (by decide)).left.value
  revert hvalue
  decide

end SqueezeliteMuse
