/-
SqueezeliteMuse/RtpTiming.lean

When a frame of AirPlay is played, and what is done with the one at the head.

`playtime` multiplies the distance from `synchro.rtp` by 10 and divides it by 441,
all of it unsigned, and compares what comes out with the clock as plain numbers.
Up to 2^31 / 10 frames ahead of the reference nothing overflows; a frame that is
older than the reference comes out more than an hour ahead.

Main result: `timed_iff`: the play time is right, and the head frame is discarded,
passed on or left to wait as it should be, if and only if the frame is not older
than the reference and the clock does not wrap between now and its play time.
-/
import SqueezeliteMuse.Rtp

namespace SqueezeliteMuse

open Serial

namespace Rtp

/-! ### What should be done -/

/-- How many frames `rtptime` is after the reference; below 0 where it is before it. -/
def distance (c : Rtp) (rtptime : BitVec 32) : ℤ := (rtptime - c.synchroRtp).toInt

/-- The time at which the frame is to be played: `distance * 1000 / 44100` milliseconds after that
of the reference, rounded down. -/
def trueTime (c : Rtp) (rtptime : BitVec 32) : BitVec 32 :=
  c.synchroTime + BitVec.ofInt 32 (c.distance rtptime * 10 / 441)

/-- The time `t` is right for a frame within a millisecond. -/
def OnTime (c : Rtp) (rtptime t : BitVec 32) : Prop :=
  ∃ ms : ℤ, t = c.synchroTime + BitVec.ofInt 32 ms ∧ (ms * 44100 - c.distance rtptime * 1000).natAbs < 44100

/-- What is done with the head frame. -/
inductive Fate
  | discard | pass | wait
  deriving DecidableEq

/-- What is to be done with a frame that is played in so many milliseconds. -/
def verdict (left : ℤ) (ready : Bool) (hold : ℕ) : Fate :=
  if left < 0 then .discard
  else if left ≤ hold ∨ ready = true then .pass
  else .wait

/-- What a round of `buffer_push_packet` does with the head frame. -/
def fate : Option (Rtp × RtpObs) → Fate
  | none => .wait
  | some (_, .pop _ _ .discarded) => .discard
  | some _ => .pass

/-- The slot at the head. -/
def head (c : Rtp) : Abuf := c.audioBuffer (bufIdx c.abRead)

/-- The head frame is right at the time `now`: its play time is, where it is passed on and where
playback starts with it, and so is what is done with it. -/
structure Timed (c : Rtp) (now : BitVec 32) : Prop where
  playtime : c.OnTime c.head.rtptime (c.playtime c.head.rtptime)
  start : ∀ seqno pcm clock, c.playing = false → c.canStart seqno = true →
    ∃ t rest, (c.bufferPutPacket seqno c.head.rtptime pcm clock).2 = .play seqno t :: rest ∧
      c.OnTime c.head.rtptime t
  fate : fate (c.pushFrame c.hold now) =
    verdict (c.trueTime c.head.rtptime - now).toInt c.head.ready c.hold.toNat

/-! ### The play time -/

variable {c : Rtp} {rtptime now : BitVec 32}

/-- Ahead of the reference nothing overflows. -/
theorem playtime_eq (h : 0 ≤ c.distance rtptime) (hd : (c.distance rtptime).natAbs * 10 < 2 ^ 31) :
    c.playtime rtptime = c.trueTime rtptime := by
  rw [playtime, trueTime]
  congr 1
  rw [distance] at h hd ⊢
  generalize rtptime - c.synchroRtp = x at h hd ⊢
  have hx := x.isLt
  have hint := BitVec.toInt_eq_toNat_cond x
  have hnat : x.toInt = x.toNat := by
    rw [hint] at h ⊢
    split at h <;> split <;> omega
  clear hint
  have hsmall : x.toNat * 10 < 4294967296 := by omega
  apply BitVec.eq_of_toNat_eq
  rw [BitVec.toNat_udiv, BitVec.toNat_mul, BitVec.toNat_ofInt, hnat]
  show x.toNat * 10 % 4294967296 / 441 = ((x.toNat : ℤ) * 10 / 441 % 4294967296).toNat
  have hquot : (x.toNat : ℤ) * 10 / 441 = ((x.toNat * 10 / 441 : ℕ) : ℤ) := by omega
  rw [Nat.mod_eq_of_lt hsmall, hquot]
  omega

theorem onTime_trueTime (c : Rtp) (rtptime : BitVec 32) :
    c.OnTime rtptime (c.trueTime rtptime) :=
  ⟨_, rfl, by omega⟩

/-- Before the reference the quotient is that of a number in the upper half. -/
theorem quotient_before {n : ℕ} (h : 4080218932 ≤ n) (h' : n < 4294967296) :
    4000000 < n * 10 % 4294967296 / 441 ∧ n * 10 % 4294967296 / 441 < 10000000 := by
  have hmod : n * 10 % 4294967296 = n * 10 - 9 * 4294967296 := by omega
  rw [hmod]
  constructor
  · rw [Nat.lt_iff_add_one_le, Nat.le_div_iff_mul_le (by decide)]
    omega
  · rw [Nat.div_lt_iff_lt_mul (by decide)]
    omega

theorem not_onTime (h : c.distance rtptime < 0) (hd : (c.distance rtptime).natAbs * 10 < 2 ^ 31) :
    ¬c.OnTime rtptime (c.playtime rtptime) := by
  rintro ⟨ms, ht, hms⟩
  have hq := congrArg BitVec.toNat ((BitVec.add_right_inj _).mp ht)
  rw [BitVec.toNat_udiv, BitVec.toNat_mul, BitVec.toNat_ofInt] at hq
  rw [distance] at h hd hms
  generalize rtptime - c.synchroRtp = x at h hd hms hq
  have hx := x.isLt
  have hint := BitVec.toInt_eq_toNat_cond x
  have hnat : x.toInt = (x.toNat : ℤ) - 2 ^ 32 := by
    rw [hint] at h ⊢
    split at h <;> split <;> omega
  rw [hnat] at h hd hms
  clear hint hnat
  obtain ⟨hlow, hhigh⟩ := quotient_before (n := x.toNat) (by omega) (by omega)
  have hq' : x.toNat * 10 % 4294967296 / 441 = (ms % 4294967296).toNat := hq
  rw [hq'] at hlow hhigh
  clear hq hq'
  have hms_le : ms ≤ 0 := by omega
  have hms_ge : -5000000 < ms := by omega
  omega

/-! ### The head frame -/

theorem toInt_nonneg_iff {x : BitVec 32} : 0 ≤ x.toInt ↔ x.toInt = x.toNat := by
  have hx := x.isLt
  rw [BitVec.toInt_eq_toNat_cond]
  split <;> omega

/-- A round does what its own play time says, which it compares with the clock as it is. -/
theorem fate_pushFrame (c : Rtp) (hold now : BitVec 32) :
    fate (c.pushFrame hold now) =
      if c.playtime c.head.rtptime < now then .discard
      else if c.playtime c.head.rtptime - now ≤ hold ∨ c.head.ready = true then .pass
      else .wait := by
  rw [pushFrame, show c.head = c.audioBuffer (bufIdx c.abRead) from rfl]
  generalize c.audioBuffer (bufIdx c.abRead) = slot
  by_cases hpast : c.playtime slot.rtptime < now
  · rw [if_pos hpast, if_pos hpast]
    rfl
  rw [if_neg hpast, if_neg hpast]
  rcases hready : slot.ready with - | -
  · rw [if_neg Bool.false_ne_true]
    by_cases hheld : c.playtime slot.rtptime - now ≤ hold
    · rw [if_pos hheld, if_pos (.inl hheld)]
      rfl
    · rw [if_neg hheld, if_neg (by simp [hheld])]
      rfl
  · rw [if_pos rfl, if_pos (.inr rfl)]
    rfl

/-- Where the play time is right, what is done is right as long as the clock does not wrap. -/
theorem fate_iff_near (h : c.playtime c.head.rtptime = c.trueTime c.head.rtptime) :
    fate (c.pushFrame c.hold now) =
        verdict (c.trueTime c.head.rtptime - now).toInt c.head.ready c.hold.toNat ↔
      Near now (c.trueTime c.head.rtptime) := by
  rw [fate_pushFrame, h, ← lt_iff_iff_near]
  generalize c.trueTime c.head.rtptime = t
  have hnonneg := toInt_nonneg_iff (x := t - now)
  by_cases hpast : t < now
  · rw [if_pos hpast]
    by_cases hneg : (t - now).toInt < 0
    · rw [verdict, if_pos hneg]
      exact iff_of_true rfl (iff_of_true hpast hneg)
    · rw [verdict, if_neg hneg]
      refine ⟨fun hf => ?_, fun hiff => absurd (hiff.mp hpast) hneg⟩
      split at hf <;> cases hf
  · rw [if_neg hpast]
    by_cases hneg : (t - now).toInt < 0
    · rw [verdict, if_pos hneg]
      refine ⟨fun hf => ?_, fun hiff => absurd (hiff.mpr hneg) hpast⟩
      split at hf <;> cases hf
    · have hnat := hnonneg.mp (by omega)
      have hheld : t - now ≤ c.hold ↔ (t - now).toInt ≤ c.hold.toNat := by
        rw [hnat, BitVec.le_def]
        omega
      rw [verdict, if_neg hneg]
      simp only [hheld]
      exact iff_of_true trivial (iff_of_false hpast hneg)

/-- The play time and what is done with the head frame are right if and only if the frame is not
older than the reference, and the clock does not wrap on the way to its play time. -/
theorem timed_iff (c : Rtp) (now : BitVec 32)
    (hd : (c.distance c.head.rtptime).natAbs * 10 < 2 ^ 31) :
    c.Timed now ↔ 0 ≤ c.distance c.head.rtptime ∧ Near now (c.trueTime c.head.rtptime) := by
  constructor
  · intro h
    have hnonneg : 0 ≤ c.distance c.head.rtptime := by
      by_contra hneg
      exact not_onTime (by omega) hd h.playtime
    exact ⟨hnonneg, (fate_iff_near (playtime_eq hnonneg hd)).mp h.fate⟩
  · rintro ⟨hnonneg, hnear⟩
    have htime := playtime_eq hnonneg hd
    have hright : c.OnTime c.head.rtptime (c.playtime c.head.rtptime) :=
      htime ▸ onTime_trueTime c c.head.rtptime
    refine ⟨hright, fun seqno pcm clock hstop hcan => ?_, (fate_iff_near htime).mpr hnear⟩
    have hstart : (c.bufferPutPacket seqno c.head.rtptime pcm clock).2 =
        .play seqno (c.playtime c.head.rtptime) ::
          ((c.startAt seqno).receive seqno c.head.rtptime pcm clock).2 := by
      rw [bufferPutPacket, if_neg (by simp [hstop]), if_pos hcan]
    exact ⟨_, _, hstart, hright⟩

/-- A receiver whose head frame is `d` frames after the reference, both clocks at 0. -/
def headAt (d : BitVec 32) : Rtp :=
  { rtpInit 11025 352 with
    audioBuffer := fun _ => ⟨false, d, 0, []⟩
    synchroStatus := RTP_SYNC ||| NTP_SYNC }

theorem timed_iff_second :
    (headAt 44100).Timed 900 ↔ 0 ≤ (headAt 44100).distance (headAt 44100).head.rtptime ∧
      Near 900 ((headAt 44100).trueTime (headAt 44100).head.rtptime) :=
  timed_iff (headAt 44100) 900 (by decide)

/-- A frame that should have been played a second ago waits; and one that is due in a second is
discarded where the clock wraps in between. -/
theorem timed_fails :
    ¬(headAt (-44100)).Timed 0 ∧
      fate ((headAt (-44100)).pushFrame (headAt (-44100)).hold 0) = .wait ∧
      ¬(headAt 44100).Timed (-100) ∧
      fate ((headAt 44100).pushFrame (headAt 44100).hold (-100)) = .discard := by
  refine ⟨fun h => ?_, by decide, fun h => ?_, by decide⟩
  · exact absurd h.fate (by decide)
  · exact absurd h.fate (by decide)

end Rtp

end SqueezeliteMuse
