/-
SqueezeliteMuse/CrossMix.lean

Which samples a crossfade mixes in.

`_output_frames` gives `write_cb` a pointer to the incoming track, `fade_end` and as many frames
behind it as the fade has got on.  It may be beyond the end of the ring.  `_apply_cross` takes it
back before it reads a sample, if it is beyond `wrap`, but not if it is at `wrap`.

Main result: `crossfade_positions_iff`: in a call, all samples that are mixed in are those of the
ring that are the length of the fade ahead exactly if the incoming part of no chunk begins at or
before `wrap` and ends behind it.
-/
import SqueezeliteMuse.FadeGain
import SqueezeliteMuse.Gain
import SqueezeliteMuse.OutputProgress

namespace SqueezeliteMuse

/-! ### The pointer to the incoming track -/

section Pointer

variable {w : Build} {b : Buffer} (gainIn gainOut : BitVec 32)

/-- Where `_apply_cross` reads its sample after `k`. -/
def crossRead (b : Buffer) (gainIn gainOut : BitVec 32) (x : Crossing w) (k : ℕ) : ℕ :=
  crossBack w b (applyCross b gainIn gainOut x k).crossPtr

theorem crossRead_succ (x : Crossing w) (k : ℕ) :
    crossRead b gainIn gainOut x (k + 1) =
      crossBack w b (crossRead b gainIn gainOut x k + w.sampleBytes) := rfl

theorem crossBack_of_le {p : ℕ} (h : p ≤ b.wrap) : crossBack w b p = p :=
  if_neg (Nat.not_lt.mpr h)

/-- A ring of whole frames is as long as `_apply_cross` takes it to be. -/
theorem crossBack_of_lt {p : ℕ} (hsize : w.frameBytes ∣ b.size) (h : b.wrap < p) :
    crossBack w b p = p - b.size := by
  have hlen : b.size / w.frameBytes * 2 * w.sampleBytes = b.size := by
    rw [Nat.mul_assoc]
    exact Nat.div_mul_cancel hsize
  rw [crossBack, if_pos h, hlen]

/-- As long as it is not beyond `wrap` it goes on by samples. -/
theorem crossRead_walk {x : Crossing w} {k : ℕ}
    (h : crossRead b gainIn gainOut x 0 + k * w.sampleBytes ≤ b.wrap) :
    crossRead b gainIn gainOut x k = crossRead b gainIn gainOut x 0 + k * w.sampleBytes := by
  induction k with
  | zero => rw [Nat.zero_mul, Nat.add_zero]
  | succ k ih =>
    rw [Nat.succ_mul] at h
    rw [crossRead_succ, ih (by omega), Nat.succ_mul, ← Nat.add_assoc]
    exact crossBack_of_le (by omega)

end Pointer

/-! ### A chunk of a crossfade -/

/-- The part of the ring that a crossfade is in. -/
structure CrossRegion (s : Output) : Prop where
  grid : Grid s
  small : s.outputbuf.size ≤ 2 ^ 32
  start_ge : s.outputbuf.buf ≤ s.fadeStart
  start_lt : s.fadeStart < s.outputbuf.wrap
  end_ge : s.outputbuf.buf ≤ s.fadeEnd
  end_lt : s.fadeEnd < s.outputbuf.wrap

namespace Output

/-- Where the incoming part of a chunk is, before it is taken back into the ring. -/
def crossStart (s : Output) : ℕ := s.fadeEnd + s.curFrames * BYTES_PER_FRAME

theorem curFrames_fadeReached (s : Output) : s.fadeReached.curFrames = s.curFrames := by
  unfold fadeReached
  split
  · rfl
  · rfl

theorem durFrames_fadeReached (s : Output) : s.fadeReached.durFrames = s.durFrames := by
  unfold fadeReached
  split
  · rfl
  · rfl

theorem outputbuf_fadeReached (s : Output) : s.fadeReached.outputbuf = s.outputbuf := by
  unfold fadeReached
  split
  · rfl
  · rfl

theorem fadeEnd_fadeReached (s : Output) : s.fadeReached.fadeEnd = s.fadeEnd := by
  unfold fadeReached
  split
  · rfl
  · rfl

end Output

/-- A distance of whole frames, in frames. -/
theorem frameCount_mul {d : ℕ} (h : BYTES_PER_FRAME ∣ d) (hlt : d < 2 ^ 32) :
    frameCount d * BYTES_PER_FRAME = d := by
  obtain ⟨f, rfl⟩ := h
  have hpos : (BYTES_PER_FRAME : ℤ) ≠ 0 := by decide
  have hdiv : ((BYTES_PER_FRAME * f : ℕ) : ℤ).tdiv BYTES_PER_FRAME = f := by
    push_cast
    exact Int.mul_tdiv_cancel_left _ hpos
  have hbound : 4 * f < 2 ^ 32 := hlt
  have hmod : ((f : ℤ) % 2 ^ 32).toNat = f := by omega
  rw [frameCount, hdiv, hmod, Nat.mul_comm]

namespace CrossRegion

variable {s : Output}

theorem cur_mul (h : CrossRegion s) : s.curFrames * BYTES_PER_FRAME =
    if s.outputbuf.readp ≥ s.fadeStart then s.outputbuf.readp - s.fadeStart
    else s.outputbuf.readp + s.outputbuf.size - s.fadeStart := by
  obtain ⟨hgrid, hsmall, hsge, hslt, hege, helt⟩ := h
  have hwrap := hgrid.wf.wrap_eq
  have hlo := hgrid.wf.readp_ge
  have hhi := hgrid.wf.readp_lt
  rw [Output.curFrames]
  split
  · rename_i hle
    rw [← Int.ofNat_sub hle]
    exact frameCount_mul (Nat.dvd_sub hgrid.readp hgrid.fadeStart) (by omega)
  · rename_i hlt
    have hle : s.fadeStart ≤ s.outputbuf.readp + s.outputbuf.size := by omega
    rw [← Int.natCast_add, ← Int.ofNat_sub hle]
    exact frameCount_mul (Nat.dvd_sub (Nat.dvd_add hgrid.readp hgrid.size) hgrid.fadeStart)
      (by omega)

theorem dur_mul (h : CrossRegion s) : s.durFrames * BYTES_PER_FRAME =
    if s.fadeEnd ≥ s.fadeStart then s.fadeEnd - s.fadeStart
    else s.fadeEnd + s.outputbuf.size - s.fadeStart := by
  obtain ⟨hgrid, hsmall, hsge, hslt, hege, helt⟩ := h
  have hwrap := hgrid.wf.wrap_eq
  rw [Output.durFrames]
  split
  · rename_i hle
    rw [← Int.ofNat_sub hle]
    exact frameCount_mul (Nat.dvd_sub hgrid.fadeEnd hgrid.fadeStart) (by omega)
  · rename_i hlt
    have hle : s.fadeStart ≤ s.fadeEnd + s.outputbuf.size := by omega
    rw [← Int.natCast_add, ← Int.ofNat_sub hle]
    exact frameCount_mul (Nat.dvd_sub (Nat.dvd_add hgrid.fadeEnd hgrid.size) hgrid.fadeStart)
      (by omega)

/-- The incoming part is the length of the fade ahead, around the ring. -/
theorem crossStart_cases (h : CrossRegion s) (hgoing : s.curFrames < s.durFrames) :
    s.crossStart = s.outputbuf.readp + s.durFrames * BYTES_PER_FRAME ∨
      s.crossStart + s.outputbuf.size =
        s.outputbuf.readp + s.durFrames * BYTES_PER_FRAME := by
  have hcur := h.cur_mul
  have hdur := h.dur_mul
  have hlt : s.curFrames * BYTES_PER_FRAME < s.durFrames * BYTES_PER_FRAME :=
    Nat.mul_lt_mul_of_pos_right hgoing (by decide)
  obtain ⟨hgrid, hsmall, hsge, hslt, hege, helt⟩ := h
  have hwrap := hgrid.wf.wrap_eq
  have hlo := hgrid.wf.readp_ge
  have hhi := hgrid.wf.readp_lt
  rw [Output.crossStart]
  split at hcur <;> split at hdur <;> omega

end CrossRegion

namespace Playing

/-- A chunk in a crossfade that goes on, with the frames for it in `outputbuf`. -/
structure Crossfading (x : Playing) : Prop where
  started : x.out.trackStart ≠ some x.out.outputbuf.readp
  active : x.out.fadeReached.fade = .active
  dir : x.out.fadeDir = .cross
  going : x.out.curFrames < x.out.durFrames
  room : x.out.durFrames + x.size < bufUsed x.out.outputbuf / BYTES_PER_FRAME

/-- The frames of a chunk in a fade. -/
def crossFrames (x : Playing) : ℕ :=
  min x.size (x.out.fadeReached.contInFade (x.out.contBeforeFade x.out.contFrames))

/-- Where a sample that is mixed in has to be. -/
structure MixedFrom (s : Output) (k addr : ℕ) : Prop where
  place : addr = s.outputbuf.buf +
    (s.crossStart + k * Build.s16.sampleBytes - s.outputbuf.buf) % s.outputbuf.size
  inside : addr < s.outputbuf.wrap
  ahead : addr = s.outputbuf.buf +
    (s.outputbuf.readp + s.durFrames * BYTES_PER_FRAME + k * Build.s16.sampleBytes -
      s.outputbuf.buf) % s.outputbuf.size

/-- The samples `_apply_cross` mixes in for the chunk of a round. -/
def MixesRight (toGain : ℕ → ℕ → ℤ) (now : ℕ) (answer : ℤ) (x : Playing) : Prop :=
  ∀ frames gainL gainR flags gainIn gainOut ptr,
    .write frames false gainL gainR flags gainIn gainOut ptr ∈
      (round toGain false now answer x).2.1 →
    ∀ (m : Samples .s16) (gIn gOut : BitVec 32), ∀ k < 2 * frames,
      MixedFrom x.out k
        (crossRead x.out.outputbuf gIn gOut ⟨m, x.out.outputbuf.readp, ptr⟩ k)

/-- The incoming part of a chunk begins at or before `wrap`, and ends behind it. -/
def Straddles (x : Playing) : Prop :=
  x.out.crossStart ≤ x.out.outputbuf.wrap ∧
    x.out.outputbuf.wrap < x.out.crossStart + x.crossFrames * BYTES_PER_FRAME

instance (x : Playing) : Decidable (Straddles x) := inferInstanceAs (Decidable (_ ∧ _))

variable {x : Playing} (toGain : ℕ → ℕ → ℤ)

/-- What the chunk of a crossfade is, and what is given to `write_cb` with it. -/
theorem fadeChunk_crossfading (h : Crossfading x) :
    (fadeChunk toGain x x.out.contFrames).1.size = x.size ∧
      (fadeChunk toGain x x.out.contFrames).1.crossPtr = x.out.crossStart ∧
      (fadeChunk toGain x x.out.contFrames).2.1 =
        x.out.fadeReached.contInFade (x.out.contBeforeFade x.out.contFrames) ∧
      (fadeChunk toGain x x.out.contFrames).2.2 = [] := by
  obtain ⟨-, hactive, hdir, hgoing, hroom⟩ := h
  have hcur := x.out.curFrames_fadeReached
  have hdur := x.out.durFrames_fadeReached
  have hnot : ¬ x.out.fadeReached.curFrames ≥ x.out.fadeReached.durFrames := by omega
  have hended : x.out.fadeReached.fadeEnded = (x.out.fadeReached, []) := if_neg hnot
  have hdir' : x.out.fadeReached.fadeDir = .cross := (fadeDir_fadeReached x.out).trans hdir
  have hroom' : bufUsed x.out.fadeReached.outputbuf / BYTES_PER_FRAME >
      x.out.fadeReached.durFrames + x.size := by
    rw [x.out.outputbuf_fadeReached, hdur]
    exact hroom
  have hstart : x.out.fadeReached.fadeEnd + x.out.fadeReached.curFrames * BYTES_PER_FRAME =
      x.out.crossStart := by
    rw [x.out.fadeEnd_fadeReached, hcur, Output.crossStart]
  have hon : ¬ x.out.fadeReached.fade = .inactive := by
    rw [hactive]
    exact fun hoff => (nomatch hoff)
  rw [fadeChunk, if_pos hactive]
  unfold fadeActive
  dsimp only
  rw [hended, if_neg hon, if_neg hnot]
  unfold fadeGains
  simp only [hdir', if_pos hroom']
  exact ⟨trivial, hstart, trivial, trivial⟩

/-- The call of `write_cb` in such a round. -/
theorem round_crossfading (h : Crossfading x) (now : ℕ) (answer : ℤ) :
    ∃ gainL gainR flags gainIn gainOut rest, (round toGain false now answer x).2.1 =
        .write x.crossFrames false gainL gainR flags gainIn gainOut x.out.crossStart :: rest ∧
      (rest = [] ∨ ∃ n, rest = [.consume n]) := by
  obtain ⟨hsize, hptr, hcont, hlog⟩ := fadeChunk_crossfading toGain h
  let y := (fadeChunk toGain x x.out.contFrames).1
  have hround : (round toGain false now answer x).2.1 =
      (writeChunk false answer y (fadeChunk toGain x x.out.contFrames).2.1).2.1 := by
    rw [round, if_neg Bool.false_ne_true, if_neg h.started]
    dsimp only
    rw [hlog, List.nil_append]
  have hgiven : outFrames false y (fadeChunk toGain x x.out.contFrames).2.1 = x.crossFrames := by
    rw [outFrames, if_neg Bool.false_ne_true, hsize, hcont]
    rfl
  have hcall : writeCall false y x.crossFrames = .write x.crossFrames false y.gainL y.gainR
      y.out.channels y.crossGainIn y.crossGainOut x.out.crossStart := by
    rw [writeCall, hptr]
  refine ⟨y.gainL, y.gainR, y.out.channels, y.crossGainIn, y.crossGainOut, ?_⟩
  rw [hround, writeChunk, hgiven, hcall, if_neg Bool.false_ne_true]
  split
  · exact ⟨[], rfl, Or.inl rfl⟩
  · exact ⟨_, rfl, Or.inr ⟨_, rfl⟩⟩

/-- In the terms of the call: which samples are to be right. -/
theorem mixesRight_iff (h : Crossfading x) (now : ℕ) (answer : ℤ) :
    MixesRight toGain now answer x ↔
      ∀ (m : Samples .s16) (gIn gOut : BitVec 32), ∀ k < 2 * x.crossFrames,
        MixedFrom x.out k (crossRead x.out.outputbuf gIn gOut
          ⟨m, x.out.outputbuf.readp, x.out.crossStart⟩ k) := by
  obtain ⟨gainL, gainR, flags, gainIn, gainOut, rest, hobs, hrest⟩ :=
    round_crossfading toGain h now answer
  constructor
  · intro hright
    apply hright x.crossFrames gainL gainR flags gainIn gainOut
    rw [hobs]
    exact List.mem_cons_self ..
  · intro hread frames gL gR fl gI gO ptr hmem
    rw [hobs] at hmem
    rcases List.mem_cons.mp hmem with hcall | hcall
    · cases hcall
      exact hread
    · rcases hrest with rfl | ⟨n, rfl⟩
      · cases hcall
      · cases List.mem_singleton.mp hcall

/-- The frames of a chunk are in `outputbuf`. -/
theorem crossFrames_le (x : Playing) : x.crossFrames ≤ x.size := Nat.min_le_left _ _

/-- An address in the ring, or behind it by less than its size. -/
theorem ring_mod (buf size : ℕ) {p : ℕ} (hlo : buf ≤ p) (hhi : p < buf + size) :
    buf + (p - buf) % size = p := by
  rw [Nat.mod_eq_of_lt (by omega)]
  omega

theorem ring_mod_add (buf size : ℕ) {p : ℕ} (hlo : buf ≤ p) (hhi : p < buf + size) :
    buf + (p + size - buf) % size = p := by
  have hsub : p + size - buf = p - buf + size := by omega
  rw [hsub, Nat.add_mod_right]
  exact ring_mod buf size hlo hhi

/-- Two addresses that are the same around the ring. -/
theorem mod_crossStart (hreg : CrossRegion x.out) (h : Crossfading x) (k : ℕ) :
    (x.out.outputbuf.readp + x.out.durFrames * BYTES_PER_FRAME + k - x.out.outputbuf.buf) %
        x.out.outputbuf.size =
      (x.out.crossStart + k - x.out.outputbuf.buf) % x.out.outputbuf.size := by
  have hge := hreg.end_ge
  have hle : x.out.fadeEnd ≤ x.out.crossStart := Nat.le_add_right _ _
  rcases hreg.crossStart_cases h.going with hsame | hround
  · rw [hsame]
  · have hadd : x.out.outputbuf.readp + x.out.durFrames * BYTES_PER_FRAME + k -
        x.out.outputbuf.buf =
          x.out.crossStart + k - x.out.outputbuf.buf + x.out.outputbuf.size := by omega
    rw [hadd, Nat.add_mod_right]

/-- What is used holds the fade and the chunk. -/
theorem crossfading_fits (hreg : CrossRegion x.out) (h : Crossfading x) :
    x.out.durFrames * BYTES_PER_FRAME + x.crossFrames * BYTES_PER_FRAME <
      x.out.outputbuf.size := by
  have hroom := h.room
  have hframes := crossFrames_le x
  have hused := hreg.grid.wf.used_lt
  have hdiv := Nat.div_mul_le_self (bufUsed x.out.outputbuf) BYTES_PER_FRAME
  have hmul := Nat.mul_le_mul_right BYTES_PER_FRAME
    (show x.out.durFrames + x.crossFrames ≤ bufUsed x.out.outputbuf / BYTES_PER_FRAME by omega)
  rw [Nat.add_mul] at hmul
  omega

section Reads

variable (m : Samples .s16) (gIn gOut : BitVec 32)

/-- The sample after `k`, of a chunk of a crossfade. -/
theorem crossRead_clear (hreg : CrossRegion x.out) (h : Crossfading x) (hclear : ¬ Straddles x)
    {k : ℕ} (hk : k < 2 * x.crossFrames) :
    MixedFrom x.out k
      (crossRead x.out.outputbuf gIn gOut ⟨m, x.out.outputbuf.readp, x.out.crossStart⟩ k) := by
  have hmod := mod_crossStart hreg h (k * Build.s16.sampleBytes)
  have hcases := hreg.crossStart_cases h.going
  have hfits := crossfading_fits hreg h
  have hle : x.out.fadeEnd ≤ x.out.crossStart := Nat.le_add_right _ _
  have hwf := hreg.grid.wf
  have hwrap := hwf.wrap_eq
  have hread := hwf.readp_ge
  have hread' := hwf.readp_lt
  have hsteps : k * Build.s16.sampleBytes = k * 2 := rfl
  have hlen : x.crossFrames * BYTES_PER_FRAME = x.crossFrames * 4 := rfl
  have hstart := hreg.end_ge
  rw [Straddles, not_and_or] at hclear
  let c : Crossing .s16 := ⟨m, x.out.outputbuf.readp, x.out.crossStart⟩
  by_cases hbefore : x.out.crossStart ≤ x.out.outputbuf.wrap
  · -- it ends before the end of the ring
    have hzero : crossRead x.out.outputbuf gIn gOut c 0 = x.out.crossStart := crossBack_of_le hbefore
    have hwalk := crossRead_walk gIn gOut (x := c) (k := k) (b := x.out.outputbuf) (by omega)
    rw [hzero] at hwalk
    have hplace := ring_mod x.out.outputbuf.buf x.out.outputbuf.size
      (p := x.out.crossStart + k * Build.s16.sampleBytes) (by omega) (by omega)
    have hinside : crossRead x.out.outputbuf gIn gOut c k < x.out.outputbuf.wrap := by omega
    exact ⟨by rw [hwalk, hplace], hinside, by rw [hwalk, hmod, hplace]⟩
  · -- it begins behind, and ends before `readp`
    have hzero : crossRead x.out.outputbuf gIn gOut c 0 =
        x.out.crossStart - x.out.outputbuf.size :=
      crossBack_of_lt hreg.grid.size (Nat.lt_of_not_le hbefore)
    have hwalk := crossRead_walk gIn gOut (x := c) (k := k) (b := x.out.outputbuf) (by omega)
    rw [hzero] at hwalk
    have hplace := ring_mod_add x.out.outputbuf.buf x.out.outputbuf.size
      (p := x.out.crossStart - x.out.outputbuf.size + k * Build.s16.sampleBytes) (by omega)
      (by omega)
    have hsum : x.out.crossStart - x.out.outputbuf.size + k * Build.s16.sampleBytes +
        x.out.outputbuf.size = x.out.crossStart + k * Build.s16.sampleBytes := by omega
    rw [hsum] at hplace
    have hinside : crossRead x.out.outputbuf gIn gOut c k < x.out.outputbuf.wrap := by omega
    exact ⟨by rw [hwalk, hplace], hinside, by rw [hwalk, hmod, hplace]⟩

/-- Where the incoming part straddles the end of the ring, a sample is read from behind it. -/
theorem crossRead_straddles (hreg : CrossRegion x.out) (hstraddles : Straddles x) :
    ∃ k < 2 * x.crossFrames, crossRead x.out.outputbuf gIn gOut
      ⟨m, x.out.outputbuf.readp, x.out.crossStart⟩ k = x.out.outputbuf.wrap := by
  obtain ⟨hbefore, hbehind⟩ := hstraddles
  have hdvd : BYTES_PER_FRAME ∣ x.out.crossStart :=
    Nat.dvd_add hreg.grid.fadeEnd (Nat.dvd_mul_left _ _)
  have hdvdw : BYTES_PER_FRAME ∣ x.out.outputbuf.wrap := by
    rw [hreg.grid.wf.wrap_eq]
    exact Nat.dvd_add hreg.grid.buf hreg.grid.size
  obtain ⟨d, hd⟩ := Nat.dvd_sub hdvdw hdvd
  have hsteps : 2 * d * Build.s16.sampleBytes = 2 * d * 2 := rfl
  have hdist : BYTES_PER_FRAME * d = 4 * d := rfl
  have hlen : x.crossFrames * BYTES_PER_FRAME = x.crossFrames * 4 := rfl
  let c : Crossing .s16 := ⟨m, x.out.outputbuf.readp, x.out.crossStart⟩
  have hzero : crossRead x.out.outputbuf gIn gOut c 0 = x.out.crossStart := crossBack_of_le hbefore
  have hwalk := crossRead_walk gIn gOut (x := c) (k := 2 * d) (b := x.out.outputbuf) (by omega)
  have hend : crossRead x.out.outputbuf gIn gOut c (2 * d) = x.out.outputbuf.wrap := by omega
  exact ⟨2 * d, by omega, hend⟩

end Reads

/-- The samples of a chunk are mixed from where they should exactly if its incoming part does not
straddle the end of the ring. -/
theorem mixesRight_iff_not_straddles (hreg : CrossRegion x.out) (h : Crossfading x) (now : ℕ)
    (answer : ℤ) : MixesRight toGain now answer x ↔ ¬ Straddles x := by
  rw [mixesRight_iff toGain h]
  constructor
  · intro hright hstraddles
    obtain ⟨k, hk, hend⟩ := crossRead_straddles (fun _ => 0) 0 0 hreg hstraddles
    have hinside := (hright (fun _ => 0) 0 0 k hk).inside
    omega
  · exact fun hclear m gIn gOut k hk => crossRead_clear m gIn gOut hreg h hclear hk

/-! ### A call -/

/-- The ends of a fade are left alone, and so is its direction. -/
structure SameFade (s s' : Output) : Prop where
  start : s'.fadeStart = s.fadeStart
  finish : s'.fadeEnd = s.fadeEnd
  dir : s'.fadeDir = s.fadeDir

theorem SameFade.trans {s₁ s₂ s₃ : Output} (h : SameFade s₁ s₂) (h' : SameFade s₂ s₃) :
    SameFade s₁ s₃ :=
  ⟨h'.start.trans h.start, h'.finish.trans h.finish, h'.dir.trans h.dir⟩

theorem sameFade_startTrack (s : Output) (now : ℕ) : SameFade s (s.startTrack now).1 := by
  unfold Output.startTrack
  split
  · exact ⟨rfl, rfl, rfl⟩
  · exact ⟨rfl, rfl, rfl⟩

theorem sameFade_fadeReached (s : Output) : SameFade s s.fadeReached := by
  unfold Output.fadeReached
  split
  · exact ⟨rfl, rfl, rfl⟩
  · exact ⟨rfl, rfl, rfl⟩

/-- A crossfade does not begin anew. -/
theorem sameFade_fadeEnded {s : Output} (h : s.fadeDir = .cross) : SameFade s s.fadeEnded.1 := by
  have hnot : ¬ (s.fadeMode = .inOut ∧ s.fadeDir = .down) := by
    rw [h]
    exact fun hdown => (nomatch hdown.2)
  unfold Output.fadeEnded Output.fadeComplete
  rw [if_neg hnot]
  split
  · split
    · split
      · exact ⟨rfl, rfl, rfl⟩
      · exact ⟨rfl, rfl, rfl⟩
    · exact ⟨rfl, rfl, rfl⟩
  · exact ⟨rfl, rfl, rfl⟩

theorem sameFade_fadeGains (x : Playing) (cur dur : ℕ) :
    SameFade x.out (fadeGains toGain x cur dur).out := by
  unfold fadeGains
  split
  · exact ⟨rfl, rfl, rfl⟩
  · exact ⟨rfl, rfl, rfl⟩
  · split
    · exact ⟨rfl, rfl, rfl⟩
    · exact ⟨rfl, rfl, rfl⟩

theorem sameFade_fadeChunk (h : x.out.fadeDir = .cross) (cont : ℕ) :
    SameFade x.out (fadeChunk toGain x cont).1.out := by
  have hreached := sameFade_fadeReached x.out
  have hended := sameFade_fadeEnded (hreached.dir.trans h)
  unfold fadeChunk fadeActive
  split
  · split
    · exact hreached.trans hended
    · let y : Playing := { x with out := x.out.fadeReached.fadeEnded.1 }
      exact (hreached.trans hended).trans (sameFade_fadeGains toGain y _ _)
  · exact hreached

theorem sameFade_writeChunk (answer : ℤ) (x : Playing) (cont : ℕ) :
    SameFade x.out (writeChunk false answer x cont).1.out := by
  unfold writeChunk
  rw [if_neg Bool.false_ne_true]
  split
  · exact ⟨rfl, rfl, rfl⟩
  · exact ⟨rfl, rfl, rfl⟩

theorem sameFade_round (h : x.out.fadeDir = .cross) (now : ℕ) (answer : ℤ) :
    SameFade x.out (round toGain false now answer x).1.out := by
  unfold round
  rw [if_neg Bool.false_ne_true]
  split
  · exact sameFade_startTrack x.out now
  · exact (sameFade_fadeChunk toGain h _).trans (sameFade_writeChunk answer _ _)

/-- There is no crossfade after a round where there was none before. -/
theorem round_fadeDir {now : ℕ} {answer : ℤ}
    (h : (round toGain false now answer x).1.out.fadeDir = .cross) : x.out.fadeDir = .cross := by
  by_contra hdir
  obtain ⟨-, hnext, -⟩ := rounded toGain true false now answer hdir
  by_cases htrack : x.out.trackStart = some x.out.outputbuf.readp
  · have hsame := sameFade_startTrack x.out now
    have hround : (round toGain false now answer x).1.out = (x.out.startTrack now).1 := by
      rw [round, if_neg Bool.false_ne_true, if_pos htrack]
    rw [hround, hsame.dir] at h
    exact hdir h
  · exact (hnext _ (if_neg htrack)).fadeDir h

/-- The part of the ring that a crossfade is in is left alone. -/
theorem crossRegion_moved {s s' : Output} (h : CrossRegion s) (hgrid : Grid s') {n : ℕ}
    (hbuf : s'.outputbuf = s.outputbuf.taken n) (hstart : s'.fadeStart = s.fadeStart)
    (hend : s'.fadeEnd = s.fadeEnd) : CrossRegion s' := by
  obtain ⟨-, hsmall, hsge, hslt, hege, helt⟩ := h
  have hsize : s'.outputbuf.size = s.outputbuf.size := by rw [hbuf]; rfl
  have hlo : s'.outputbuf.buf = s.outputbuf.buf := by rw [hbuf]; rfl
  have hwrap : s'.outputbuf.wrap = s.outputbuf.wrap := by rw [hbuf]; rfl
  exact ⟨hgrid, by rwa [hsize], by rwa [hlo, hstart], by rwa [hwrap, hstart], by rwa [hlo, hend],
    by rwa [hwrap, hend]⟩

theorem crossRegion_rounds (now fuel : ℕ) : ∀ {answers : ℕ → ℤ} {x : Playing}, Grid x.out →
    (x.out.fadeDir = .cross → CrossRegion x.out) →
    ∀ y ∈ rounds toGain false now fuel answers x, y.out.fadeDir = .cross → CrossRegion y.out := by
  induction fuel with
  | zero => exact fun _ _ y hy => (nomatch hy)
  | succ fuel ih =>
    intro answers x hgrid hreg y hy
    rw [rounds] at hy
    split at hy
    · cases hy
    · split at hy
      · rcases List.mem_cons.mp hy with rfl | hy
        · exact hreg
        · have hnone : False → (x.size : ℤ) ≤ answers 0 := fun hfalse => hfalse.elim
          have htook := took_round toGain now hgrid hnone
          refine ih htook.grid (fun hcross => ?_) y hy
          have hdir := round_fadeDir toGain hcross
          have hsame := sameFade_round toGain hdir now (answers 0)
          exact crossRegion_moved (hreg hdir) htook.grid htook.outputbuf hsame.start hsame.finish
      · cases List.mem_singleton.mp hy
        exact hreg

/-- A call with frames begins with a round. -/
theorem mem_rounds {silence : Bool} {now fuel : ℕ} {answers : ℕ → ℤ} (hfuel : fuel ≠ 0)
    (hsize : x.size ≠ 0) : x ∈ rounds toGain silence now fuel answers x := by
  cases fuel with
  | zero => exact absurd rfl hfuel
  | succ fuel =>
    rw [rounds, if_neg hsize]
    split
    · exact List.mem_cons_self ..
    · exact List.mem_singleton_self _

end Playing

/-- The rounds of a call that plays. -/
def Output.playedRounds (toGain : ℕ → ℕ → ℤ) (s : Output) (avail now : ℕ) (answers : ℕ → ℤ) :
    List Playing :=
  if (s.beginFrames avail now).2.2 then [] else s.rounds toGain avail now answers

/-- All samples that are mixed in, in a call, are from where they should exactly if no chunk's
incoming part straddles the end of the ring. -/
theorem crossfade_positions_iff {s : Output} (h : CrossRegion s) (toGain : ℕ → ℕ → ℤ)
    (avail now : ℕ) (answers : ℕ → ℤ) :
    (∀ x ∈ s.playedRounds toGain avail now answers, x.Crossfading →
        ∀ answer, x.MixesRight toGain now answer) ↔
      ∀ x ∈ s.playedRounds toGain avail now answers, x.Crossfading → ¬ x.Straddles := by
  refine forall₂_congr fun x hx => forall_congr' fun hcross => ?_
  have hreg : CrossRegion x.out := by
    unfold Output.playedRounds at hx
    split at hx
    · cases hx
    · rename_i hloud
      have hbegun := begun_beginFrames h.grid avail now
      have hstart := Playing.crossRegion_moved h hbegun.grid hbegun.outputbuf hbegun.marks.fadeStart
        hbegun.marks.fadeEnd
      rw [Output.rounds, Bool.eq_false_of_not_eq_true hloud] at hx
      exact Playing.crossRegion_rounds toGain now _ hbegun.grid (fun _ => hstart) x hx hcross.dir
  constructor
  · exact fun hright => (Playing.mixesRight_iff_not_straddles toGain hreg hcross now 0).mp (hright 0)
  · exact fun hclear answer =>
      (Playing.mixesRight_iff_not_straddles toGain hreg hcross now answer).mpr hclear

/-- A ring of sixteen frames, with a crossfade of eight that is at its third. -/
def crossfading : Output :=
  { outputInit ⟨0, fun _ => 0⟩ 64 44100 0 false with
    state := .running
    fade := .active
    fadeDir := .cross
    fadeMode := .crossfade
    fadeStart := 16
    fadeEnd := 48
    outputbuf := { bufInit ⟨0, fun _ => 0⟩ 64 with readp := 24, writep := 20 } }

theorem crossRegion_crossfading : CrossRegion crossfading where
  grid := ⟨⟨by decide, by decide, by decide, by decide, by decide, by decide, by decide⟩,
    by decide, by decide, by decide, by decide, by decide, fun _ hp => (nomatch hp), by decide,
    by decide⟩
  small := by decide
  start_ge := by decide
  start_lt := by decide
  end_ge := by decide
  end_lt := by decide

/-- Two frames are two frames before the end of the ring ... -/
theorem crossfade_two :
    0 < (crossfading.playedRounds (fun _ _ => 0) 2 0 (fun _ => 2)).length ∧
      ∀ x ∈ crossfading.playedRounds (fun _ _ => 0) 2 0 (fun _ => 2),
        x.Crossfading → ∀ answer, x.MixesRight (fun _ _ => 0) 0 answer := by
  refine ⟨by decide, ?_⟩
  have hall : ∀ x ∈ crossfading.playedRounds (fun _ _ => 0) 2 0 (fun _ => 2), ¬ x.Straddles := by
    decide
  exact (crossfade_positions_iff crossRegion_crossfading (fun _ _ => 0) 2 0 (fun _ => 2)).mpr
    fun x hx _ => hall x hx

/-- ... and the third is mixed from behind it. -/
theorem crossfade_three : ¬ ∀ x ∈ crossfading.playedRounds (fun _ _ => 0) 3 0 (fun _ => 3),
    x.Crossfading → ∀ answer, x.MixesRight (fun _ _ => 0) 0 answer := by
  intro h
  let x := crossfading.playing (crossfading.beginFrames 3 0).1 (crossfading.beginFrames 3 0).2.1
  have hout : x.out = crossfading := rfl
  have hmem : x ∈ crossfading.playedRounds (fun _ _ => 0) 3 0 (fun _ => 3) := by
    have hloud : (crossfading.beginFrames 3 0).2.2 = false := by decide
    rw [Output.playedRounds, if_neg (by rw [hloud]; exact Bool.false_ne_true)]
    exact Playing.mem_rounds _ (by decide) (by decide)
  have hcross : x.Crossfading :=
    ⟨by decide, by decide, by decide, by decide, by decide⟩
  have hclear := (Playing.mixesRight_iff_not_straddles (fun _ _ => 0)
    (hout ▸ crossRegion_crossfading) hcross 0 0).mp (h x hmem hcross 0)
  exact hclear (by decide)

end SqueezeliteMuse
