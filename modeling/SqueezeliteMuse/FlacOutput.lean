/-
SqueezeliteMuse/FlacOutput.lean

`write_cb` of flac.c.

A decoded block goes to `outputbuf`, or to the buffer of the processing stage, in rounds that take
what fits.  With `outputbuf` a round that takes nothing leaves everything as it is, and the loop
goes on for ever, with the mutex of the buffer.  With the processing stage every round begins at
the start of its buffer.  Samples of other sizes than 8, 16, 24 and 32 bits are not written, but
counted.

Main result: `writeCb_iff`: a block is handed over, whatever was in memory before, if and only if
its samples have one of these sizes and there is room for all of them.
-/
import SqueezeliteMuse.Gain
import SqueezeliteMuse.Lib.Loop

namespace SqueezeliteMuse

/-! ### Samples in memory -/

/-- The bytes of a sample, the lowest one first. -/
def sampleLE (w : Build) (v : BitVec w.bits) : List UInt8 :=
  (List.range w.sampleBytes).map fun i => UInt8.ofNat (v.toNat >>> (8 * i))

/-- The bytes of a frame. -/
def frameLE (w : Build) (f : BitVec w.bits × BitVec w.bits) : List UInt8 :=
  sampleLE w f.1 ++ sampleLE w f.2

theorem length_frameLE (w : Build) (f : BitVec w.bits × BitVec w.bits) :
    (frameLE w f).length = w.frameBytes := by
  simp [frameLE, sampleLE, frameBytes_eq]

/-- The bytes of frames. -/
def framesLE (w : Build) (fs : List (BitVec w.bits × BitVec w.bits)) : List UInt8 :=
  fs.flatMap (frameLE w)

theorem length_framesLE (w : Build) (fs : List (BitVec w.bits × BitVec w.bits)) :
    (framesLE w fs).length = fs.length * w.frameBytes := by
  induction fs with
  | nil => exact (Nat.zero_mul _).symm
  | cons f fs ih =>
    rw [framesLE, List.flatMap_cons, List.length_append, length_frameLE, ← framesLE, ih,
      List.length_cons, Nat.succ_mul, Nat.add_comm]

theorem framesLE_append (w : Build) (fs fs' : List (BitVec w.bits × BitVec w.bits)) :
    framesLE w (fs ++ fs') = framesLE w fs ++ framesLE w fs' :=
  List.flatMap_append ..

namespace Flac

/-! ### The code -/

/-- What `write_cb` reads of `FLAC__Frame`, and the samples of the channels. -/
structure Frame where
  blocksize : ℕ
  bitsPerSample : ℕ
  channels : ℕ
  buffer : ℕ → ℕ → BitVec 32

/-- `ALIGN8`, `ALIGN16`, `ALIGN24` and `ALIGN32`, for the sizes that are switched on. -/
def alignInt (w : Build) (bitsPerSample : ℕ) (n : BitVec 32) : Option (BitVec 32) :=
  match w, bitsPerSample with
  | .s16, 8 => some (n <<< 8)
  | .s16, 16 => some n
  | .s16, 24 => some (n.sshiftRight 8)
  | .s16, 32 => some (n.sshiftRight 16)
  | .s32, 8 => some (n <<< 24)
  | .s32, 16 => some (n <<< 16)
  | .s32, 24 => some (n <<< 8)
  | .s32, 32 => some n
  | _, _ => none

/-- The same, stored in an `ISAMPLE_T`. -/
def align (w : Build) (bitsPerSample : ℕ) (n : BitVec 32) : Option (BitVec w.bits) :=
  (alignInt w bitsPerSample n).map fun v => v.setWidth w.bits

variable (w : Build) (frame : Frame)

/-- `lptr` and `rptr`, at a sample. -/
def Frame.left (i : ℕ) : BitVec 32 := frame.buffer 0 i

def Frame.right (i : ℕ) : BitVec 32 := frame.buffer (if frame.channels > 1 then 1 else 0) i

/-- The frame that is made of the samples, if they are written. -/
def Frame.out (i : ℕ) : Option (BitVec w.bits × BitVec w.bits) :=
  (align w frame.bitsPerSample (frame.left i)).bind fun l =>
    (align w frame.bitsPerSample (frame.right i)).map fun r => (l, r)

/-- So many frames from a sample on. -/
def Frame.slice (done count : ℕ) : List (BitVec w.bits × BitVec w.bits) :=
  (List.range count).filterMap fun k => frame.out w (done + k)

/-- The loop, direct: `outputbuf` and the frames that are written. -/
structure Direct where
  outputbuf : Buffer
  done : ℕ

/-- `f`, direct. -/
def Direct.fits (s : Direct) : ℕ :=
  min (min (bufSpace s.outputbuf) (bufContWrite s.outputbuf) / w.frameBytes)
    (frame.blocksize - s.done)

/-- A round, direct. -/
def directRound (s : Direct) : Buffer ⊕ Direct :=
  if frame.blocksize - s.done > 0 then
    let f := s.fits w frame
    .inr {
      outputbuf := bufIncWritep
        (bufStore s.outputbuf (framesLE w (frame.slice w s.done f))) (f * w.frameBytes)
      done := s.done + f }
  else .inl s.outputbuf

/-- What is used of `process`: the samples at `inbuf`, and how many frames there are. -/
structure Process where
  inbuf : Samples w
  inFrames : ℕ

/-- The loop, with the processing stage. -/
structure Staged where
  process : Process w
  done : ℕ

variable {w}

/-- The frames of a list, from the start of `inbuf` on. -/
def Process.put (p : Process w) (fs : List (BitVec w.bits × BitVec w.bits)) : Process w :=
  { p with inbuf := fun i =>
      match fs[i / 2]? with
      | some f => if i % 2 = 0 then f.1 else f.2
      | none => p.inbuf i }

variable (w)

/-- A round, with the processing stage; `maxInFrames` is `process.max_in_frames`. -/
def stagedRound (maxInFrames : ℕ) (s : Staged w) : Process w ⊕ Staged w :=
  if frame.blocksize - s.done > 0 then
    let f := min maxInFrames (frame.blocksize - s.done)
    .inr {
      process := { s.process.put (frame.slice w s.done f) with inFrames := f }
      done := s.done + f }
  else .inl s.process

/-! ### What is required -/

/-- The sample, left-justified to the width of the build. -/
def leftJustified (bitsPerSample : ℕ) (n : BitVec 32) : BitVec w.bits :=
  (n <<< (32 - bitsPerSample)).extractLsb' (32 - w.bits) w.bits

/-- The frame for a decoded sample. -/
def Frame.wanted (i : ℕ) : BitVec w.bits × BitVec w.bits :=
  (leftJustified w frame.bitsPerSample (frame.left i),
    leftJustified w frame.bitsPerSample (frame.right i))

/-- The frames for the block. -/
def Frame.block : List (BitVec w.bits × BitVec w.bits) :=
  (List.range frame.blocksize).map (frame.wanted w)

/-- The block is behind what was in `outputbuf`, and nothing else is written. -/
def HandsOverDirect (b : Buffer) : Prop :=
  ∃ n b', Loop.run (directRound w frame) n ⟨b, 0⟩ = some b' ∧
    b'.content = b.content ++ framesLE w (frame.block w) ∧ ∀ i, b.size ≤ i → b'.mem i = b.mem i

/-- The block is in the buffer of the processing stage, and nothing is written behind it. -/
def HandsOverStaged (maxInFrames : ℕ) (p : Process w) : Prop :=
  ∃ n p', Loop.run (stagedRound w frame maxInFrames) n ⟨p, 0⟩ = some p' ∧
    p'.inFrames = frame.blocksize ∧
    (∀ i < frame.blocksize, (p'.inbuf (2 * i), p'.inbuf (2 * i + 1)) = frame.wanted w i) ∧
    ∀ i, 2 * maxInFrames ≤ i → p'.inbuf i = p.inbuf i

/-- Where a block goes. -/
inductive Target
  | direct (outputbuf : Buffer)
  | staged (maxInFrames : ℕ)

/-- The block is handed over, whatever is in memory. -/
def HandsOver : Target → Prop
  | .direct b => ∀ m, HandsOverDirect w frame { b with mem := m }
  | .staged maxInFrames => ∀ p, HandsOverStaged w frame maxInFrames p

/-- The sizes that are switched on. -/
def Supported (bitsPerSample : ℕ) : Prop :=
  bitsPerSample = 8 ∨ bitsPerSample = 16 ∨ bitsPerSample = 24 ∨ bitsPerSample = 32

instance (n : ℕ) : Decidable (Supported n) := inferInstanceAs (Decidable (_ ∨ _))

/-- The whole frames that fit: up to the end of the buffer, and from its start on if they come to
the end exactly. -/
def room (b : Buffer) : ℕ :=
  min (bufSpace b) (bufContWrite b) / w.frameBytes +
    if bufContWrite b ≤ bufSpace b ∧ w.frameBytes ∣ bufContWrite b then
      (bufSpace b - bufContWrite b) / w.frameBytes
    else 0

/-- The frames for which there is room. -/
def Target.room : Target → ℕ
  | .direct b => Flac.room w b
  | .staged maxInFrames => maxInFrames

/-- `outputbuf` is a buffer. -/
def Target.Wf : Target → Prop
  | .direct b => b.Wf
  | .staged _ => True

/-! ### Samples -/

variable {w} {frame}

theorem align_supported {bits : ℕ} (h : Supported bits) (n : BitVec 32) :
    align w bits n = some (leftJustified w bits n) := by
  rcases h with rfl | rfl | rfl | rfl <;> cases w <;>
    refine congrArg some (BitVec.eq_of_getLsbD_eq fun i hi => ?_) <;>
    simp only [leftJustified, Build.bits, BitVec.getLsbD_setWidth, BitVec.getLsbD_extractLsb',
      BitVec.getLsbD_shiftLeft, BitVec.getLsbD_sshiftRight] at hi ⊢ <;>
    grind

theorem align_unsupported {bits : ℕ} (h : ¬ Supported bits) (n : BitVec 32) :
    align w bits n = none := by
  rw [align, alignInt]
  · rfl
  all_goals
    intro _ hbits
    exact h (hbits ▸ by decide)

theorem slice_supported (h : Supported frame.bitsPerSample) (done count : ℕ) :
    frame.slice w done count = (List.range count).map fun k => frame.wanted w (done + k) := by
  rw [Frame.slice, ← List.filterMap_eq_map]
  refine List.filterMap_congr fun k _ => ?_
  rw [Frame.out, align_supported h, align_supported h]
  rfl

theorem slice_unsupported (h : ¬ Supported frame.bitsPerSample) (done count : ℕ) :
    frame.slice w done count = [] := by
  refine List.filterMap_eq_nil_iff.mpr fun k _ => ?_
  rw [Frame.out, align_unsupported h]
  rfl

theorem length_slice (h : Supported frame.bitsPerSample) (done count : ℕ) :
    (frame.slice w done count).length = count := by
  rw [slice_supported h, List.length_map, List.length_range]

theorem frameBytes_pos (w : Build) : 0 < w.frameBytes := by cases w <;> decide

/-! ### The room of a buffer -/

section Room

variable {b : Buffer}

/-- What is left when `n` bytes are stored: they end before the contiguous space does, or there. -/
theorem append_cases (h : b.Wf) {n : ℕ} (hn : n ≤ min (bufSpace b) (bufContWrite b))
    (bs : List UInt8) :
    bufSpace (bufIncWritep (bufStore b bs) n) = bufSpace b - n ∧
      (n < bufContWrite b ∧
          bufContWrite (bufIncWritep (bufStore b bs) n) = bufContWrite b - n ∨
        n = bufContWrite b ∧
          bufSpace (bufIncWritep (bufStore b bs) n) <
            bufContWrite (bufIncWritep (bufStore b bs) n)) := by
  obtain ⟨_, _, _, _, _, -, -⟩ := h
  obtain ⟨p, hnext, hcases⟩ : ∃ p,
      (if b.writep + n ≥ b.wrap then b.writep + n - b.size else b.writep + n) = p ∧
      (p = b.writep + n ∧ b.writep + n < b.wrap ∨
        p + b.size = b.writep + n ∧ b.wrap ≤ b.writep + n ∧ b.buf ≤ p) := by
    refine ⟨_, rfl, ?_⟩
    split <;> omega
  have hp : (bufIncWritep (bufStore b bs) n).writep = p := hnext
  have hreadp : (bufIncWritep (bufStore b bs) n).readp = b.readp := rfl
  have hsize : (bufIncWritep (bufStore b bs) n).size = b.size := rfl
  have hwrap : (bufIncWritep (bufStore b bs) n).wrap = b.wrap := rfl
  simp only [bufSpace, bufUsed, bufContWrite, hp, hreadp, hsize, hwrap] at hn ⊢
  split at hn <;> split <;> omega

/-- The pointers do not depend on what is stored. -/
theorem wf_advance (h : b.Wf) {n : ℕ} (hn : n ≤ min (bufSpace b) (bufContWrite b))
    (bs : List UInt8) : (bufIncWritep (bufStore b bs) n).Wf := by
  have hlen := List.length_replicate (n := n) (a := (0 : UInt8))
  have hzero := @wf_bufAppend _ h (List.replicate _ 0) (hlen.symm ▸ hn)
  rw [hlen] at hzero
  exact ⟨hzero.1, hzero.2, hzero.3, hzero.4, hzero.5, hzero.6, hzero.7⟩

theorem used_advance (h : b.Wf) {n : ℕ} (hn : n ≤ min (bufSpace b) (bufContWrite b))
    (bs : List UInt8) : bufUsed (bufIncWritep (bufStore b bs) n) = bufUsed b + n := by
  have hlen := List.length_replicate (n := n) (a := (0 : UInt8))
  have hzero := @used_bufAppend _ h (List.replicate _ 0) (hlen.symm ▸ hn)
  rw [hlen] at hzero
  exact hzero

/-- Frames that are stored are what there is less room for. -/
theorem room_append (h : b.Wf) {f : ℕ}
    (hf : f ≤ min (bufSpace b) (bufContWrite b) / w.frameBytes) (bs : List UInt8) :
    room w (bufIncWritep (bufStore b bs) (f * w.frameBytes)) = room w b - f := by
  have hpos := frameBytes_pos w
  have hn : f * w.frameBytes ≤ min (bufSpace b) (bufContWrite b) :=
    (Nat.le_div_iff_mul_le hpos).mp hf
  have hdvd : w.frameBytes ∣ f * w.frameBytes := Nat.dvd_mul_left _ _
  obtain ⟨hspace, ⟨hlt, hcont⟩ | ⟨heq, hmore⟩⟩ := append_cases h hn bs
  · -- the end of the buffer is as far from the end of the space as before
    have hmin : min (bufSpace b - f * w.frameBytes) (bufContWrite b - f * w.frameBytes) =
        min (bufSpace b) (bufContWrite b) - f * w.frameBytes := by omega
    have hle : bufContWrite b - f * w.frameBytes ≤ bufSpace b - f * w.frameBytes ↔
        bufContWrite b ≤ bufSpace b := by omega
    have hgap : bufSpace b - f * w.frameBytes - (bufContWrite b - f * w.frameBytes) =
        bufSpace b - bufContWrite b := by omega
    have hwhole : w.frameBytes ∣ bufContWrite b - f * w.frameBytes ↔
        w.frameBytes ∣ bufContWrite b := Nat.dvd_sub_iff_left (Nat.le_of_lt hlt) hdvd
    rw [room, room, hspace, hcont, hmin, Nat.mul_comm f, Nat.sub_mul_div, Nat.mul_comm _ f]
    simp only [hle, hwhole, hgap]
    omega
  · -- the end of the buffer is reached
    have hle : bufContWrite b ≤ bufSpace b := by omega
    have hmin : min (bufSpace b) (bufContWrite b) = f * w.frameBytes := by omega
    have hmin' := Nat.min_eq_left (Nat.le_of_lt hmore)
    rw [room, room, if_neg (fun hboth => absurd hboth.1 (Nat.not_le.mpr hmore)), hmin', hspace,
      if_pos ⟨hle, heq ▸ hdvd⟩, hmin, Nat.mul_div_cancel _ hpos, ← heq, Nat.add_sub_cancel_left,
      Nat.add_zero]

/-- Without room for a frame up to the end there is no room. -/
theorem fits_pos (h : b.Wf) (hroom : 0 < room w b) :
    0 < min (bufSpace b) (bufContWrite b) / w.frameBytes := by
  rw [room] at hroom
  split at hroom
  case isFalse => exact hroom
  case isTrue hboth =>
    rw [Nat.min_eq_right hboth.1]
    exact Nat.div_pos (Nat.le_of_dvd h.contWrite_pos hboth.2) (frameBytes_pos w)

end Room

/-! ### To the output buffer -/

section Direct

variable {s : Direct}

theorem directRound_stay (h : s.done < frame.blocksize) :
    directRound w frame s = .inr {
      outputbuf := bufIncWritep (bufStore s.outputbuf
        (framesLE w (frame.slice w s.done (s.fits w frame)))) (s.fits w frame * w.frameBytes)
      done := s.done + s.fits w frame } :=
  if_pos (Nat.sub_pos_of_lt h)

theorem directRound_end (h : ¬ s.done < frame.blocksize) :
    directRound w frame s = .inl s.outputbuf :=
  if_neg fun hpos => h (Nat.lt_of_sub_pos hpos)

/-- While there is room for the rest: the frames so far are behind what was there. -/
structure Filling (w : Build) (frame : Frame) (b : Buffer) (s : Direct) : Prop where
  wf : s.outputbuf.Wf
  size : s.outputbuf.size = b.size
  done : s.done ≤ frame.blocksize
  content : s.outputbuf.content =
    b.content ++ framesLE w ((List.range s.done).map (frame.wanted w))
  room : frame.blocksize - s.done ≤ Flac.room w s.outputbuf
  behind : ∀ i, b.size ≤ i → s.outputbuf.mem i = b.mem i

theorem Filling.round {b : Buffer} (h : Filling w frame b s)
    (hbits : Supported frame.bitsPerSample) (hlt : s.done < frame.blocksize) :
    ∃ s', directRound w frame s = .inr s' ∧ Filling w frame b s' ∧
      frame.blocksize - s'.done < frame.blocksize - s.done := by
  refine ⟨_, directRound_stay hlt, ?_⟩
  have hfits := fits_pos h.wf (Nat.lt_of_lt_of_le (Nat.sub_pos_of_lt hlt) h.room)
  have hle : s.fits w frame ≤
      min (bufSpace s.outputbuf) (bufContWrite s.outputbuf) / w.frameBytes := Nat.min_le_left ..
  have hleft : s.fits w frame ≤ frame.blocksize - s.done := Nat.min_le_right ..
  have hpos : 0 < s.fits w frame := Nat.lt_min.mpr ⟨hfits, Nat.sub_pos_of_lt hlt⟩
  have hroom := room_append h.wf hle (framesLE w (frame.slice w s.done (s.fits w frame)))
  generalize s.fits w frame = f at hle hleft hpos hroom ⊢
  have hlen : (framesLE w (frame.slice w s.done f)).length = f * w.frameBytes := by
    rw [length_framesLE, length_slice hbits]
  have hbytes : (framesLE w (frame.slice w s.done f)).length ≤
      min (bufSpace s.outputbuf) (bufContWrite s.outputbuf) :=
    hlen.symm ▸ (Nat.le_div_iff_mul_le (frameBytes_pos w)).mp hle
  rw [← hlen] at hroom ⊢
  refine ⟨⟨wf_bufAppend h.wf hbytes, h.size, by simp only; omega, ?_, ?_, ?_⟩,
    by simp only; omega⟩
  · simp only
    rw [content_bufAppend h.wf hbytes, h.content, List.append_assoc, ← framesLE_append,
      slice_supported hbits, List.range_add, List.map_append, List.map_map]
    rfl
  · have hrest := h.room
    simp only
    omega
  · intro i hi
    have hend := h.wf.contWrite_le
    have hsize := h.size
    rw [← h.behind i hi]
    exact Ring.write_of_ge (by omega)

/-- Where there is room the block is behind what was there. -/
theorem handsOverDirect_of_room {b : Buffer} (h : b.Wf) (hbits : Supported frame.bitsPerSample)
    (hroom : frame.blocksize ≤ room w b) : HandsOverDirect w frame b := by
  have hstart : Filling w frame b ⟨b, 0⟩ :=
    ⟨h, rfl, Nat.zero_le _, (List.append_nil _).symm, hroom, fun _ _ => rfl⟩
  obtain ⟨n, b', t, hrun, ht, hstop⟩ := @Loop.run_ends _ _ (directRound w frame)
    (Filling w frame b) (fun s => frame.blocksize - s.done) (fun t ht => by
      by_cases hlt : t.done < frame.blocksize
      · exact .inr (ht.round hbits hlt)
      · exact .inl ⟨_, directRound_end hlt⟩) _ hstart
  by_cases hlt : t.done < frame.blocksize
  · cases (directRound_stay hlt).symm.trans hstop
  · cases (directRound_end hlt).symm.trans hstop
    refine ⟨n, _, hrun, ?_, ht.behind⟩
    rw [ht.content, Nat.le_antisymm ht.done (Nat.not_lt.mp hlt), Frame.block]

/-- Where there is none the loop goes on for ever. -/
theorem directRound_spins {b : Buffer} (h : b.Wf) (hroom : room w b < frame.blocksize) (n : ℕ) :
    Loop.run (directRound w frame) n ⟨b, 0⟩ = none := by
  refine Loop.run_trapped
    (P := fun s : Direct => s.outputbuf.Wf ∧ room w s.outputbuf < frame.blocksize - s.done) ?_ n
    ⟨h, hroom⟩
  rintro s ⟨hwf, hless⟩
  have hlt : s.done < frame.blocksize := by omega
  have hle : s.fits w frame ≤
      min (bufSpace s.outputbuf) (bufContWrite s.outputbuf) / w.frameBytes := Nat.min_le_left ..
  have hleft : s.fits w frame ≤ room w s.outputbuf := by
    rw [room]
    omega
  have hwf' : (bufIncWritep (bufStore s.outputbuf (framesLE w (frame.slice w s.done
      (s.fits w frame)))) (s.fits w frame * w.frameBytes)).Wf :=
    wf_advance hwf ((Nat.le_div_iff_mul_le (frameBytes_pos w)).mp hle) _
  refine ⟨_, directRound_stay hlt, hwf', ?_⟩
  rw [room_append hwf hle]
  simp only
  omega

end Direct

/-! ### To the processing stage -/

section Staged

variable {maxInFrames : ℕ} {s : Staged w} {p : Process w}

theorem stagedRound_stay (h : s.done < frame.blocksize) :
    stagedRound w frame maxInFrames s = .inr {
      process := { s.process.put (frame.slice w s.done (min maxInFrames (frame.blocksize - s.done)))
        with inFrames := min maxInFrames (frame.blocksize - s.done) }
      done := s.done + min maxInFrames (frame.blocksize - s.done) } :=
  if_pos (Nat.sub_pos_of_lt h)

theorem stagedRound_end (h : ¬ s.done < frame.blocksize) :
    stagedRound w frame maxInFrames s = .inl s.process :=
  if_neg fun hpos => h (Nat.lt_of_sub_pos hpos)

/-- What every round keeps holds of the result. -/
theorem staged_keeps {P : Staged w → Prop}
    (hround : ∀ s, P s → s.done < frame.blocksize → ∀ s',
      stagedRound w frame maxInFrames s = .inr s' → P s')
    (hstart : P ⟨p, 0⟩) {n : ℕ} {p' : Process w}
    (hrun : Loop.run (stagedRound w frame maxInFrames) n ⟨p, 0⟩ = some p') :
    ∃ s, P s ∧ ¬ s.done < frame.blocksize ∧ s.process = p' := by
  obtain ⟨s, hs, hstop⟩ := (Loop.run_eq_some_iff n).mp hrun
  have hP := Loop.visited_keeps (P := P) (fun t t' ht hnext => by
    by_cases hlt : t.done < frame.blocksize
    · exact hround t ht hlt t' hnext
    · cases (stagedRound_end hlt).symm.trans hnext) n hstart s hs
  by_cases hlt : s.done < frame.blocksize
  · cases (stagedRound_stay hlt).symm.trans hstop
  · exact ⟨s, hP, hlt, Sum.inl.inj ((stagedRound_end hlt).symm.trans hstop)⟩

theorem put_frame (p : Process w) (fs : List (BitVec w.bits × BitVec w.bits)) {i : ℕ}
    (h : i < fs.length) :
    ((p.put fs).inbuf (2 * i), (p.put fs).inbuf (2 * i + 1)) = fs[i] := by
  have hleft : 2 * i / 2 = i := Nat.mul_div_cancel_left i (by decide)
  have hright : (2 * i + 1) / 2 = i := by omega
  have heven : 2 * i % 2 = 0 := Nat.mul_mod_right 2 i
  have hodd : (2 * i + 1) % 2 ≠ 0 := by omega
  simp only [Process.put, hleft, hright, List.getElem?_eq_getElem h, heven, hodd, if_true, if_false]

theorem put_behind (p : Process w) (fs : List (BitVec w.bits × BitVec w.bits)) {i : ℕ}
    (h : 2 * fs.length ≤ i) : (p.put fs).inbuf i = p.inbuf i := by
  simp only [Process.put, List.getElem?_eq_none (show fs.length ≤ i / 2 by omega)]

/-- A block for which there is room is handed over in one round. -/
theorem handsOverStaged_of_room (hbits : Supported frame.bitsPerSample)
    (hpos : 0 < frame.blocksize) (hroom : frame.blocksize ≤ maxInFrames) :
    HandsOverStaged w frame maxInFrames p := by
  have hmin : min maxInFrames (frame.blocksize - 0) = frame.blocksize := Nat.min_eq_right hroom
  have hlen : (frame.slice w 0 frame.blocksize).length = frame.blocksize := length_slice hbits ..
  have hround := @stagedRound_stay w frame maxInFrames ⟨p, 0⟩ hpos
  simp only [hmin, Nat.zero_add] at hround
  refine ⟨2, { p.put (frame.slice w 0 frame.blocksize) with inFrames := frame.blocksize }, ?_, rfl,
    ?_, ?_⟩
  · rw [Loop.run_inr hround, Loop.run_inl (stagedRound_end (Nat.lt_irrefl _))]
  · intro i hi
    refine (put_frame p (frame.slice w 0 frame.blocksize) (hlen.symm ▸ hi)).trans ?_
    simp only [slice_supported hbits, List.getElem_map, List.getElem_range, Nat.zero_add]
  · intro i hi
    exact put_behind p _ (by omega)

/-- A block for which there is none is not handed over whole. -/
theorem room_of_handsOverStaged (hpos : 0 < frame.blocksize)
    (h : HandsOverStaged w frame maxInFrames p) : frame.blocksize ≤ maxInFrames := by
  obtain ⟨n, p', hrun, hframes, -⟩ := h
  obtain ⟨s, hs, hend, rfl⟩ := staged_keeps
    (P := fun s : Staged w => s.done = 0 ∨ s.process.inFrames ≤ maxInFrames)
    (fun s _ hlt s' hnext => by
      cases (stagedRound_stay hlt).symm.trans hnext
      exact .inr (Nat.min_le_left ..)) (.inl rfl) hrun
  rcases hs with hzero | hle
  · omega
  · exact hframes ▸ hle

/-- Samples of another size are not there. -/
theorem supported_of_handsOverStaged (hpos : 0 < frame.blocksize)
    (h : ∀ p, HandsOverStaged w frame maxInFrames p) : Supported frame.bitsPerSample := by
  by_contra hbits
  obtain ⟨c, hc⟩ : ∃ c : BitVec w.bits, c ≠ (frame.wanted w 0).1 := by
    by_cases hzero : (frame.wanted w 0).1 = 0
    · refine ⟨1, fun hone => absurd (hone.trans hzero) ?_⟩
      cases w <;> decide
    · exact ⟨0, fun h => hzero h.symm⟩
  obtain ⟨n, p', hrun, -, hframes, -⟩ := h ⟨fun _ => c, 0⟩
  obtain ⟨s, hs, -, rfl⟩ := staged_keeps (P := fun s : Staged w => ∀ i, s.process.inbuf i = c)
    (fun s hs hlt s' hnext i => by
      cases (stagedRound_stay hlt).symm.trans hnext
      rw [← hs i, slice_unsupported hbits]
      exact put_behind s.process [] (Nat.zero_le i)) (fun _ => rfl) hrun
  exact hc ((hs 0).symm.trans (congrArg Prod.fst (hframes 0 hpos)))

end Staged

/-! ### The main result -/

/-- Samples of another size are not in `outputbuf`. -/
theorem supported_of_handsOverDirect {b : Buffer} (hpos : 0 < frame.blocksize)
    (h : ∀ m, HandsOverDirect w frame { b with mem := m }) : Supported frame.bitsPerSample := by
  by_contra hbits
  have hlen : 0 < (framesLE w (frame.block w)).length := by
    rw [length_framesLE, Frame.block, List.length_map, List.length_range]
    exact Nat.mul_pos hpos (frameBytes_pos w)
  obtain ⟨c, hc⟩ : ∃ c : UInt8, c ≠ (framesLE w (frame.block w))[0] := by
    by_cases hzero : (framesLE w (frame.block w))[0] = 0
    · exact ⟨1, fun hone => absurd (hone.trans hzero) (by decide)⟩
    · exact ⟨0, fun h => hzero h.symm⟩
  obtain ⟨n, b', hrun, hcontent, -⟩ := h fun _ => c
  obtain ⟨s, hs, hstop⟩ := (Loop.run_eq_some_iff n).mp hrun
  have hmem := Loop.visited_keeps (P := fun s : Direct => ∀ i, s.outputbuf.mem i = c)
    (fun t t' ht hnext i => by
      by_cases hlt : t.done < frame.blocksize
      · cases (directRound_stay hlt).symm.trans hnext
        rw [slice_unsupported hbits]
        exact (congrFun (Ring.write_nil _ _) i).trans (ht i)
      · cases (directRound_end hlt).symm.trans hnext) n (fun _ => rfl) s hs
  by_cases hlt : s.done < frame.blocksize
  · cases (directRound_stay hlt).symm.trans hstop
  · cases (directRound_end hlt).symm.trans hstop
    -- all that is in the buffer is `c`
    have hall : ∀ x ∈ s.outputbuf.content, x = c := by
      intro x hx
      obtain ⟨i, -, rfl⟩ := List.mem_map.mp hx
      exact hmem _
    refine hc (hall _ ?_).symm
    rw [hcontent]
    exact List.mem_append_right _ (List.getElem_mem hlen)

/-- A block is handed over if and only if its samples have a size that is switched on, and there is
room for all of them. -/
theorem writeCb_iff (w : Build) (frame : Frame) (target : Target) (hwf : target.Wf)
    (hpos : 0 < frame.blocksize) :
    HandsOver w frame target ↔
      Supported frame.bitsPerSample ∧ frame.blocksize ≤ target.room w := by
  cases target with
  | direct b =>
    have hwf' : ∀ m, ({ b with mem := m } : Buffer).Wf := fun m =>
      ⟨hwf.1, hwf.2, hwf.3, hwf.4, hwf.5, hwf.6, hwf.7⟩
    constructor
    · intro h
      refine ⟨supported_of_handsOverDirect hpos h, Nat.not_lt.mp fun hless => ?_⟩
      obtain ⟨n, b', hrun, -⟩ := h b.mem
      cases (directRound_spins (hwf' b.mem) hless n).symm.trans hrun
    · rintro ⟨hbits, hroom⟩ m
      exact handsOverDirect_of_room (hwf' m) hbits hroom
  | staged maxInFrames =>
    constructor
    · exact fun h => ⟨supported_of_handsOverStaged hpos h,
        room_of_handsOverStaged hpos (h ⟨fun _ => 0, 0⟩)⟩
    · exact fun ⟨hbits, hroom⟩ p => handsOverStaged_of_room hbits hpos hroom

/-- A block of stereo samples of 16 bits. -/
def stereoBlock (blocksize : ℕ) : Frame := ⟨blocksize, 16, 2, fun _ _ => 0⟩

/-- An empty buffer of so many bytes. -/
def emptyBuffer (size : ℕ) : Buffer := bufInit ⟨0, fun _ => 0⟩ size

/-- The default block of the encoder, with as much space as the decode thread asks for. -/
theorem writeCb_block :
    HandsOver .s16 (stereoBlock 4096) (.direct (emptyBuffer 204804)) :=
  (writeCb_iff .s16 (stereoBlock 4096) (.direct (emptyBuffer 204804)) (wf_bufInit _ (by decide))
    (by decide)).mpr ⟨by decide, by decide⟩

/-- With 204803 bytes free, `write_cb` does not return from the largest block. -/
theorem writeCb_spins :
    204800 < bufSpace (emptyBuffer 204804) ∧
      ¬ HandsOver .s16 (stereoBlock 65535) (.direct (emptyBuffer 204804)) := by
  refine ⟨by decide, fun h => ?_⟩
  obtain ⟨n, b', hrun, -⟩ := h fun _ => 0
  cases (@directRound_spins .s16 (stereoBlock 65535) (emptyBuffer 204804)
    (wf_bufInit _ (by decide)) (by decide) n).symm.trans hrun

end Flac

end SqueezeliteMuse
