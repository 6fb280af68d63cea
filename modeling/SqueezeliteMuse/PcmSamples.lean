/-
SqueezeliteMuse/PcmSamples.lean

The samples that `pcm_decode` writes.

There is a loop for each number of channels, size of a sample and byte order, and
each of them in two builds, for output of 16 and of 32 bits (`BYTES_PER_FRAME` 4 and
8).  A loop takes one sample after the other from `iptr` and writes it at `optr`,
once where there are two channels, twice where there is one.  So there is one
loop, with the step it takes and the expression by which it puts a sample together.

In three of the loops for one channel the first write moves `optr` already.

Main result: `pcmDecode_converts_iff`: a call writes its frames, all of them and nothing
else, with the most significant bits of the samples, if and only if it has nothing
to write or is not in one of these three.
-/
import SqueezeliteMuse.PcmHeader
import SqueezeliteMuse.StreamEnd

namespace SqueezeliteMuse

/-! ### The code -/

/-- `BYTES_PER_FRAME`, by the samples: 4 or 8 -/
inductive Build
  | s16 | s32
  deriving DecidableEq

/-- The bits of `OPTR_T`. -/
def Build.bits : Build → ℕ
  | .s16 => 16
  | .s32 => 32

/-- `b << k`, in an `int` -/
def shl (b : UInt8) (k : ℕ) : BitVec 32 := b.toBitVec.setWidth 32 <<< k

/-- What the loops put together from the bytes at `iptr`; a sample of the two bytes of the output,
in its order, is copied. -/
def convert (w : Build) (sampleSize : ℕ) (bigendian : Bool) (iptr : ℕ → UInt8) : BitVec w.bits :=
  BitVec.setWidth w.bits <|
    match w, sampleSize, bigendian with
    | .s16, 1, _ => shl (iptr 0) 8
    | .s32, 1, _ => shl (iptr 0) 24
    | .s16, 2, true => shl (iptr 0) 8 ||| shl (iptr 1) 0
    | .s32, 2, true => shl (iptr 0) 24 ||| shl (iptr 1) 16
    | .s16, 2, false => shl (iptr 0) 0 ||| shl (iptr 1) 8
    | .s32, 2, false => shl (iptr 0) 16 ||| shl (iptr 1) 24
    | .s16, 3, true => shl (iptr 0) 8 ||| shl (iptr 1) 0
    | .s32, 3, true => shl (iptr 0) 24 ||| shl (iptr 1) 16 ||| shl (iptr 2) 8
    | .s16, 3, false => shl (iptr 1) 0 ||| shl (iptr 2) 8
    | .s32, 3, false => shl (iptr 0) 8 ||| shl (iptr 1) 16 ||| shl (iptr 2) 24
    | .s16, 4, true => shl (iptr 0) 8 ||| shl (iptr 1) 0
    | .s32, 4, true =>
        shl (iptr 0) 24 ||| shl (iptr 1) 16 ||| shl (iptr 2) 8 ||| shl (iptr 3) 0
    | .s16, 4, false => shl (iptr 2) 0 ||| shl (iptr 3) 8
    | .s32, 4, false =>
        shl (iptr 0) 0 ||| shl (iptr 1) 8 ||| shl (iptr 2) 16 ||| shl (iptr 3) 24
    | _, _, _ => 0

/-- The output from `writep` on, by samples; `touched` are the samples that were written. -/
structure Out (w : Build) where
  mem : ℕ → BitVec w.bits
  optr : ℕ
  touched : List ℕ

namespace Out

variable {w : Build}

/-- `*(optr+k) = v` -/
def put (o : Out w) (k : ℕ) (v : BitVec w.bits) : Out w :=
  { o with
    mem := fun i => if i = o.optr + k then v else o.mem i
    touched := o.touched ++ [o.optr + k] }

/-- `optr += k` -/
def skip (o : Out w) (k : ℕ) : Out w := { o with optr := o.optr + k }

/-- Two channels: `*optr++ = v` -/
def stereo (o : Out w) (v : BitVec w.bits) : Out w := (o.put 0 v).skip 1

/-- `*(optr+1) = *optr; optr += 2` -/
def double (o : Out w) : Out w := (o.put 1 (o.mem o.optr)).skip 2

/-- One channel: `*optr = v`, and again for the other channel -/
def mono (o : Out w) (v : BitVec w.bits) : Out w := (o.put 0 v).double

/-- One channel: `*optr++ = v`, and again -/
def monoSlip (o : Out w) (v : BitVec w.bits) : Out w := ((o.put 0 v).skip 1).double

end Out

/-- The loops for one channel that begin with `*optr++`. -/
def monoSlips (w : Build) (sampleSize : ℕ) : Bool :=
  match w, sampleSize with
  | .s16, 3 | .s16, 4 | .s32, 4 => true
  | _, _ => false

/-- `while (count--)` -/
def sampleLoop {w : Build} (step : Out w → BitVec w.bits → Out w) (sampleSize : ℕ)
    (bigendian : Bool) : ℕ → (ℕ → UInt8) → Out w → Out w
  | 0, _, o => o
  | count + 1, iptr, o =>
      sampleLoop step sampleSize bigendian count (fun i => iptr (sampleSize + i))
        (step o (convert w sampleSize bigendian iptr))

/-- The bytes at `iptr`: those at `readp`, or a frame in `tmp` that wraps round the end of
streambuf. -/
def Pcm.iptr (s : Pcm) (bytes : ℕ) : ℕ → UInt8 := fun i =>
  if bytes / s.bytesPerFrame = 0 ∧ bytes > 0 ∧ bufUsed s.streambuf ≥ s.bytesPerFrame then
    if i < bytes then s.streambuf.peek i else s.streambuf.mem (i - bytes)
  else s.streambuf.peek i

/-- The conversion of `frames` frames. -/
def Pcm.convertFrames {w : Build} (s : Pcm) (bytes frames : ℕ) (o : Out w) : Out w :=
  if s.sampleSize < 1 ∨ 4 < s.sampleSize then o
  else
    match s.channels with
    | 2 =>
        sampleLoop Out.stereo s.sampleSize s.bigendian (frames * s.channels) (s.iptr bytes) o
    | 1 =>
        sampleLoop (if monoSlips w s.sampleSize then Out.monoSlip else Out.mono) s.sampleSize
          s.bigendian (frames * s.channels) (s.iptr bytes) o
    | _ => o

/-- The state behind the header: the beginning of `pcm_decode`. -/
def Pcm.checked (pcmCheckHeader : Bool) (stream : StreamState) (s : Pcm) : Option Pcm :=
  if s.newStream ∧ (stream = .streamingFile ∨ pcmCheckHeader) then
    checkHeader (stream = .streamingFile) s
  else some s

theorem pcmDecode_eq (pcmCheckHeader : Bool) (stream : StreamState) (out : ℕ) (s : Pcm) :
    pcmDecode pcmCheckHeader stream out s =
      (s.checked pcmCheckHeader stream).bind (pcmBody stream out) := by
  rw [pcmDecode, Pcm.checked]
  split
  · rfl
  · rfl

/-- What `pcmBody` writes. -/
def pcmWrites {w : Build} (stream : StreamState) (out : ℕ) (s : Pcm) (o : Out w) : Out w :=
  let bytes := min (bufUsed s.streambuf) (bufContRead s.streambuf)
  if (stream.toend ∧ bytes < s.bytesPerFrame) ∨ (s.limit ∧ s.audioLeft = 0) then o
  else s.start.convertFrames bytes (s.start.framesOut bytes out) o

/-! ### What is to be written -/

/-- The `k`-th byte of a sample, the most significant first; 0 behind the last one. -/
def msb (data : List UInt8) (size : ℕ) (bigendian : Bool) (off k : ℕ) : UInt8 :=
  if k < size then data.getD (off + if bigendian then k else size - 1 - k) 0 else 0

/-- A sample in 32 bits, left-justified. -/
def leftJustified (data : List UInt8) (size : ℕ) (bigendian : Bool) (off : ℕ) : BitVec 32 :=
  shl (msb data size bigendian off 0) 24 ||| shl (msb data size bigendian off 1) 16 |||
    shl (msb data size bigendian off 2) 8 ||| shl (msb data size bigendian off 3) 0

/-- The most significant bits of a sample. -/
def topBits (w : Build) (data : List UInt8) (size : ℕ) (bigendian : Bool) (off : ℕ) :
    BitVec w.bits :=
  (leftJustified data size bigendian off >>> (32 - w.bits)).setWidth w.bits

/-- The size of a frame is that of the format, or will be. -/
def Pcm.Framed (s : Pcm) : Prop :=
  s.newStream = true ∨ s.bytesPerFrame = s.channels * s.sampleSize % 2 ^ 32

/-- A call has nothing to write: it completes the stream, or has no room, no frame, or none that
`audio_left` allows. -/
def Pcm.Idle (stream : StreamState) (out : ℕ) (s : Pcm) : Prop :=
  (stream.toend = true ∧
      min (bufUsed s.streambuf) (bufContRead s.streambuf) < s.bytesPerFrame) ∨
    (s.limit = true ∧ s.audioLeft < s.channels * s.sampleSize) ∨ out = 0 ∨
      bufUsed s.streambuf < s.channels * s.sampleSize

/-- A call on `s` wrote its frames: the samples of all of them and no others, left and right. -/
structure Converts {w : Build} (s : Pcm) (frames : ℕ) (o : Out w) : Prop where
  touched : ∀ k, k ∈ o.touched ↔ k < 2 * frames
  left : ∀ i < frames, o.mem (2 * i) =
    topBits w s.streambuf.content s.sampleSize s.bigendian (i * s.channels * s.sampleSize)
  right : ∀ i < frames, o.mem (2 * i + 1) =
    topBits w s.streambuf.content s.sampleSize s.bigendian
      (i * s.channels * s.sampleSize + (s.channels - 1) * s.sampleSize)

/-! ### One sample -/

@[simp] theorem shl_zero (k : ℕ) : shl 0 k = 0 := by simp [shl]

/-- The upper half of a word is its two upper bytes. -/
theorem top_half (b₀ b₁ b₂ b₃ : UInt8) :
    ((shl b₀ 24 ||| shl b₁ 16 ||| shl b₂ 8 ||| shl b₃ 0) >>> 16).setWidth 16 =
      (shl b₀ 8 ||| shl b₁ 0).setWidth 16 := by
  have hbyte : ∀ (b : UInt8) (k : ℕ), 8 ≤ k → b.toBitVec.getLsbD k = false :=
    fun b k hk => BitVec.getLsbD_of_ge _ _ hk
  have h₁ := hbyte b₁
  have h₂ := hbyte b₂
  have h₃ := hbyte b₃
  unfold shl
  ext i hi
  simp
  grind

theorem or_reverse {n : ℕ} (a b c : BitVec n) : a ||| b ||| c = c ||| b ||| a := by
  rw [BitVec.or_assoc, BitVec.or_comm, BitVec.or_comm b]

theorem or_reverse₄ {n : ℕ} (a b c d : BitVec n) :
    a ||| b ||| c ||| d = d ||| c ||| b ||| a := by
  rw [BitVec.or_comm, or_reverse a, ← BitVec.or_assoc, ← BitVec.or_assoc]

theorem convert_eq (w : Build) {data : List UInt8} {size off : ℕ} (bigendian : Bool)
    {iptr : ℕ → UInt8} (hpos : 1 ≤ size) (hle : size ≤ 4)
    (hbytes : ∀ k < size, iptr k = data.getD (off + k) 0) :
    convert w size bigendian iptr = topBits w data size bigendian off := by
  have hmsb : ∀ k < size, msb data size bigendian off k =
      iptr (if bigendian then k else size - 1 - k) := by
    intro k hk
    rw [msb, if_pos hk, ← hbytes _ (by split <;> omega)]
  have hnone : ∀ k, size ≤ k → msb data size bigendian off k = 0 :=
    fun k hk => if_neg (by omega)
  have htop : topBits w data size bigendian off = BitVec.setWidth w.bits
      (match w with
        | .s16 => shl (msb data size bigendian off 0) 8 ||| shl (msb data size bigendian off 1) 0
        | .s32 => leftJustified data size bigendian off) := by
    cases w with
    | s16 => exact top_half ..
    | s32 => simp [topBits, Build.bits]
  rw [htop]
  obtain rfl | rfl | rfl | rfl : size = 1 ∨ size = 2 ∨ size = 3 ∨ size = 4 := by omega
  all_goals
    rcases bigendian with - | - <;> cases w
    all_goals simp [convert, leftJustified, hmsb, hnone]
  -- little-endian, the bytes are put together the other way round
  · exact BitVec.or_comm ..
  · exact BitVec.or_comm ..
  · exact BitVec.or_comm ..
  · exact or_reverse ..
  · exact BitVec.or_comm ..
  · exact or_reverse₄ ..

/-! ### The loop -/

/-- From `o` to `o'` the next `n` samples were written, with the values of `f`. -/
structure Wrote {w : Build} (o o' : Out w) (n : ℕ) (f : ℕ → BitVec w.bits) : Prop where
  optr : o'.optr = o.optr + n
  value : ∀ j < n, o'.mem (o.optr + j) = f j
  frame : ∀ k < o.optr, o'.mem k = o.mem k
  touched : ∀ k, k ∈ o'.touched ↔ k ∈ o.touched ∨ o.optr ≤ k ∧ k < o.optr + n

variable {w : Build}

theorem Wrote.trans {o o₁ o₂ : Out w} {n m : ℕ} {f g : ℕ → BitVec w.bits} (h : Wrote o o₁ n f)
    (h' : Wrote o₁ o₂ m g) : Wrote o o₂ (n + m) fun j => if j < n then f j else g (j - n) where
  optr := by rw [h'.optr, h.optr, Nat.add_assoc]
  value j hj := by
    have hoptr := h.optr
    by_cases hlt : j < n
    · rw [if_pos hlt, h'.frame _ (by omega), h.value j hlt]
    · rw [if_neg hlt, ← h'.value (j - n) (by omega)]
      congr 1
      omega
  frame k hk := by
    have hoptr := h.optr
    rw [h'.frame k (by omega), h.frame k hk]
  touched k := by
    have hoptr := h.optr
    rw [h'.touched, h.touched, or_assoc, hoptr]
    refine or_congr_right ?_
    omega

theorem stereo_wrote (o : Out w) (v : BitVec w.bits) : Wrote o (o.stereo v) 1 fun _ => v where
  optr := rfl
  value j hj := by
    obtain rfl : j = 0 := by omega
    exact if_pos rfl
  frame k hk := if_neg (by omega)
  touched k := by
    simp only [Out.stereo, Out.put, Out.skip, List.mem_append, List.mem_singleton]
    refine or_congr_right ?_
    omega

theorem mono_wrote (o : Out w) (v : BitVec w.bits) : Wrote o (o.mono v) 2 fun _ => v where
  optr := rfl
  value j hj := by
    obtain rfl | rfl : j = 0 ∨ j = 1 := by omega
    · simp [Out.mono, Out.double, Out.put, Out.skip]
    · simp [Out.mono, Out.double, Out.put, Out.skip]
  frame k hk := by
    have h0 : k ≠ o.optr := by omega
    have h1 : k ≠ o.optr + 1 := by omega
    simp [Out.mono, Out.double, Out.put, Out.skip, h0, h1]
  touched k := by
    simp only [Out.mono, Out.double, Out.put, Out.skip, List.mem_append, List.mem_singleton,
      or_assoc]
    refine or_congr_right ?_
    omega

/-- A loop whose step writes `c` times what it put together writes all of them in their order. -/
theorem sampleLoop_wrote {step : Out w → BitVec w.bits → Out w} {c : ℕ} (hc : 0 < c)
    (hstep : ∀ o v, Wrote o (step o v) c fun _ => v) (size : ℕ) (bigendian : Bool) (count : ℕ)
    (iptr : ℕ → UInt8) (o : Out w) :
    Wrote o (sampleLoop step size bigendian count iptr o) (count * c)
      fun j => convert w size bigendian fun i => iptr (j / c * size + i) := by
  induction count generalizing iptr o with
  | zero =>
      rw [Nat.zero_mul]
      exact ⟨rfl, fun j hj => absurd hj (Nat.not_lt_zero _), fun _ _ => rfl, fun k => by
        show k ∈ o.touched ↔ _
        rw [iff_self_or]
        omega⟩
  | succ count ih =>
      have hrest := (hstep o (convert w size bigendian iptr)).trans
        (ih (fun i => iptr (size + i)) (step o (convert w size bigendian iptr)))
      rw [show (count + 1) * c = c + count * c by rw [Nat.succ_mul, Nat.add_comm]]
      refine ⟨hrest.optr, fun j hj => ?_, hrest.frame, hrest.touched⟩
      refine (hrest.value j hj).trans ?_
      show (if j < c then _ else _) = _
      by_cases hlt : j < c
      · rw [if_pos hlt, Nat.div_eq_of_lt hlt]
        congr 1
        funext i
        rw [Nat.zero_mul, Nat.zero_add]
      · have hdiv : j / c = (j - c) / c + 1 := Nat.div_eq_sub_div hc (by omega)
        rw [if_neg hlt, hdiv]
        congr 1
        funext i
        congr 1
        rw [Nat.succ_mul]
        omega

/-- The step that slips leaves out every third sample. -/
theorem sampleLoop_slips (size : ℕ) (bigendian : Bool) (count : ℕ) (iptr : ℕ → UInt8) (o : Out w)
    (hoptr : o.optr % 3 = 0) (h : ∀ k ∈ o.touched, k % 3 ≠ 1) :
    ∀ k ∈ (sampleLoop Out.monoSlip size bigendian count iptr o).touched, k % 3 ≠ 1 := by
  induction count generalizing iptr o with
  | zero => exact h
  | succ count ih =>
      refine ih _ _ ?_ ?_
      · show (o.optr + 1 + 2) % 3 = 0
        omega
      · intro k hk
        simp [Out.monoSlip, Out.double, Out.put, Out.skip] at hk
        rcases hk with hk | rfl | rfl
        · exact h k hk
        · omega
        · omega

/-! ### A call -/

/-- The bytes behind the wrap are at `buf`. -/
theorem Buffer.Wf.content_getElem?_wrapped {b : Buffer} (h : b.Wf) {i : ℕ} (hi : i < bufUsed b)
    (hcont : bufContRead b ≤ i) : b.content[i]? = some (b.mem (i - bufContRead b)) := by
  have hlt := h.used_lt
  have hoff : b.readp - b.buf + i - b.size = i - bufContRead b ∧ b.size ≤ b.readp - b.buf + i := by
    obtain ⟨hge, hread, hwge, hwlt, hwrap, _, _⟩ := h
    unfold bufUsed at hi
    unfold bufContRead at hcont ⊢
    by_cases hw : b.writep ≥ b.readp
    · rw [if_pos hw] at hi hcont
      omega
    · rw [if_neg hw] at hi hcont ⊢
      omega
  have hread := h.readOff_lt
  simp only [Buffer.content, Ring.slice, List.getElem?_map]
  rw [List.getElem?_range hi, Option.map_some, Nat.mod_eq_sub_mod hoff.2, hoff.1,
    Nat.mod_eq_of_lt (by omega)]

namespace Pcm

/-- A frame that wraps is put together again. -/
theorem iptr_eq {s : Pcm} (h : s.streambuf.Wf) {k : ℕ}
    (hk : k < s.framesIn (min (bufUsed s.streambuf) (bufContRead s.streambuf)) * s.bytesPerFrame) :
    s.iptr (min (bufUsed s.streambuf) (bufContRead s.streambuf)) k =
      s.streambuf.content.getD k 0 := by
  have hread : ∀ i < min (bufUsed s.streambuf) (bufContRead s.streambuf),
      s.streambuf.peek i = s.streambuf.content.getD i 0 := by
    intro i hi
    rw [List.getD_eq_getElem?_getD, h.content_getElem? hi]
    rfl
  rw [framesIn] at hk
  rw [iptr]
  split at hk
  · rename_i hwrap
    rw [if_pos hwrap]
    rw [Nat.one_mul] at hk
    split
    · exact hread k ‹_›
    · have hle := h.contRead_le_used
      rw [Nat.min_eq_right hle] at *
      rw [List.getD_eq_getElem?_getD, h.content_getElem?_wrapped (by omega) (by omega)]
      rfl
  · rename_i hpiece
    rw [if_neg hpiece]
    exact hread k (Nat.lt_of_lt_of_le hk (Nat.div_mul_le_self _ _))

theorem framesOut_le_framesIn (s : Pcm) (bytes out : ℕ) :
    s.framesOut bytes out ≤ s.framesIn bytes := by
  have hmin : min (min (s.framesIn bytes) out) MAX_DECODE_FRAMES ≤ s.framesIn bytes := by omega
  rw [framesOut]
  split
  · rename_i hover
    refine Nat.le_trans (Nat.div_le_of_le_mul ?_) hmin
    rw [Nat.mul_comm]
    exact Nat.le_of_lt hover.2
  · exact hmin

/-- No frame is decoded where none is there, none is allowed, or there is no room for one. -/
theorem framesOut_eq_zero_iff {s : Pcm} (out : ℕ) (h : s.streambuf.Wf) (hsize : 0 < s.bytesPerFrame) :
    s.framesOut (min (bufUsed s.streambuf) (bufContRead s.streambuf)) out = 0 ↔
      (s.limit = true ∧ s.audioLeft < s.bytesPerFrame) ∨ out = 0 ∨
        bufUsed s.streambuf < s.bytesPerFrame := by
  have hin : s.framesIn (min (bufUsed s.streambuf) (bufContRead s.streambuf)) = 0 ↔
      bufUsed s.streambuf < s.bytesPerFrame := by
    have hpos := h.contRead_pos
    have hle := h.contRead_le_used
    rw [framesIn]
    split
    · rename_i hwrap
      omega
    · rename_i hpiece
      rw [Nat.div_eq_zero_iff_lt hsize] at hpiece ⊢
      omega
  rw [framesOut]
  generalize s.framesIn (min (bufUsed s.streambuf) (bufContRead s.streambuf)) = n at hin ⊢
  rw [← hin]
  have hframes : min (min n out) MAX_DECODE_FRAMES = 0 ↔ out = 0 ∨ n = 0 := by
    unfold MAX_DECODE_FRAMES
    omega
  split
  · rename_i hover
    rw [Nat.div_eq_zero_iff_lt hsize]
    refine ⟨fun hlt => .inl ⟨hover.1, hlt⟩, ?_⟩
    rintro (hlt | hzero)
    · exact hlt.2
    · rw [hframes.mpr hzero] at hover
      omega
  · rename_i hover
    rw [hframes]
    refine ⟨.inr, ?_⟩
    rintro (⟨hlimit, hlt⟩ | hzero)
    · refine hframes.mp (Nat.eq_zero_of_not_pos fun hpos => hover ⟨hlimit, ?_⟩)
      exact Nat.lt_of_lt_of_le hlt (Nat.le_mul_of_pos_left _ hpos)
    · exact hzero

end Pcm

/-- The walk over the chunks stays in the block. -/
theorem chunkLoop_same {file : Bool} {format : HeaderFormat} {m : ℕ → UInt8} {fuel p bytes : ℕ}
    {s s' : Pcm} (h : s.streambuf.Wf) (hle : p + bytes ≤ bufUsed s.streambuf)
    (hs : chunkLoop file format m fuel p bytes s = some s') : SameStream s s' := by
  induction fuel generalizing p bytes s with
  | zero => cases hs
  | succ fuel ih =>
      obtain ⟨hbuf, hnew⟩ := pcmFormat_stream format m p bytes s
      have hformat : SameStream s (pcmFormat format m p bytes s) :=
        ⟨by rwa [hbuf], by rw [hbuf], hnew⟩
      rw [chunkLoop] at hs
      split at hs
      · cases hs
        exact ⟨h, rfl, rfl⟩
      split at hs
      · cases hs
        exact ⟨(keeps_bufIncReadp h (by omega)).wf, rfl, rfl⟩
      split at hs
      · have hinside : s.streambuf.readp + (p + 16 + Octets.be m (p + 8) 4) % 2 ^ 32 <
            s.streambuf.wrap + s.streambuf.size := by
          by_contra hout
          rw [aiffData, if_neg hout] at hs
          cases hs
        obtain ⟨s'', hs'', hsame⟩ := aiffData_stream file (chunkLen format m p) h hinside
        cases hs''.symm.trans hs
        exact hsame
      split at hs
      · have hrest := ih hformat.wf (by rw [hbuf]; omega) hs
        exact ⟨hrest.wf, hrest.size.trans hformat.size, hrest.newStream.trans hformat.newStream⟩
      · cases hs
        exact hformat

theorem checkHeader_same {file : Bool} {s s' : Pcm} (h : s.streambuf.Wf)
    (hs : checkHeader file s = some s') : SameStream s s' := by
  rw [checkHeader] at hs
  cases hformat : headerFormat s.streambuf.peek
      (min (bufUsed s.streambuf) (bufContRead s.streambuf)) with
  | none =>
      rw [hformat] at hs
      cases hs
      exact ⟨h, rfl, rfl⟩
  | some format =>
      rw [hformat] at hs
      have hlong : 12 < min (bufUsed s.streambuf) (bufContRead s.streambuf) := by
        by_contra hshort
        rw [headerFormat, if_pos (by omega)] at hformat
        cases hformat
      exact chunkLoop_same h (by omega) hs

namespace Pcm

/-- A call begins with the header, and it is the same stream behind it. -/
theorem checked_same {check : Bool} {stream : StreamState} {s s₁ : Pcm} (h : s.streambuf.Wf)
    (hs : s.checked check stream = some s₁) : SameStream s s₁ := by
  rw [checked] at hs
  split at hs
  · exact checkHeader_same h hs
  · cases hs
    exact ⟨h, rfl, rfl⟩

theorem checked_framed {check : Bool} {stream : StreamState} {s s₁ : Pcm} (h : s.streambuf.Wf)
    (hframed : s.Framed) (hs : s.checked check stream = some s₁) : s₁.Framed := by
  have hsame := checked_same h hs
  rw [checked] at hs
  split at hs
  · rename_i hnew
    exact .inl (hsame.newStream.trans hnew.1)
  · cases hs
    exact hframed

theorem start_same (s : Pcm) : s.start.sampleSize = s.sampleSize ∧ s.start.channels = s.channels ∧
    s.start.bigendian = s.bigendian ∧ s.start.streambuf = s.streambuf ∧
    s.start.limit = s.limit ∧ s.start.audioLeft = s.audioLeft := by
  rw [start]
  split
  · exact ⟨rfl, rfl, rfl, rfl, rfl, rfl⟩
  · exact ⟨rfl, rfl, rfl, rfl, rfl, rfl⟩

/-- What a call takes keeps the size of a frame. -/
theorem framed_take (s : Pcm) (hframed : s.Framed) (frames : ℕ) : (s.start.take frames).Framed := by
  refine .inr ?_
  show s.start.bytesPerFrame = s.start.channels * s.start.sampleSize % 2 ^ 32
  rw [start]
  split
  · rfl
  · rename_i hnew
    exact hframed.resolve_left hnew

end Pcm

/-- A state behind the header, with frames that can be decoded. -/
structure Readable (s : Pcm) : Prop where
  wf : s.streambuf.Wf
  size : 1 ≤ s.sampleSize ∧ s.sampleSize ≤ 4
  channels : s.channels = 1 ∨ s.channels = 2
  framed : s.Framed

namespace Readable

variable {s : Pcm} {stream : StreamState} {out : ℕ}

theorem frame_pos (h : Readable s) : 0 < s.channels * s.sampleSize := by
  obtain ⟨-, hsize, hch, -⟩ := h
  rcases hch with hch | hch <;> rw [hch] <;> omega

/-- When the track has started, `bytes_per_frame` is what it says. -/
theorem start_frame (h : Readable s) : s.start.bytesPerFrame = s.channels * s.sampleSize := by
  obtain ⟨-, hsize, hch, hframed⟩ := h
  have hlt : s.channels * s.sampleSize % 2 ^ 32 = s.channels * s.sampleSize := by
    refine Nat.mod_eq_of_lt ?_
    rcases hch with hch | hch <;> rw [hch] <;> omega
  rw [Pcm.Framed, hlt] at hframed
  rw [Pcm.start]
  split
  · exact hlt
  · rename_i hnew
    exact hframed.resolve_left hnew

/-- The bytes of the frames that are decoded. -/
theorem start_iptr (h : Readable s) (out : ℕ) {k : ℕ}
    (hk : k < s.start.framesOut (min (bufUsed s.streambuf) (bufContRead s.streambuf)) out *
      (s.channels * s.sampleSize)) :
    s.start.iptr (min (bufUsed s.streambuf) (bufContRead s.streambuf)) k =
      s.streambuf.content.getD k 0 := by
  have hframe := h.start_frame
  obtain ⟨-, -, -, hbuf, -, -⟩ := s.start_same
  have hle := Nat.mul_le_mul_right (s.channels * s.sampleSize)
    (s.start.framesOut_le_framesIn (min (bufUsed s.streambuf) (bufContRead s.streambuf)) out)
  have hiptr := Pcm.iptr_eq (s := s.start) (by rw [hbuf]; exact h.wf) (k := k)
  rw [hbuf, hframe] at hiptr
  exact hiptr (Nat.lt_of_lt_of_le hk hle)

/-- The samples written one behind the other are the frames. -/
theorem converts_of_wrote (mem : ℕ → BitVec w.bits) {o : Out w} {n : ℕ} {f : ℕ → BitVec w.bits}
    (h : Wrote ⟨mem, 0, []⟩ o (2 * n) f)
    (hleft : ∀ i < n, f (2 * i) =
      topBits w s.streambuf.content s.sampleSize s.bigendian (i * s.channels * s.sampleSize))
    (hright : ∀ i < n, f (2 * i + 1) =
      topBits w s.streambuf.content s.sampleSize s.bigendian
        (i * s.channels * s.sampleSize + (s.channels - 1) * s.sampleSize)) : Converts s n o where
  touched k := by
    rw [h.touched]
    simp
  left i hi := by
    rw [← hleft i hi, ← h.value (2 * i) (by omega), Nat.zero_add]
  right i hi := by
    rw [← hright i hi, ← h.value (2 * i + 1) (by omega), Nat.zero_add]

/-- The loops that do not slip write their frames. -/
theorem converts (h : Readable s) (w : Build) (out : ℕ) (mem : ℕ → BitVec w.bits)
    (hslip : ¬ (s.channels = 1 ∧ monoSlips w s.sampleSize = true)) :
    Converts s (s.start.framesOut (min (bufUsed s.streambuf) (bufContRead s.streambuf)) out)
      (s.start.convertFrames (min (bufUsed s.streambuf) (bufContRead s.streambuf))
        (s.start.framesOut (min (bufUsed s.streambuf) (bufContRead s.streambuf)) out)
        ⟨mem, 0, []⟩) := by
  have hbytes := fun k => h.start_iptr out (k := k)
  obtain ⟨hsize, hch, hbig, -, -, -⟩ := s.start_same
  obtain ⟨-, ⟨hpos, hfour⟩, hchannels, -⟩ := h
  rw [Pcm.convertFrames, hsize, hch, hbig, if_neg (by omega)]
  generalize s.start.framesOut (min (bufUsed s.streambuf) (bufContRead s.streambuf)) out = n
    at hbytes ⊢
  generalize s.start.iptr (min (bufUsed s.streambuf) (bufContRead s.streambuf)) = iptr
    at hbytes ⊢
  -- the `j`-th sample of the stream
  have hvalue : ∀ j, j < n * s.channels →
      (convert w s.sampleSize s.bigendian fun k => iptr (j * s.sampleSize + k)) =
        topBits w s.streambuf.content s.sampleSize s.bigendian (j * s.sampleSize) := by
    intro j hj
    refine convert_eq w s.bigendian hpos hfour fun k hk => hbytes _ ?_
    have hle : (j + 1) * s.sampleSize ≤ n * s.channels * s.sampleSize :=
      Nat.mul_le_mul_right _ hj
    rw [Nat.succ_mul] at hle
    rw [← Nat.mul_assoc]
    omega
  rcases hchannels with hone | htwo
  · rw [hone] at hvalue ⊢
    rw [if_neg fun hs => hslip ⟨hone, hs⟩]
    refine converts_of_wrote mem (f := fun j => convert w s.sampleSize s.bigendian
      fun k => iptr (j / 2 * s.sampleSize + k)) ?_ ?_ ?_
    · have hwrote := sampleLoop_wrote (by decide) mono_wrote s.sampleSize s.bigendian (n * 1) iptr
        ⟨mem, 0, []⟩
      rw [show n * 1 * 2 = 2 * n by omega] at hwrote
      exact hwrote
    · intro i hi
      rw [Nat.mul_div_cancel_left i (by decide), hvalue i (by omega), hone, Nat.mul_one]
    · intro i hi
      rw [show (2 * i + 1) / 2 = i by omega, hvalue i (by omega), hone, Nat.mul_one, Nat.sub_self,
        Nat.zero_mul, Nat.add_zero]
  · rw [htwo] at hvalue ⊢
    refine converts_of_wrote mem (f := fun j => convert w s.sampleSize s.bigendian
      fun k => iptr (j / 1 * s.sampleSize + k)) ?_ ?_ ?_
    · have hwrote := sampleLoop_wrote (by decide) stereo_wrote s.sampleSize s.bigendian (n * 2) iptr
        ⟨mem, 0, []⟩
      rw [show n * 2 * 1 = 2 * n by omega] at hwrote
      exact hwrote
    · intro i hi
      rw [Nat.div_one, hvalue (2 * i) (by omega), htwo, Nat.mul_comm 2]
    · intro i hi
      rw [Nat.div_one, hvalue (2 * i + 1) (by omega), htwo, Nat.succ_mul, Nat.mul_comm 2, Nat.one_mul]

/-- The loops that slip leave out the second sample. -/
theorem not_converts (h : Readable s) (w : Build) {n : ℕ} (hn : 0 < n) (bytes : ℕ)
    (mem : ℕ → BitVec w.bits) (hone : s.channels = 1) (hslip : monoSlips w s.sampleSize = true) :
    ¬ Converts s n (s.start.convertFrames bytes n ⟨mem, 0, []⟩) := by
  intro hconverts
  obtain ⟨hsize, hch, hbig, -, -, -⟩ := s.start_same
  have hmem := (hconverts.touched 1).mpr (by omega)
  rw [Pcm.convertFrames, hsize, hch, hbig, if_neg (by have := h.size; omega), hone, if_pos hslip]
    at hmem
  exact sampleLoop_slips _ _ _ _ ⟨mem, 0, []⟩ rfl (fun _ hk => nomatch hk) 1 hmem rfl

end Readable

/-- A call of `pcm_decode` writes its frames, with the most significant bits of their samples, if
and only if it has nothing to write, or is not in a loop that slips. -/
theorem pcmDecode_converts_iff (w : Build) (pcmCheckHeader : Bool) (stream : StreamState) (out : ℕ)
    (mem : ℕ → BitVec w.bits) {s s₁ : Pcm} {r : Decoded Pcm} (hwf : s.streambuf.Wf)
    (hframed : s.Framed) (hhead : s.checked pcmCheckHeader stream = some s₁)
    (hsize : 1 ≤ s₁.sampleSize ∧ s₁.sampleSize ≤ 4) (hch : s₁.channels = 1 ∨ s₁.channels = 2)
    (hr : pcmDecode pcmCheckHeader stream out s = some r) :
    Converts s₁ r.frames (pcmWrites stream out s₁ (⟨mem, 0, []⟩ : Out w)) ↔
      s₁.Idle stream out ∨ ¬ (s₁.channels = 1 ∧ monoSlips w s₁.sampleSize = true) := by
  have h : Readable s₁ :=
    ⟨(Pcm.checked_same hwf hhead).wf, hsize, hch, Pcm.checked_framed hwf hframed hhead⟩
  have hpos := h.frame_pos
  have hframe := h.start_frame
  obtain ⟨-, -, -, hbuf, hlimit, hleft⟩ := s₁.start_same
  have hnone : Converts s₁ 0 (⟨mem, 0, []⟩ : Out w) :=
    ⟨fun k => by simp, fun i hi => absurd hi (Nat.not_lt_zero i),
      fun i hi => absurd hi (Nat.not_lt_zero i)⟩
  rw [pcmDecode_eq, hhead, Option.bind_some, pcmBody] at hr
  rw [pcmWrites]
  split at hr
  · rename_i hdone
    cases hr
    rw [if_pos hdone]
    refine iff_of_true hnone (.inl ?_)
    rw [Pcm.Idle]
    rcases hdone with hdone | ⟨hl, hzero⟩
    · exact .inl hdone
    · exact .inr (.inl ⟨hl, by omega⟩)
  rename_i hmore
  rw [if_neg (by omega)] at hr
  cases hr
  rw [if_neg hmore]
  have hzero := Pcm.framesOut_eq_zero_iff (s := s₁.start) out (by rw [hbuf]; exact h.wf)
    (by omega)
  rw [hbuf, hlimit, hleft, hframe] at hzero
  have hidle : s₁.Idle stream out ↔ s₁.start.framesOut
      (min (bufUsed s₁.streambuf) (bufContRead s₁.streambuf)) out = 0 := by
    rw [hzero, Pcm.Idle]
    exact or_iff_right fun hdone => hmore (.inl hdone)
  by_cases hslip : s₁.channels = 1 ∧ monoSlips w s₁.sampleSize = true
  · rw [hidle, or_iff_left (not_not_intro hslip)]
    refine ⟨fun hconverts => ?_, fun hn => ?_⟩
    · by_contra hn
      exact h.not_converts w (Nat.pos_of_ne_zero hn) _ mem hslip.1 hslip.2 hconverts
    · have hsize' := s₁.start_same.1
      have hch' := s₁.start_same.2.1
      rw [hn, Pcm.convertFrames, hsize', hch', if_neg (by omega), hslip.1]
      exact hnone
  · exact iff_of_true (h.converts w out mem hslip) (.inr hslip)

theorem pcmDecode_converts_iff_stereo :
    Converts (PcmHeader.loaded [1, 2, 3, 4, 5]) 1
        (pcmWrites .streamingHttp 8 (PcmHeader.loaded [1, 2, 3, 4, 5])
          (⟨fun _ => 0, 0, []⟩ : Out .s16)) ↔
      (PcmHeader.loaded [1, 2, 3, 4, 5]).Idle .streamingHttp 8 ∨
        ¬ ((2 : ℕ) = 1 ∧ monoSlips .s16 2 = true) :=
  pcmDecode_converts_iff .s16 false .streamingHttp 8 (fun _ => 0)
    (s := PcmHeader.loaded [1, 2, 3, 4, 5])
    (r := ⟨.running, 1, (PcmHeader.loaded [1, 2, 3, 4, 5]).start.take 1⟩)
    (by constructor <;> decide) (.inl rfl) rfl (by decide) (by decide) rfl

/-- A decoder of one channel, at a sample of four bytes. -/
def oneSample : Pcm where
  sampleSize := 4
  sampleRate := 44100
  channels := 1
  bigendian := true
  limit := false
  audioLeft := 0
  bytesPerFrame := 0
  newStream := true
  streambuf := ⟨0, 0, 4, 128, 128, 128, 128, Octets.ofList [1, 2, 3, 4]⟩

/-- The sample goes to the left, and then, with what was there, behind the frame. -/
theorem pcmDecode_slips :
    ((pcmDecode false .streamingHttp 8 oneSample).map fun r => r.frames) = some 1 ∧
      ¬ Converts oneSample 1
        (pcmWrites .streamingHttp 8 oneSample (⟨fun _ => 0, 0, []⟩ : Out .s32)) := by
  refine ⟨by decide, fun h => ?_⟩
  have hright := (h.touched 1).mpr (by decide)
  revert hright
  decide

end SqueezeliteMuse
