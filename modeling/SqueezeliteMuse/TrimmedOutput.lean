/-
SqueezeliteMuse/TrimmedOutput.lean

What `alac_decode` and `helixaac_decode` put into `outputbuf`, or into the buffer of the processing
stage, of a block that is decoded.

The samples are taken from the buffer of the decoder, from the first frame on that is not skipped,
in rounds of as many frames as there is contiguous space for.  In alac the first frame is looked for
with the size of a sample in bits, two samples are taken for a frame whatever the channels are, and
one of 24 bits is read with the byte behind it.  In helix-aac the frames of more than two channels
are counted, but not written.

The decoders are taken to write the samples of all channels of a frame side by side.  The stage has
taken its frames before the next call (`process.in_frames` is 0).

Main result: `blockHandsOver_iff`: the frames that are left of a block are handed over, whatever the
samples are and whatever was in memory before, if and only if there is room for them, and the stream
is aac of one or two channels, or alac of two with none of its frames skipped, and of 24 bits only
with some left out at the end.
-/
import SqueezeliteMuse.Gapless
import SqueezeliteMuse.OggOutput

namespace SqueezeliteMuse

namespace Trimmed

open Ring

/-! ### The code -/

/-- The decoder; alac with `l->sample_size`. -/
inductive Codec
  | alac (sampleSize : ℕ)
  | aac
  deriving DecidableEq

/-- The size of the samples that are decoded. -/
def Codec.bits : Codec → ℕ
  | .alac sampleSize => sampleSize
  | .aac => 16

/-- A block in the buffer of the decoder. -/
structure Decoded (codec : Codec) where
  frames : ℕ
  channels : ℕ
  frames_lt : frames < 2 ^ 31
  /-- It is in memory. -/
  bytes_lt : frames * channels * (codec.bits / 8) < 2 ^ 32

/-- So many bytes at an address, the lowest one first. -/
def loadLE (m : ℕ → UInt8) : ℕ → ℕ → ℕ
  | 0, _ => 0
  | n + 1, p => (m p).toNat + 256 * loadLE m n (p + 1)

/-- How a frame is read: where its right sample is, how many bytes are loaded for a sample and what
becomes of them, and where the next frame is. -/
structure Reader (w : Build) where
  right : ℕ
  width : ℕ
  align : BitVec 32 → BitVec w.bits
  stride : ℕ

variable (w : Build)

/-- `ALIGN8`, `ALIGN16`, `ALIGN24` and `ALIGN32` of alac.c -/
def alignInt (sampleSize : ℕ) (n : BitVec 32) : BitVec 32 :=
  match w, sampleSize with
  | .s16, 8 => n <<< 8
  | .s16, 16 => n
  | .s16, 24 => n >>> 8
  | .s16, _ => n >>> 16
  | .s32, 8 => n <<< 24
  | .s32, 16 => n <<< 16
  | .s32, 24 => n <<< 8
  | .s32, _ => n

/-- The same, stored in an `ISAMPLE_T`. -/
def align (sampleSize : ℕ) (n : BitVec 32) : BitVec w.bits :=
  (alignInt w sampleSize n).setWidth w.bits

/-- The loops of `alac_decode`. -/
def alacReader : ℕ → Option (Reader w)
  | 8 => some ⟨1, 1, align w 8, 2⟩
  | 16 => some ⟨2, 2, align w 16, 4⟩
  | 24 => some ⟨3, 4, align w 24, 6⟩
  | 32 => some ⟨4, 4, align w 32, 8⟩
  | _ => none

/-- The loops of `helixaac_decode`. -/
def aacReader (channels : ℕ) : Option (Reader w) :=
  if channels = 2 then some ⟨2, 2, fun n => Ogg.align w (n.setWidth 16), 4⟩
  else if channels = 1 then some ⟨0, 2, fun n => Ogg.align w (n.setWidth 16), 2⟩
  else none

variable {codec : Codec} (block : Decoded codec)

/-- The loop for a block. -/
def Decoded.reader : Option (Reader w) :=
  match codec with
  | .alac sampleSize => alacReader w sampleSize
  | .aac => aacReader w block.channels

section Reading

variable {w} (r : Reader w) (m : ℕ → UInt8)

def Reader.sample (p : ℕ) : BitVec w.bits := r.align (BitVec.ofNat 32 (loadLE m r.width p))

def Reader.frame (p : ℕ) : BitVec w.bits × BitVec w.bits := (r.sample m p, r.sample m (p + r.right))

/-- The frames from an address on. -/
def Reader.frames (p count : ℕ) : List (BitVec w.bits × BitVec w.bits) :=
  (List.range count).map fun k => r.frame m (p + k * r.stride)

/-- What is read for them, and how many bytes. -/
def Reader.loads (p count : ℕ) : List (ℕ × ℕ) :=
  (List.range count).flatMap fun k =>
    [(p + k * r.stride, r.width), (p + k * r.stride + r.right, r.width)]

end Reading

/-- What is stored for so many frames from an address on; for two channels of aac a build with
samples of 16 bits has `memcpy`. -/
def Decoded.copied (m : ℕ → UInt8) (p count : ℕ) : List UInt8 :=
  match block.reader w with
  | none => []
  | some r =>
      if codec = .aac ∧ w = .s16 ∧ block.channels = 2 then
        (List.range (count * w.frameBytes)).map fun i => m (p + i)
      else framesLE w (r.frames m p count)

/-- What is read for it. -/
def Decoded.loads (p count : ℕ) : List (ℕ × ℕ) :=
  match block.reader w with
  | none => []
  | some r => r.loads p count

/-- What `iptr` goes on by. -/
def Decoded.advance (count : ℕ) : ℕ :=
  match block.reader w with
  | none => 0
  | some r => count * r.stride

variable (m : ℕ → UInt8)

/-- The loop, direct. -/
structure Direct where
  outputbuf : Buffer
  iptr : ℕ
  frames : ℕ
  /-- What was read. -/
  loads : List (ℕ × ℕ)

/-- `f`, direct. -/
def Direct.fits (s : Direct) : ℕ := min (bufContWrite s.outputbuf / w.frameBytes) s.frames

/-- A round, direct. -/
def directRound (s : Direct) : (Buffer × List (ℕ × ℕ)) ⊕ Direct :=
  if s.frames > 0 then
    let f := s.fits w
    .inr {
      outputbuf :=
        bufIncWritep (bufStore s.outputbuf (block.copied w m s.iptr f)) (f * w.frameBytes)
      iptr := s.iptr + block.advance w f
      frames := s.frames - f
      loads := s.loads ++ block.loads w s.iptr f }
  else .inl (s.outputbuf, s.loads)

/-- What is used of `process`, and what was read. -/
structure Process where
  inbuf : ℕ → UInt8
  inFrames : ℕ
  loads : List (ℕ × ℕ)

/-- The loop, with the processing stage. -/
structure Staged where
  process : Process
  iptr : ℕ
  frames : ℕ

/-- A round, with the processing stage; alac goes on behind the frames that are there. -/
def stagedRound (maxInFrames : ℕ) (s : Staged) : Process ⊕ Staged :=
  if s.frames > 0 then
    let at' := match codec with
      | .alac _ => s.process.inFrames
      | .aac => 0
    let f := min (maxInFrames - at') s.frames
    .inr {
      process := {
        inbuf := write s.process.inbuf (at' * w.frameBytes) (block.copied w m s.iptr f)
        inFrames := f
        loads := s.process.loads ++ block.loads w s.iptr f }
      iptr := s.iptr + block.advance w f
      frames := s.frames - f }
  else .inl s.process

variable {κ : Type} (p : Mp4 κ)

/-- `frames`: for aac, `info.outputSamps / info.nChans`. -/
def Decoded.size : ℕ :=
  match codec with
  | .alac _ => block.frames
  | .aac => block.frames * block.channels / block.channels

/-- `iptr`, after the skip: alac is at bytes, with the size of a sample in bits, and aac at samples
of 16 bits. -/
def Decoded.iptr : ℕ :=
  match codec with
  | .alac sampleSize => p.cut block.size * block.channels * sampleSize % 2 ^ 32
  | .aac => 2 * (p.cut block.size * block.channels % 2 ^ 32)

/-- `frames`, after the skip and the end; helix-aac returns before that from a block with no
samples. -/
def Decoded.left : ℕ :=
  if codec = .aac ∧ block.frames * block.channels = 0 then 0 else (p.trim block.size).2

/-! ### What is required -/

/-- What is to be skipped, of which the first block had nothing to show. -/
def owed (frames : ℕ) : ℕ := if p.empty then p.skip - frames else p.skip

/-- The frames that are left out at the start. -/
def Decoded.dropped : ℕ := min block.frames (owed p block.frames)

/-- The frames that are left. -/
def Decoded.kept : ℕ := Trim.part (owed p block.frames) p.samples block.frames

/-- The bytes of a sample. -/
def Codec.bytes (codec : Codec) : ℕ := codec.bits / 8

/-- The bytes of the block. -/
def Decoded.bytes : ℕ := block.frames * block.channels * codec.bytes

/-- A sample of the block, left-justified. -/
def Codec.justified (codec : Codec) (a : ℕ) : BitVec w.bits :=
  Flac.leftJustified w codec.bits (BitVec.ofNat 32 (loadLE m codec.bytes a))

/-- The left and the right sample of a frame. -/
def Decoded.wanted (i : ℕ) : BitVec w.bits × BitVec w.bits :=
  (codec.justified w m (i * block.channels * codec.bytes),
    codec.justified w m ((i * block.channels + (block.channels - 1)) * codec.bytes))

/-- The channels and the sizes of samples that there are. -/
def Decoded.Plain : Prop :=
  (block.channels = 1 ∨ block.channels = 2) ∧ Flac.Supported codec.bits

instance : Decidable block.Plain := inferInstanceAs (Decidable (_ ∧ _))

/-- The frames to be handed over. -/
def Decoded.due : List (BitVec w.bits × BitVec w.bits) :=
  if block.Plain then
    (List.range (block.kept p)).map fun k => block.wanted w m (block.dropped p + k)
  else []

/-- The loop ends, the frames are behind what was in `outputbuf`, only free space is written, and
only the block is read. -/
def HandsOverDirect (b : Buffer) : Prop :=
  ∃ n r, Loop.run (directRound w block m) n ⟨b, block.iptr p, block.left p, []⟩ = some r ∧
    r.1.content = b.content ++ framesLE w (block.due w m p) ∧
    (∀ i, b.size ≤ i → r.1.mem i = b.mem i) ∧
    (∀ l ∈ r.2, l.1 + l.2 ≤ block.bytes) ∧
    ∀ s ∈ Loop.visited (directRound w block m) n ⟨b, block.iptr p, block.left p, []⟩,
      s.fits w * w.frameBytes ≤ bufSpace s.outputbuf

/-- The loop ends, the frames are in the buffer of the processing stage, and nothing else is
written, and only the block is read. -/
def HandsOverStaged (maxInFrames : ℕ) (inbuf : ℕ → UInt8) : Prop :=
  ∃ n r, Loop.run (stagedRound w block m maxInFrames) n
      ⟨⟨inbuf, 0, []⟩, block.iptr p, block.left p⟩ = some r ∧
    r.inFrames = (block.due w m p).length ∧ r.inFrames ≤ maxInFrames ∧
    r.inbuf = write inbuf 0 (framesLE w (block.due w m p)) ∧
    ∀ l ∈ r.loads, l.1 + l.2 ≤ block.bytes

/-- The block is handed over, whatever the decoder has written and whatever is in memory. -/
def HandsOver : Flac.Target → Prop
  | .direct b => ∀ m mem, HandsOverDirect w block m p { b with mem := mem }
  | .staged maxInFrames => ∀ m inbuf, HandsOverStaged w block m p maxInFrames inbuf

/-- What is to be skipped is less than the block that counts twice, and falls below 0. -/
def Wraps (frames : ℕ) : Prop := p.empty = true ∧ 0 < p.skip ∧ p.skip < frames

instance (frames : ℕ) : Decidable (Wraps p frames) := inferInstanceAs (Decidable (_ ∧ _))

/-- The stream is read as it is. -/
def Decoded.Sound : Prop :=
  match codec with
  | .aac => block.channels = 1 ∨ block.channels = 2
  | .alac sampleSize =>
      block.channels = 2 ∧ Flac.Supported sampleSize ∧ block.dropped p = 0 ∧
        (sampleSize = 24 → block.kept p < block.frames)

instance : Decidable (block.Sound p) := by
  unfold Decoded.Sound
  cases codec <;> infer_instance

/-- Nothing is left, or nothing is done and nothing is to be done, or the frames that are left have
room and are read as they are. -/
def Fine (target : Flac.Target) : Prop :=
  block.kept p = 0 ∨ codec = .aac ∧ block.channels = 0 ∨ Wraps p block.frames ∧ ¬ block.Plain ∨
    ¬ Wraps p block.frames ∧ block.Sound p ∧ block.kept p ≤ target.room w

/-! ### Numbers in memory -/

section Numbers

variable {w} {m} {a n : ℕ}

/-- The last byte is the highest one. -/
theorem loadLE_succ (m : ℕ → UInt8) (n a : ℕ) :
    loadLE m (n + 1) a = loadLE m n a + 256 ^ n * (m (a + n)).toNat := by
  induction n generalizing a with
  | zero => simp [loadLE]
  | succ n ih =>
    rw [loadLE, ih, loadLE, Nat.add_right_comm a 1 n, Nat.add_assoc a n 1, Nat.mul_add,
      ← Nat.add_assoc, ← Nat.mul_assoc, ← Nat.pow_succ']

theorem loadLE_zero (h : ∀ i < n, m (a + i) = 0) : loadLE m n a = 0 := by
  induction n with
  | zero => rfl
  | succ n ih =>
    rw [loadLE_succ, ih fun i hi => h i (Nat.lt_succ_of_lt hi), h n (Nat.lt_succ_self n)]
    rfl

theorem align_eq {bits : ℕ} (h : Flac.Supported bits) (v : BitVec 32) :
    align w bits v = Flac.leftJustified w bits v := by
  rcases h with rfl | rfl | rfl | rfl <;> cases w <;>
    refine BitVec.eq_of_getLsbD_eq fun i hi => ?_ <;>
    simp only [align, alignInt, Flac.leftJustified, Build.bits, BitVec.getLsbD_setWidth,
      BitVec.getLsbD_extractLsb', BitVec.getLsbD_shiftLeft, BitVec.getLsbD_ushiftRight] at hi ⊢ <;>
    grind

theorem ogg_align_eq (v : BitVec 32) :
    Ogg.align w (v.setWidth 16) = Flac.leftJustified w 16 v := by
  cases w <;>
    refine BitVec.eq_of_getLsbD_eq fun i hi => ?_ <;>
    simp only [Ogg.align, Flac.leftJustified, Build.bits, BitVec.getLsbD_setWidth,
      BitVec.getLsbD_extractLsb', BitVec.getLsbD_shiftLeft] at hi ⊢ <;>
    grind

/-- Of four bytes three count. -/
theorem justified_four (m : ℕ → UInt8) (a : ℕ) :
    Flac.leftJustified w 24 (BitVec.ofNat 32 (loadLE m 4 a)) =
      Flac.leftJustified w 24 (BitVec.ofNat 32 (loadLE m 3 a)) := by
  have hshift : BitVec.ofNat 32 (loadLE m 4 a) <<< (32 - 24) =
      BitVec.ofNat 32 (loadLE m 3 a) <<< (32 - 24) := by
    refine BitVec.eq_of_toNat_eq ?_
    rw [BitVec.toNat_shiftLeft, BitVec.toNat_shiftLeft, BitVec.toNat_ofNat, BitVec.toNat_ofNat,
      loadLE_succ m 3 a, Nat.shiftLeft_eq, Nat.shiftLeft_eq]
    omega
  rw [Flac.leftJustified, hshift, Flac.leftJustified]

/-- A sample that has its highest byte from elsewhere is another one. -/
theorem justified_ne {bits k : ℕ} (h : Flac.Supported bits) (hk : bits / 8 = k + 1)
    (hhigh : m (a + k) = 1) (hlow : ∀ i < k, m (a + i) = 0) :
    Flac.leftJustified w bits (BitVec.ofNat 32 (loadLE m (bits / 8) a)) ≠
      Flac.leftJustified w bits (BitVec.ofNat 32 0) := by
  have hone : loadLE m (bits / 8) a = 256 ^ k := by
    rw [hk, loadLE_succ, loadLE_zero hlow, hhigh, Nat.zero_add]
    exact Nat.mul_one _
  rw [hone]
  rcases h with rfl | rfl | rfl | rfl
  · obtain rfl : k = 0 := by omega
    cases w <;> decide
  · obtain rfl : k = 1 := by omega
    cases w <;> decide
  · obtain rfl : k = 2 := by omega
    cases w <;> decide
  · obtain rfl : k = 3 := by omega
    cases w <;> decide

/-- Samples that are the same whatever is in memory are at the same address. -/
theorem justified_address {bits b : ℕ} (h : Flac.Supported bits)
    (hsame : ∀ m, Flac.leftJustified w bits (BitVec.ofNat 32 (loadLE m (bits / 8) a)) =
      Flac.leftJustified w bits (BitVec.ofNat 32 (loadLE m (bits / 8) b))) : a = b := by
  obtain ⟨k, hk⟩ : ∃ k, bits / 8 = k + 1 := by
    rcases h with rfl | rfl | rfl | rfl
    exacts [⟨0, rfl⟩, ⟨1, rfl⟩, ⟨2, rfl⟩, ⟨3, rfl⟩]
  -- the highest byte of the one that is further back is not in the other one
  have hcase : ∀ {a b : ℕ}, a < b →
      Flac.leftJustified w bits (BitVec.ofNat 32 (loadLE (Function.update 0 (b + k) 1)
        (bits / 8) b)) ≠ Flac.leftJustified w bits (BitVec.ofNat 32
          (loadLE (Function.update 0 (b + k) 1) (bits / 8) a)) := by
    intro a b hlt
    have hzero : loadLE (Function.update 0 (b + k) 1) (bits / 8) a = 0 :=
      loadLE_zero fun i hi => Function.update_of_ne (by omega) _ _
    rw [hzero]
    exact justified_ne h hk (Function.update_self ..) fun i hi =>
      Function.update_of_ne (by omega) _ _
  rcases Nat.lt_trichotomy a b with hlt | heq | hgt
  · exact absurd (hsame _).symm (hcase hlt)
  · exact heq
  · exact absurd (hsame _) (hcase hgt)

end Numbers

/-! ### Reading a block -/

section Loops

variable {w} {block} {m}

/-- The frames of a stream are two samples side by side, or a sample twice. -/
structure Reads (w : Build) (codec : Codec) (channels : ℕ) (r : Reader w) : Prop where
  right : r.right = (channels - 1) * codec.bytes
  stride : r.stride = channels * codec.bytes
  width : r.width = if codec = .alac 24 then 4 else codec.bytes
  sample : ∀ m a, r.sample m a = codec.justified w m a

/-- alac takes two channels for granted. -/
theorem alac_reads {bits : ℕ} (h : Flac.Supported bits) :
    ∃ r, alacReader w bits = some r ∧ Reads w (.alac bits) 2 r := by
  rcases h with rfl | rfl | rfl | rfl
  · exact ⟨_, rfl, rfl, rfl, rfl, fun m a => align_eq (by decide) _⟩
  · exact ⟨_, rfl, rfl, rfl, rfl, fun m a => align_eq (by decide) _⟩
  · exact ⟨_, rfl, rfl, rfl, rfl, fun m a => (align_eq (by decide) _).trans (justified_four m a)⟩
  · exact ⟨_, rfl, rfl, rfl, rfl, fun m a => align_eq (by decide) _⟩

theorem aac_reads {channels : ℕ} (h : channels = 1 ∨ channels = 2) :
    ∃ r, aacReader w channels = some r ∧ Reads w .aac channels r := by
  rcases h with rfl | rfl
  · exact ⟨_, rfl, rfl, rfl, rfl, fun m a => ogg_align_eq _⟩
  · exact ⟨_, rfl, rfl, rfl, rfl, fun m a => ogg_align_eq _⟩

theorem frames_add (r : Reader w) (m : ℕ → UInt8) (a k f : ℕ) :
    r.frames m a (k + f) = r.frames m a k ++ r.frames m (a + k * r.stride) f := by
  rw [Reader.frames, List.range_add, List.map_append, List.map_map, Reader.frames, Reader.frames]
  refine congrArg (_ ++ ·) (List.map_congr_left fun i _ => ?_)
  rw [Function.comp_apply, Nat.add_mul, Nat.add_assoc]

theorem loads_add (r : Reader w) (a k f : ℕ) :
    r.loads a (k + f) = r.loads a k ++ r.loads (a + k * r.stride) f := by
  rw [Reader.loads, List.range_add, List.flatMap_append, List.flatMap_map, Reader.loads,
    Reader.loads]
  refine congrArg (_ ++ ·) (List.flatMap_congr fun i _ => ?_)
  simp only [Nat.add_mul, Nat.add_assoc]

theorem length_frames (r : Reader w) (m : ℕ → UInt8) (a count : ℕ) :
    (r.frames m a count).length = count := by
  rw [Reader.frames, List.length_map, List.length_range]

/-- Of two bytes a sample of 16 bits is made, and two bytes of it. -/
theorem sampleLE_load (m : ℕ → UInt8) (a : ℕ) :
    sampleLE .s16 (Ogg.align .s16 ((BitVec.ofNat 32 (loadLE m 2 a)).setWidth 16)) =
      [m a, m (a + 1)] := by
  have hlow := (m a).toNat_lt
  have hhigh := (m (a + 1)).toNat_lt
  have hval : (((BitVec.ofNat 32 (loadLE m 2 a)).setWidth 16 : BitVec 16)).toNat =
      (m a).toNat + 256 * (m (a + 1)).toNat := by
    simp only [loadLE, BitVec.toNat_setWidth, BitVec.toNat_ofNat]
    omega
  have hbytes : ∀ v : BitVec 16, v.toNat = (m a).toNat + 256 * (m (a + 1)).toNat →
      [UInt8.ofNat (v.toNat >>> (8 * 0)), UInt8.ofNat (v.toNat >>> (8 * 1))] =
        [m a, m (a + 1)] := by
    intro v hv
    rw [hv, Nat.shiftRight_eq_div_pow, Nat.shiftRight_eq_div_pow]
    refine congrArg₂ (fun x y => [x, y]) (UInt8.toNat_inj.mp ?_) (UInt8.toNat_inj.mp ?_)
    · rw [UInt8.toNat_ofNat']
      omega
    · rw [UInt8.toNat_ofNat']
      omega
  exact hbytes _ hval

/-- `memcpy` stores the frames, as the loop would. -/
theorem memcpy_eq (m : ℕ → UInt8) (a count : ℕ) {r : Reader .s16}
    (hr : aacReader .s16 2 = some r) :
    (List.range (count * 4)).map (fun i => m (a + i)) = framesLE .s16 (r.frames m a count) := by
  obtain rfl := Option.some.inj hr
  induction count with
  | zero => rfl
  | succ count ih =>
    rw [Nat.succ_mul, List.range_add, List.map_append, ih, frames_add, framesLE_append]
    refine congrArg (_ ++ ·) ?_
    have hframe : framesLE .s16 (Reader.frames ⟨2, 2, fun n => Ogg.align .s16 (n.setWidth 16), 4⟩ m
        (a + count * 4) 1) =
          sampleLE .s16 (Ogg.align .s16
            ((BitVec.ofNat 32 (loadLE m 2 (a + count * 4))).setWidth 16)) ++
          sampleLE .s16 (Ogg.align .s16
            ((BitVec.ofNat 32 (loadLE m 2 (a + count * 4 + 2))).setWidth 16)) := by
      simp [Reader.frames, Reader.frame, Reader.sample, framesLE, frameLE]
    rw [hframe, sampleLE_load, sampleLE_load]
    rfl

/-- What is stored are the frames that are read. -/
theorem copied_eq {r : Reader w} (hr : block.reader w = some r) (m : ℕ → UInt8) (a count : ℕ) :
    block.copied w m a count = framesLE w (r.frames m a count) := by
  simp only [Decoded.copied, hr]
  split
  case isTrue h =>
    obtain ⟨rfl, rfl, hch⟩ := h
    rw [Decoded.reader, hch] at hr
    exact memcpy_eq m a count hr
  case isFalse => rfl

theorem length_copied {r : Reader w} (hr : block.reader w = some r) (m : ℕ → UInt8) (a count : ℕ) :
    (block.copied w m a count).length = count * w.frameBytes := by
  rw [copied_eq hr, length_framesLE, length_frames]

end Loops

/-! ### To the output buffer -/

section ToOutputbuf

variable {w} {block} {m} {b : Buffer} {a F : ℕ} {s : Direct} {r : Reader w}

theorem directRound_stay (h : 0 < s.frames) :
    directRound w block m s = .inr {
      outputbuf := bufIncWritep (bufStore s.outputbuf (block.copied w m s.iptr (s.fits w)))
        (s.fits w * w.frameBytes)
      iptr := s.iptr + block.advance w (s.fits w)
      frames := s.frames - s.fits w
      loads := s.loads ++ block.loads w s.iptr (s.fits w) } :=
  if_pos h

theorem directRound_end (h : s.frames = 0) :
    directRound w block m s = .inl (s.outputbuf, s.loads) :=
  if_neg fun hpos => Nat.ne_of_gt hpos h

/-- Contiguous space is free as long as there is room for all that is left. -/
theorem fits_le (h : s.frames ≤ Flac.room w s.outputbuf) :
    s.fits w ≤ min (bufSpace s.outputbuf) (bufContWrite s.outputbuf) / w.frameBytes := by
  rw [Flac.room] at h
  split at h
  case isTrue hboth =>
    rw [Nat.min_eq_right hboth.1]
    exact Nat.min_le_left ..
  case isFalse hnot =>
    exact Nat.le_trans (Nat.min_le_right ..) h

theorem fits_bytes (h : s.frames ≤ Flac.room w s.outputbuf) :
    s.fits w * w.frameBytes ≤ min (bufSpace s.outputbuf) (bufContWrite s.outputbuf) :=
  (Nat.le_div_iff_mul_le (Flac.frameBytes_pos w)).mp (fits_le h)

/-- While there is room for the rest: the first `k` frames are behind what was there. -/
structure Filling (w : Build) (m : ℕ → UInt8) (r : Reader w) (b : Buffer) (a F k : ℕ)
    (s : Direct) : Prop where
  wf : s.outputbuf.Wf
  size : s.outputbuf.size = b.size
  frames : k + s.frames = F
  iptr : s.iptr = a + k * r.stride
  content : s.outputbuf.content = b.content ++ framesLE w (r.frames m a k)
  loads : s.loads = r.loads a k
  room : s.frames ≤ Flac.room w s.outputbuf
  behind : ∀ i, b.size ≤ i → s.outputbuf.mem i = b.mem i

theorem Filling.round (hr : block.reader w = some r) {k : ℕ} (h : Filling w m r b a F k s)
    (hpos : 0 < s.frames) :
    ∃ s', directRound w block m s = .inr s' ∧ (∃ k', Filling w m r b a F k' s') ∧
      s'.frames < s.frames := by
  refine ⟨_, directRound_stay hpos, ?_⟩
  have hbytes := fits_bytes h.room
  have hsome : 0 < s.fits w := by
    have hfits := Flac.fits_pos h.wf (Nat.lt_of_lt_of_le hpos h.room)
    refine Nat.lt_min.mpr ⟨Nat.lt_of_lt_of_le hfits (Nat.div_le_div_right ?_), hpos⟩
    exact Nat.min_le_right ..
  have hleft : s.fits w ≤ s.frames := Nat.min_le_right ..
  have hroom := Flac.room_append h.wf (fits_le h.room) (block.copied w m s.iptr (s.fits w))
  generalize s.fits w = f at hbytes hsome hleft hroom ⊢
  have hlen := length_copied hr m s.iptr f
  have hframes := h.frames
  refine ⟨⟨k + f, ?_, h.size, by simp only; omega, ?_, ?_, ?_, ?_, ?_⟩, by simp only; omega⟩
  · exact Flac.wf_advance h.wf hbytes _
  · simp only [Decoded.advance, hr, h.iptr]
    rw [Nat.add_mul, Nat.add_assoc]
  · rw [← hlen] at hbytes ⊢
    simp only
    rw [content_bufAppend h.wf hbytes, h.content, copied_eq hr, List.append_assoc,
      ← framesLE_append, frames_add, h.iptr]
  · simp only [Decoded.loads, hr]
    rw [h.loads, loads_add, h.iptr]
  · have hrest := h.room
    simp only
    omega
  · intro i hi
    have hend := h.wf.contWrite_le
    have hsize := h.size
    rw [← h.behind i hi]
    exact write_of_ge (by omega)

/-- Where there is room the frames are behind what was there. -/
theorem direct_of_room (hr : block.reader w = some r) (hwf : b.Wf) (hroom : F ≤ Flac.room w b) :
    ∃ n b', Loop.run (directRound w block m) n ⟨b, a, F, []⟩ = some (b', r.loads a F) ∧
      b'.content = b.content ++ framesLE w (r.frames m a F) ∧
      (∀ i, b.size ≤ i → b'.mem i = b.mem i) ∧
      ∀ s ∈ Loop.visited (directRound w block m) n ⟨b, a, F, []⟩,
        s.fits w * w.frameBytes ≤ bufSpace s.outputbuf := by
  have hstart : ∃ k, Filling w m r b a F k ⟨b, a, F, []⟩ :=
    ⟨0, hwf, rfl, Nat.zero_add F, (by simp), (List.append_nil _).symm, rfl, hroom, fun _ _ => rfl⟩
  have hround : ∀ t, (∃ k, Filling w m r b a F k t) →
      (∃ e, directRound w block m t = .inl e) ∨ ∃ t', directRound w block m t = .inr t' ∧
        (∃ k, Filling w m r b a F k t') ∧ t'.frames < t.frames := by
    rintro t ⟨k, ht⟩
    rcases Nat.eq_zero_or_pos t.frames with hzero | hpos
    · exact .inl ⟨_, directRound_end hzero⟩
    · exact .inr (ht.round hr hpos)
  obtain ⟨n, e, t, hrun, ⟨k, ht⟩, hstop⟩ := Loop.run_ends
    (P := fun t => ∃ k, Filling w m r b a F k t) (fun t => t.frames) hround hstart
  have hzero : t.frames = 0 := by
    by_contra hne
    cases (directRound_stay (Nat.pos_of_ne_zero hne)).symm.trans hstop
  cases (directRound_end hzero).symm.trans hstop
  obtain rfl : k = F := by
    have hframes := ht.frames
    omega
  refine ⟨n, _, ht.loads ▸ hrun, ht.content, ht.behind, fun s hs => ?_⟩
  obtain ⟨_, hk⟩ := Loop.visited_keeps (P := fun t => ∃ k', Filling w m r b a k k' t)
    (fun t t' htk hnext => by
      rcases hround t htk with ⟨e, he⟩ | ⟨t'', he, ht'', -⟩
      · cases he.symm.trans hnext
      · cases he.symm.trans hnext
        exact ht'') n hstart s hs
  exact Nat.le_trans (fits_bytes hk.room) (Nat.min_le_left ..)

/-- Where there is none, but free space up to the end of the buffer, the loop goes on for ever. -/
theorem direct_spins (hwf : b.Wf) (hspace : F * w.frameBytes ≤ bufSpace b)
    (hroom : Flac.room w b < F) (n : ℕ) :
    Loop.run (directRound w block m) n ⟨b, a, F, []⟩ = none := by
  refine Loop.run_trapped (P := fun s : Direct => s.outputbuf.Wf ∧
    s.frames * w.frameBytes ≤ bufSpace s.outputbuf ∧ Flac.room w s.outputbuf < s.frames) ?_ n
    ⟨hwf, hspace, hroom⟩
  rintro s ⟨hwf, hspace, hless⟩
  have hle : s.fits w ≤
      min (bufSpace s.outputbuf) (bufContWrite s.outputbuf) / w.frameBytes := by
    refine (Nat.le_div_iff_mul_le (Flac.frameBytes_pos w)).mpr (Nat.le_min.mpr ⟨?_, ?_⟩)
    · exact Nat.le_trans (Nat.mul_le_mul_right _ (Nat.min_le_right ..)) hspace
    · exact (Nat.le_div_iff_mul_le (Flac.frameBytes_pos w)).mp (Nat.min_le_left ..)
  have hbytes := (Nat.le_div_iff_mul_le (Flac.frameBytes_pos w)).mp hle
  have hleft : s.fits w ≤ Flac.room w s.outputbuf := by
    rw [Flac.room]
    omega
  refine ⟨_, directRound_stay (Nat.zero_lt_of_lt hless), Flac.wf_advance hwf hbytes _, ?_, ?_⟩
  · have hused := Flac.used_advance hwf hbytes (block.copied w m s.iptr (s.fits w))
    have hsum := (Flac.wf_advance hwf hbytes (block.copied w m s.iptr (s.fits w))).used_add_space
    have hsum' := hwf.used_add_space
    have hsize : (bufIncWritep (bufStore s.outputbuf (block.copied w m s.iptr (s.fits w)))
        (s.fits w * w.frameBytes)).size = s.outputbuf.size := rfl
    simp only
    rw [Nat.sub_mul]
    omega
  · rw [Flac.room_append hwf hle]
    simp only
    omega

/-- What a loop that ends in free space has gone on by. -/
theorem direct_needs (hwf : b.Wf) {n : ℕ} {e : Buffer × List (ℕ × ℕ)}
    (hrun : Loop.run (directRound w block m) n ⟨b, a, F, []⟩ = some e)
    (hfree : ∀ s ∈ Loop.visited (directRound w block m) n ⟨b, a, F, []⟩,
      s.fits w * w.frameBytes ≤ bufSpace s.outputbuf) :
    bufUsed e.1 = bufUsed b + F * w.frameBytes ∧ F ≤ Flac.room w b := by
  obtain ⟨t, ht, hstop⟩ := (Loop.run_eq_some_iff n).mp hrun
  obtain ⟨hwf', hsize, hused⟩ := Loop.visited_keeps_where
    (P := fun s : Direct => s.outputbuf.Wf ∧ s.outputbuf.size = b.size ∧
      bufUsed s.outputbuf + s.frames * w.frameBytes = bufUsed b + F * w.frameBytes)
    (fun s s' hs hspace hnext => by
      obtain ⟨hwf, hsize, hused⟩ := hs
      rcases Nat.eq_zero_or_pos s.frames with hzero | hpos
      · cases (directRound_end hzero).symm.trans hnext
      cases (directRound_stay hpos).symm.trans hnext
      have hcont : s.fits w * w.frameBytes ≤ bufContWrite s.outputbuf :=
        (Nat.le_div_iff_mul_le (Flac.frameBytes_pos w)).mp (Nat.min_le_left ..)
      have hbytes := Nat.le_min.mpr ⟨hspace, hcont⟩
      have hle : s.fits w * w.frameBytes ≤ s.frames * w.frameBytes :=
        Nat.mul_le_mul_right _ (Nat.min_le_right ..)
      refine ⟨Flac.wf_advance hwf hbytes _, hsize, ?_⟩
      rw [Flac.used_advance hwf hbytes, ← hused, Nat.sub_mul]
      omega) n hfree ⟨hwf, rfl, rfl⟩ t ht
  have hzero : t.frames = 0 := by
    by_contra hne
    cases (directRound_stay (Nat.pos_of_ne_zero hne)).symm.trans hstop
  cases (directRound_end hzero).symm.trans hstop
  rw [hzero, Nat.zero_mul, Nat.add_zero] at hused
  refine ⟨hused, Nat.not_lt.mp fun hless => ?_⟩
  have hlt := hwf'.used_lt
  have hspace := hwf.used_add_space
  cases (direct_spins hwf (by omega) hless n).symm.trans hrun

end ToOutputbuf

/-! ### To the processing stage -/

section ToStage

variable {w} {block} {m} {a F maxInFrames : ℕ} {inbuf : ℕ → UInt8} {s : Staged} {r : Reader w}

theorem stagedRound_end (h : s.frames = 0) :
    stagedRound w block m maxInFrames s = .inl s.process :=
  if_neg fun hpos => Nat.ne_of_gt hpos h

/-- A round puts no more into the buffer than there is room for, and no more than is left. -/
theorem stagedRound_stay (h : 0 < s.frames) :
    ∃ s', stagedRound w block m maxInFrames s = .inr s' ∧
      s'.process.inFrames ≤ maxInFrames ∧ s'.frames + s'.process.inFrames = s.frames := by
  refine ⟨_, if_pos h, ?_, ?_⟩
  · exact Nat.le_trans (Nat.min_le_left ..) (Nat.sub_le ..)
  · exact Nat.sub_add_cancel (Nat.min_le_right ..)

/-- Frames for which there is room are there after one round. -/
theorem staged_of_room (hr : block.reader w = some r) (hroom : F ≤ maxInFrames)
    (inbuf : ℕ → UInt8) :
    ∃ n, Loop.run (stagedRound w block m maxInFrames) n ⟨⟨inbuf, 0, []⟩, a, F⟩ =
      some ⟨write inbuf 0 (framesLE w (r.frames m a F)), F, r.loads a F⟩ := by
  rcases Nat.eq_zero_or_pos F with rfl | hpos
  · refine ⟨1, ?_⟩
    rw [Loop.run_inl (stagedRound_end rfl)]
    exact congrArg (fun mem => some (⟨mem, 0, []⟩ : Process)) (write_nil inbuf 0).symm
  · have hround : stagedRound w block m maxInFrames ⟨⟨inbuf, 0, []⟩, a, F⟩ = .inr
        ⟨⟨write inbuf 0 (framesLE w (r.frames m a F)), F, r.loads a F⟩, a + F * r.stride, 0⟩ := by
      refine (if_pos hpos).trans ?_
      cases codec <;>
        simp only [Nat.sub_zero, Nat.min_eq_right hroom, Nat.zero_mul, copied_eq hr,
          Decoded.loads, Decoded.advance, hr, List.nil_append, Nat.sub_self]
    exact ⟨2, (Loop.run_inr hround).trans (Loop.run_inl (stagedRound_end rfl))⟩

/-- The frames that are there in the end are those of the last round. -/
theorem staged_needs {n : ℕ} {e : Process}
    (hrun : Loop.run (stagedRound w block m maxInFrames) n ⟨⟨inbuf, 0, []⟩, a, F⟩ = some e) :
    e.inFrames ≤ maxInFrames ∧ (0 < F → 0 < e.inFrames) ∧ (F = 0 → e = ⟨inbuf, 0, []⟩) := by
  refine ⟨?_, ?_, ?_⟩
  case refine_3 =>
    rintro rfl
    exact (Loop.run_unique (k := 1) hrun (Loop.run_inl (stagedRound_end rfl))).symm ▸ rfl
  all_goals
    obtain ⟨t, ht, hstop⟩ := (Loop.run_eq_some_iff n).mp hrun
    have hkept := Loop.visited_keeps
      (P := fun s : Staged => s.process.inFrames ≤ maxInFrames ∧
        (0 < F → 0 < s.frames ∨ 0 < s.process.inFrames))
      (fun s s' _ hnext => by
        rcases Nat.eq_zero_or_pos s.frames with hzero | hpos
        · cases (stagedRound_end hzero).symm.trans hnext
        obtain ⟨s'', hround, hle, hsum⟩ := @stagedRound_stay w _ block m maxInFrames s hpos
        cases hround.symm.trans hnext
        exact ⟨hle, fun _ => by omega⟩) n ⟨Nat.zero_le _, fun h => .inl h⟩ t ht
    have hzero : t.frames = 0 := by
      by_contra hne
      obtain ⟨s', hround, -⟩ := @stagedRound_stay w _ block m maxInFrames t
        (Nat.pos_of_ne_zero hne)
      cases hround.symm.trans hstop
    cases (stagedRound_end hzero).symm.trans hstop
  · exact hkept.1
  · intro hpos
    rcases hkept.2 hpos with hmore | hsome
    · exact absurd hzero (Nat.ne_of_gt hmore)
    · exact hsome

end ToStage

/-! ### The place in the block -/

section Place

variable {κ : Type} {block} {p : Mp4 κ}

/-- What is to be skipped comes out right unless it falls below 0. -/
theorem credit_eq (hskip : p.skip < 2 ^ 32) {n : ℕ} (hn : n < 2 ^ 31) (h : ¬ Wraps p n) :
    Mp4.credit p.skip p.empty n = owed p n := by
  rw [Mp4.credit, owed]
  cases hempty : p.empty with
  | false => simp only [Bool.false_eq_true, and_false, if_false]
  | true =>
    simp only [Wraps, hempty, true_and, not_and, not_lt] at h
    by_cases hzero : p.skip = 0
    · simp [hzero]
    · have hle := h (Nat.pos_of_ne_zero hzero)
      rw [if_pos ⟨hzero, rfl⟩, if_pos rfl, u32Sub]
      omega

/-- If it does, the whole block is skipped. -/
theorem credit_wraps {n : ℕ} (hn : n < 2 ^ 31) (h : Wraps p n) :
    n ≤ Mp4.credit p.skip p.empty n := by
  obtain ⟨hempty, hpos, hlt⟩ := h
  rw [Mp4.credit, if_pos ⟨Nat.ne_of_gt hpos, hempty⟩, u32Sub]
  omega

theorem size_eq (h : codec = .aac → block.channels ≠ 0) : block.size = block.frames := by
  unfold Decoded.size
  split
  · rfl
  · exact Nat.mul_div_cancel _ (Nat.pos_of_ne_zero (h rfl))

/-- A block of aac without channels has no samples. -/
theorem left_silent (h : codec = .aac ∧ block.channels = 0) : block.left p = 0 :=
  if_pos ⟨h.1, by rw [h.2, Nat.mul_zero]⟩

theorem kept_wraps (h : Wraps p block.frames) : 0 < block.kept p := by
  obtain ⟨hempty, hpos, hlt⟩ := h
  have howed : owed p block.frames = 0 := by
    rw [owed, if_pos hempty]
    omega
  rw [Decoded.kept, howed, Trim.part]
  split <;> omega

theorem left_wraps (h : Wraps p block.frames) (hch : codec = .aac → block.channels ≠ 0) :
    block.left p = 0 := by
  rw [Decoded.left]
  split
  · rfl
  · rw [(Mp4.trim_eq p _).1, size_eq hch, Mp4.part_of_le (credit_wraps block.frames_lt h)]

theorem left_eq (hskip : p.skip < 2 ^ 32) (h : ¬ Wraps p block.frames)
    (hch : codec = .aac → block.channels ≠ 0) :
    block.left p = block.kept p ∧ p.cut block.size = block.dropped p := by
  have hcredit := credit_eq hskip block.frames_lt h
  rw [size_eq hch]
  constructor
  · rw [Decoded.left]
    split
    case isTrue hnone =>
      have hzero : block.frames = 0 :=
        (Nat.mul_eq_zero.mp hnone.2).resolve_right (hch hnone.1)
      rw [Decoded.kept, Trim.part, hzero]
      split <;> simp
    case isFalse => rw [(Mp4.trim_eq p _).1, size_eq hch, hcredit, Decoded.kept]
  · rw [Mp4.cut, hcredit, Decoded.dropped]

theorem dropped_add_kept (block : Decoded codec) (p : Mp4 κ) :
    block.dropped p + block.kept p ≤ block.frames := by
  rw [Decoded.dropped, Decoded.kept, Trim.part]
  split <;> omega

end Place

/-! ### What is stored -/

section Stored

variable {w}

theorem sampleLE_injective {v v' : BitVec w.bits} (h : sampleLE w v = sampleLE w v') : v = v' := by
  have hbyte : ∀ i < w.sampleBytes,
      v.toNat >>> (8 * i) % 256 = v'.toNat >>> (8 * i) % 256 := by
    intro i hi
    have hget := congrArg (fun bs : List UInt8 => (bs[i]?).map UInt8.toNat) h
    simp only [sampleLE, List.getElem?_map, List.getElem?_range hi, Option.map_some,
      UInt8.toNat_ofNat'] at hget
    exact Option.some.inj hget
  simp only [Nat.shiftRight_eq_div_pow] at hbyte
  refine BitVec.eq_of_toNat_eq ?_
  cases w with
  | s16 =>
    have hlt : v.toNat < 2 ^ 16 := v.isLt
    have hlt' : v'.toNat < 2 ^ 16 := v'.isLt
    have h0 := hbyte 0 (by decide)
    have h1 := hbyte 1 (by decide)
    omega
  | s32 =>
    have hlt : v.toNat < 2 ^ 32 := v.isLt
    have hlt' : v'.toNat < 2 ^ 32 := v'.isLt
    have h0 := hbyte 0 (by decide)
    have h1 := hbyte 1 (by decide)
    have h2 := hbyte 2 (by decide)
    have h3 := hbyte 3 (by decide)
    omega

theorem framesLE_injective {fs fs' : List (BitVec w.bits × BitVec w.bits)}
    (h : framesLE w fs = framesLE w fs') : fs = fs' := by
  have hlen : fs.length = fs'.length := by
    have hbytes := congrArg List.length h
    rw [length_framesLE, length_framesLE] at hbytes
    exact Nat.eq_of_mul_eq_mul_right (Flac.frameBytes_pos w) hbytes
  induction fs generalizing fs' with
  | nil => exact (List.length_eq_zero_iff.mp hlen.symm).symm
  | cons f fs ih =>
    obtain ⟨f', fs', rfl⟩ :=
      List.exists_cons_of_length_pos (Nat.lt_of_lt_of_eq (Nat.succ_pos _) hlen)
    rw [framesLE, framesLE, List.flatMap_cons, List.flatMap_cons] at h
    obtain ⟨hframe, hrest⟩ := List.append_inj h (by rw [length_frameLE, length_frameLE])
    obtain ⟨hleft, hright⟩ := List.append_inj hframe (by simp [sampleLE])
    rw [Prod.ext (sampleLE_injective hleft) (sampleLE_injective hright),
      ih hrest (Nat.succ.inj hlen)]

theorem write_injective {mem : ℕ → UInt8} {a : ℕ} {bs bs' : List UInt8}
    (hlen : bs.length = bs'.length) (h : write mem a bs = write mem a bs') : bs = bs' := by
  refine List.ext_getElem hlen fun i hi hi' => ?_
  rw [← write_add (m := mem) (p := a) hi, ← write_add (m := mem) (p := a) hi', h]

end Stored

/-! ### The main result -/

section Whole

variable {w} {block} {κ : Type} {p : Mp4 κ} {target : Flac.Target} {r : Reader w}

theorem length_due (h : block.Plain) (m : ℕ → UInt8) :
    (block.due w m p).length = block.kept p := by
  rw [Decoded.due, if_pos h, List.length_map, List.length_range]

/-- With nothing left nothing is stored. -/
theorem handsOver_none (h : block.left p = 0) (hdue : ∀ m, block.due w m p = []) :
    HandsOver w block p target := by
  cases target with
  | direct b =>
    intro m mem
    refine ⟨1, _, Loop.run_inl (directRound_end h), ?_, fun _ _ => rfl, ?_, ?_⟩
    · rw [hdue]
      exact (List.append_nil _).symm
    · exact fun l hl => absurd hl List.not_mem_nil
    · intro s hs
      rw [Loop.visited_inl (directRound_end h), List.mem_singleton] at hs
      rw [hs, Direct.fits, h, Nat.min_zero, Nat.zero_mul]
      exact Nat.zero_le _
  | staged maxInFrames =>
    intro m inbuf
    refine ⟨1, _, Loop.run_inl (stagedRound_end h), ?_, Nat.zero_le _, ?_, ?_⟩
    · rw [hdue]
      rfl
    · rw [hdue]
      exact (write_nil inbuf 0).symm
    · exact fun l hl => absurd hl List.not_mem_nil

/-- What is handed over has room, and is as much as the loop stores. -/
theorem due_of_handsOver (hwf : target.Wf) (h : HandsOver w block p target) (m : ℕ → UInt8) :
    (block.left p = 0 ↔ (block.due w m p).length = 0) ∧
      (block.due w m p).length ≤ target.room w := by
  cases target with
  | direct b =>
    obtain ⟨n, e, hrun, hcontent, -, -, hfree⟩ := h m b.mem
    obtain ⟨hused, hroom⟩ := direct_needs hwf hrun hfree
    have hlen := congrArg List.length hcontent
    rw [List.length_append, Buffer.Wf.length_content, Buffer.Wf.length_content, length_framesLE,
      hused] at hlen
    have hsame : block.left p = (block.due w m p).length :=
      Nat.eq_of_mul_eq_mul_right (Flac.frameBytes_pos w) (Nat.add_left_cancel hlen)
    exact ⟨by rw [hsame], hsame ▸ hroom⟩
  | staged maxInFrames =>
    obtain ⟨n, e, hrun, hframes, hle, -, -⟩ := h m fun _ => 0
    obtain ⟨-, hpos, hzero⟩ := staged_needs hrun
    rw [← hframes]
    refine ⟨⟨fun h0 => by rw [hzero h0], fun h0 => ?_⟩, hle⟩
    exact Nat.eq_zero_of_not_pos fun hmore => Nat.ne_of_gt (hpos hmore) h0

/-- With room for all frames those that are read are to be the frames of the block, and in it. -/
theorem handsOver_iff_reads (hwf : target.Wf) (hr : block.reader w = some r)
    (hroom : block.left p ≤ target.room w)
    (hlen : ∀ m, (block.due w m p).length = block.left p) :
    HandsOver w block p target ↔
      (∀ m, r.frames m (block.iptr p) (block.left p) = block.due w m p) ∧
        ∀ l ∈ r.loads (block.iptr p) (block.left p), l.1 + l.2 ≤ block.bytes := by
  cases target with
  | direct b =>
    have hwf' : ∀ mem, ({ b with mem := mem } : Buffer).Wf := fun mem =>
      ⟨hwf.1, hwf.2, hwf.3, hwf.4, hwf.5, hwf.6, hwf.7⟩
    constructor
    · intro h
      have hboth : ∀ m, r.frames m (block.iptr p) (block.left p) = block.due w m p ∧
          ∀ l ∈ r.loads (block.iptr p) (block.left p), l.1 + l.2 ≤ block.bytes := by
        intro m
        obtain ⟨n, e, hrun, hcontent, -, hloads, -⟩ := h m b.mem
        obtain ⟨n', b', hrun', hcontent', -, -⟩ := direct_of_room (m := m) (a := block.iptr p) hr
          (hwf' b.mem) hroom
        obtain rfl := Loop.run_unique hrun hrun'
        exact ⟨framesLE_injective (List.append_cancel_left (hcontent'.symm.trans hcontent)), hloads⟩
      exact ⟨fun m => (hboth m).1, (hboth fun _ => 0).2⟩
    · rintro ⟨hframes, hloads⟩ m mem
      obtain ⟨n, b', hrun, hcontent, hbehind, hfree⟩ := direct_of_room (m := m)
        (a := block.iptr p) hr (hwf' mem) hroom
      exact ⟨n, _, hrun, hframes m ▸ hcontent, hbehind, hloads, hfree⟩
  | staged maxInFrames =>
    constructor
    · intro h
      have hboth : ∀ m, r.frames m (block.iptr p) (block.left p) = block.due w m p ∧
          ∀ l ∈ r.loads (block.iptr p) (block.left p), l.1 + l.2 ≤ block.bytes := by
        intro m
        obtain ⟨n, e, hrun, -, -, hinbuf, hloads⟩ := h m fun _ => 0
        obtain ⟨n', hrun'⟩ := staged_of_room (m := m) (a := block.iptr p) hr hroom fun _ => 0
        obtain rfl := Loop.run_unique hrun hrun'
        simp only at hinbuf
        refine ⟨framesLE_injective (write_injective ?_ hinbuf), hloads⟩
        rw [length_framesLE, length_framesLE, length_frames, hlen]
      exact ⟨fun m => (hboth m).1, (hboth fun _ => 0).2⟩
    · rintro ⟨hframes, hloads⟩ m inbuf
      obtain ⟨n, hrun⟩ := staged_of_room (m := m) (a := block.iptr p) hr hroom inbuf
      exact ⟨n, _, hrun, (hlen m).symm, hroom, by rw [hframes], hloads⟩

/-- Frames that are read where they are, are those of the block. -/
theorem reads_block (hreads : Reads w codec block.channels r) (hplain : block.Plain)
    (hplace : block.iptr p = block.dropped p * block.channels * codec.bytes)
    (hlast : codec = .alac 24 → block.dropped p + block.kept p < block.frames) :
    (∀ m, r.frames m (block.iptr p) (block.kept p) = block.due w m p) ∧
      ∀ l ∈ r.loads (block.iptr p) (block.kept p), l.1 + l.2 ≤ block.bytes := by
  have hpos : 0 < block.channels := by
    have hch := hplain.1
    omega
  have hat : ∀ k, block.iptr p + k * r.stride =
      (block.dropped p + k) * block.channels * codec.bytes := by
    intro k
    rw [hplace, hreads.stride, ← Nat.mul_assoc, ← Nat.add_mul, ← Nat.add_mul]
  constructor
  · intro m
    rw [Reader.frames, Decoded.due, if_pos hplain]
    refine List.map_congr_left fun k _ => ?_
    rw [Reader.frame, hreads.sample, hreads.sample, hat, hreads.right, Decoded.wanted,
      ← Nat.add_mul]
  · intro l hl
    obtain ⟨k, hk, hl⟩ := List.mem_flatMap.mp hl
    rw [List.mem_range] at hk
    have hsum := dropped_add_kept block p
    -- the bytes of this frame, and of those before it
    have hend : (block.dropped p + k) * block.channels * codec.bytes +
        ((block.channels - 1) * codec.bytes + codec.bytes) =
          (block.dropped p + k + 1) * (block.channels * codec.bytes) := by
      rw [← Nat.succ_mul, Nat.succ_eq_add_one, Nat.sub_add_cancel hpos, Nat.succ_mul,
        Nat.mul_assoc]
    have hbytes : block.bytes = block.frames * (block.channels * codec.bytes) := Nat.mul_assoc ..
    have hle : ∀ j, block.dropped p + k + j ≤ block.frames →
        (block.dropped p + k + j) * (block.channels * codec.bytes) ≤ block.bytes := fun j hj =>
      hbytes ▸ Nat.mul_le_mul_right _ hj
    have hone := hle 1 (by omega)
    rw [hat, hreads.right, hreads.width] at hl
    split at hl
    case isFalse =>
      rcases List.mem_pair.mp hl with rfl | rfl
      · simp only
        omega
      · simp only
        omega
    case isTrue h24 =>
      subst h24
      have htwo := hle 2 (by have hless := hlast rfl; omega)
      have hthree : Codec.bytes (.alac 24) = 3 := rfl
      rw [hthree] at hl hend htwo
      have hmore : 1 ≤ block.channels * 3 := Nat.mul_pos hpos (by decide)
      rw [Nat.succ_mul (_ + 1)] at htwo
      rcases List.mem_pair.mp hl with rfl | rfl
      · simp only
        omega
      · simp only
        omega

/-- A place in bytes is no place in bits. -/
theorem bits_place {bits d n : ℕ} (h : Flac.Supported bits) (hle : d ≤ n)
    (hlt : n * 2 * (bits / 8) < 2 ^ 32) (heq : d * 2 * (bits / 8) = d * 2 * bits % 2 ^ 32) :
    d = 0 := by
  obtain ⟨k, hk, rfl⟩ : ∃ k, 0 < k ∧ bits = 8 * k := by
    rcases h with rfl | rfl | rfl | rfl
    exacts [⟨1, by decide, rfl⟩, ⟨2, by decide, rfl⟩, ⟨3, by decide, rfl⟩, ⟨4, by decide, rfl⟩]
  rw [Nat.mul_div_cancel_left k (by decide)] at hlt heq
  have hbytes : d * 2 * k = 2 * (d * k) := by rw [Nat.mul_comm d 2, Nat.mul_assoc]
  have hsixteen : d * 2 * (8 * k) = 16 * (d * k) := by
    rw [Nat.mul_left_comm, hbytes, ← Nat.mul_assoc]
  have hless : 2 * (d * k) < 2 * 2 ^ 31 :=
    hbytes ▸ Nat.lt_of_le_of_lt (Nat.mul_le_mul_right k (Nat.mul_le_mul_right 2 hle)) hlt
  rw [hbytes, hsixteen] at heq
  -- the difference, fourteen bytes for each, is no multiple of the address space
  have hdvd := Nat.dvd_sub_mod (n := 2 ^ 32) (16 * (d * k))
  rw [← heq, ← Nat.sub_mul, show (16 - 2) * (d * k) = 2 * (7 * (d * k)) by omega] at hdvd
  have hseven : 2 ^ 31 ∣ 7 * (d * k) := Nat.dvd_of_mul_dvd_mul_left two_pos hdvd
  have hzero : d * k = 0 := Nat.eq_zero_of_dvd_of_lt
    ((Nat.Coprime.pow_left 31 (by decide)).dvd_of_dvd_mul_left hseven)
    (Nat.lt_of_mul_lt_mul_left hless)
  exact (Nat.mul_eq_zero.mp hzero).resolve_right (Nat.ne_of_gt hk)

/-- alac takes the samples from elsewhere, unless there are two channels and nothing is skipped. -/
theorem alac_place {bits : ℕ} {block : Decoded (.alac bits)} (hbits : Flac.Supported bits)
    (hr : block.reader w = some r) (hreads : Reads w (.alac bits) 2 r)
    (hch : block.channels = 1 ∨ block.channels = 2) (hcut : p.cut block.size = block.dropped p)
    (hpos : 0 < block.kept p)
    (hframes : ∀ m, r.frames m (block.iptr p) (block.kept p) = block.due w m p) :
    block.channels = 2 ∧ block.dropped p = 0 := by
  have hfirst : ∀ m, r.frame m (block.iptr p) = block.wanted w m (block.dropped p) := by
    intro m
    have hget := congrArg (·[0]?) (hframes m)
    rw [Decoded.due, if_pos ⟨hch, hbits⟩] at hget
    simpa [Reader.frames, List.getElem?_range hpos] using hget
  have hleft : block.iptr p = block.dropped p * block.channels * (bits / 8) :=
    justified_address hbits fun m =>
      (hreads.sample m _).symm.trans (congrArg Prod.fst (hfirst m))
  have hright : block.iptr p + r.right =
      (block.dropped p * block.channels + (block.channels - 1)) * (bits / 8) :=
    justified_address hbits fun m =>
      (hreads.sample m _).symm.trans (congrArg Prod.snd (hfirst m))
  have hone : 0 < bits / 8 := by
    rcases hbits with rfl | rfl | rfl | rfl <;> decide
  have hr2 : r.right = bits / 8 := hreads.right.trans (Nat.one_mul _)
  rcases hch with hmono | hstereo
  · rw [hmono, Nat.mul_one, Nat.sub_self, Nat.add_zero] at hright
    rw [hmono, Nat.mul_one] at hleft
    omega
  · refine ⟨hstereo, ?_⟩
    have hiptr : block.iptr p = p.cut block.size * block.channels * bits % 2 ^ 32 := rfl
    rw [hleft, hcut] at hiptr
    have hlt : block.frames * block.channels * (bits / 8) < 2 ^ 32 := block.bytes_lt
    rw [hstereo] at hlt hiptr
    exact bits_place hbits (Nat.min_le_left ..) hlt hiptr

/-- What is left of a block is handed over if and only if nothing is left, or nothing is done and
nothing is to be done, or there is room for it, and the stream is read as it is. -/
theorem blockHandsOver_iff (w : Build) {codec : Codec} (block : Decoded codec) {κ : Type} (p : Mp4 κ)
    (hskip : p.skip < 2 ^ 32) (target : Flac.Target) (hwf : target.Wf) :
    HandsOver w block p target ↔ Fine w block p target := by
  by_cases hsilent : codec = .aac ∧ block.channels = 0
  · -- a block without samples
    refine iff_of_true (handsOver_none (left_silent hsilent) fun m => if_neg ?_)
      (.inr (.inl hsilent))
    rintro ⟨hch, -⟩
    have hzero := hsilent.2
    omega
  have hch : codec = .aac → block.channels ≠ 0 := fun h h0 => hsilent ⟨h, h0⟩
  by_cases hwraps : Wraps p block.frames
  · -- the block is skipped as a whole
    have hleft := left_wraps hwraps hch
    have hkept := kept_wraps hwraps
    constructor
    · intro h
      refine .inr (.inr (.inl ⟨hwraps, fun hplain => ?_⟩))
      have hzero := (due_of_handsOver hwf h fun _ => 0).1.mp hleft
      rw [length_due hplain] at hzero
      exact Nat.ne_of_gt hkept hzero
    · rintro (hzero | h | ⟨-, hplain⟩ | ⟨hnot, -⟩)
      · exact absurd hzero (Nat.ne_of_gt hkept)
      · exact absurd h hsilent
      · exact handsOver_none hleft fun m => if_neg hplain
      · exact absurd hwraps hnot
  obtain ⟨hleft, hcut⟩ := left_eq hskip hwraps hch
  rcases Nat.eq_zero_or_pos (block.kept p) with hzero | hpos
  · refine iff_of_true (handsOver_none (hleft.trans hzero) fun m => ?_) (.inl hzero)
    rw [Decoded.due, hzero]
    exact ite_self _
  constructor
  · intro h
    obtain ⟨hnone, hroom⟩ := due_of_handsOver hwf h fun _ => 0
    have hplain : block.Plain := by
      by_contra hnot
      refine Nat.ne_of_gt hpos (hleft.symm.trans (hnone.mpr ?_))
      rw [Decoded.due, if_neg hnot]
      rfl
    rw [length_due hplain] at hroom
    refine .inr (.inr (.inr ⟨hwraps, ?_, hroom⟩))
    cases codec with
    | aac => exact hplain.1
    | alac bits =>
      obtain ⟨r, hr, hreads⟩ : ∃ r, block.reader w = some r ∧ Reads w (.alac bits) 2 r :=
        alac_reads hplain.2
      obtain ⟨hframes, hloads⟩ := (handsOver_iff_reads hwf hr (hleft.symm ▸ hroom) fun m =>
        (length_due hplain m).trans hleft.symm).mp h
      rw [hleft] at hframes hloads
      obtain ⟨hstereo, hdropped⟩ := alac_place hplain.2 hr hreads hplain.1 hcut hpos hframes
      refine ⟨hstereo, hplain.2, hdropped, ?_⟩
      rintro rfl
      -- the right sample of the last frame
      have hlast := hloads (block.iptr p + (block.kept p - 1) * r.stride + r.right, r.width)
        (List.mem_flatMap.mpr ⟨block.kept p - 1, List.mem_range.mpr (Nat.sub_lt hpos one_pos),
          by simp⟩)
      have hbytes : block.bytes = block.frames * 2 * 3 := by rw [← hstereo]; rfl
      have hstride : r.stride = 6 := hreads.stride
      have hright : r.right = 3 := hreads.right
      have hwidth : r.width = 4 := hreads.width
      rw [hbytes, hstride, hright, hwidth] at hlast
      simp only at hlast
      omega
  · rintro (hzero | h | ⟨h, -⟩ | ⟨-, hsound, hroom⟩)
    · exact absurd hzero (Nat.ne_of_gt hpos)
    · exact absurd h hsilent
    · exact absurd h hwraps
    have hle := dropped_add_kept block p
    cases codec with
    | aac =>
      have hplain : block.Plain := ⟨hsound, by decide⟩
      obtain ⟨r, hr, hreads⟩ : ∃ r, block.reader w = some r ∧ Reads w .aac block.channels r :=
        aac_reads hsound
      refine (handsOver_iff_reads hwf hr (hleft.symm ▸ hroom) fun m =>
        (length_due hplain m).trans hleft.symm).mpr ?_
      rw [hleft]
      refine reads_block hreads hplain ?_ fun h => by cases h
      have hmul : block.dropped p * block.channels ≤ block.frames * block.channels :=
        Nat.mul_le_mul_right _ (Nat.min_le_left ..)
      have hlt : block.frames * block.channels * 2 < 2 ^ 32 := block.bytes_lt
      have hiptr : block.iptr p = 2 * (p.cut block.size * block.channels % 2 ^ 32) := rfl
      rw [hiptr, hcut, Nat.mod_eq_of_lt (by omega), Nat.mul_comm]
      rfl
    | alac bits =>
      obtain ⟨hstereo, hbits, hdropped, hlast⟩ := hsound
      have hplain : block.Plain := ⟨.inr hstereo, hbits⟩
      obtain ⟨r, hr, hreads⟩ : ∃ r, block.reader w = some r ∧ Reads w (.alac bits) 2 r :=
        alac_reads hbits
      refine (handsOver_iff_reads hwf hr (hleft.symm ▸ hroom) fun m =>
        (length_due hplain m).trans hleft.symm).mpr ?_
      rw [hleft]
      refine reads_block (hstereo ▸ hreads) hplain ?_ fun h => ?_
      · have hiptr : block.iptr p = p.cut block.size * block.channels * bits % 2 ^ 32 := rfl
        simp only [hiptr, hcut, hdropped, Nat.zero_mul, Nat.zero_mod]
      · cases h
        have hless := hlast rfl
        omega

end Whole

/-- A block of stereo samples of 16 bits, as the encoder has them by default. -/
def alacBlock : Decoded (.alac 16) := ⟨4096, 2, by decide, by decide⟩

/-- A block of a single channel. -/
def aacBlock : Decoded .aac := ⟨1024, 1, by decide, by decide⟩

/-- So many frames are to be skipped, and so many to be kept. -/
def trimming (skip samples : ℕ) : Mp4 Unit := { Mp4.zero () with skip := skip, samples := samples }

theorem aac_mono :
    HandsOver .s32 aacBlock (trimming 1000 20) (.direct (Flac.emptyBuffer 32768)) :=
  (blockHandsOver_iff .s32 aacBlock (trimming 1000 20) (by decide) (.direct (Flac.emptyBuffer 32768))
    (wf_bufInit _ (by decide))).mpr (.inr (.inr (.inr ⟨by decide, .inl rfl, by decide +kernel⟩)))

/-- With 2112 frames to be skipped alac reads behind the end of the block. -/
theorem alac_reads_behind :
    65536 < bufSpace (Flac.emptyBuffer 65540) ∧
      ¬ HandsOver .s16 alacBlock (trimming 2112 0) (.direct (Flac.emptyBuffer 65540)) := by
  refine ⟨by decide, fun h => ?_⟩
  have hlen : ∀ m, (alacBlock.due .s16 m (trimming 2112 0)).length =
      alacBlock.left (trimming 2112 0) := fun m =>
    (length_due ⟨.inr rfl, by decide⟩ m).trans (by decide)
  have hwf : (Flac.Target.direct (Flac.emptyBuffer 65540)).Wf := wf_bufInit _ (by decide)
  obtain ⟨-, hloads⟩ := (handsOver_iff_reads (r := ⟨2, 2, align .s16 16, 4⟩) hwf rfl
    (by decide +kernel) hlen).mp h
  have hfirst := hloads (67584, 2) (List.mem_flatMap.mpr ⟨0, List.mem_range.mpr (by decide),
    List.mem_pair.mpr (.inl rfl)⟩)
  exact absurd hfirst (by decide)

end Trimmed

end SqueezeliteMuse
