/-
SqueezeliteMuse/OggOutput.lean

`vorbis_decode` of vorbis.c and `opus_decompress` of opus.c.

The library writes samples of 16 bits to an interim buffer, to `outputbuf` or to the buffer of the
processing stage, and they are unpacked from there, the last one first, over themselves where they
are in their place.  What the two functions have in common is written once; `vorbis_decode` gives up
a stream of more than two channels, and `opus_decompress` does not.

The library is taken to write no more values than it is asked for, whole frames of them, and to
report at least one channel.  The stage has taken its frames before the next call
(`process.in_frames` is 0).

Main result: `handsOver_iff`: a call hands over what the library wrote, in its order, and the
library cannot write out of bounds, if and only if this is vorbis, or there are at most two
channels, or the library is not asked, or it is asked for what fits and writes nothing.
-/
import SqueezeliteMuse.FlacOutput

namespace SqueezeliteMuse

namespace Ogg

open Ring Flac

/-! ### The code -/

inductive Codec
  | vorbis
  | opus
  deriving DecidableEq

/-- What the functions return. -/
inductive Result
  | running
  | complete
  | error
  deriving DecidableEq

/-- What the library returns: frames that it has written, none, a hole, or an error. -/
inductive Reply
  | frames (pcm : List (BitVec 16))
  | none
  | hole
  | error

/-- `FRAME_BUF` -/
def FRAME_BUF : ℕ := 2048

/-- What a call finds. -/
structure Call where
  /-- `decode.direct` -/
  direct : Bool
  outputbuf : Buffer
  /-- `write_buf`, with `FRAME_BUF` -/
  interim : ℕ → UInt8
  /-- `process.inbuf` and `process.max_in_frames` -/
  inbuf : ℕ → UInt8
  maxInFrames : ℕ
  /-- `stream.state <= DISCONNECT` -/
  ended : Bool
  /-- `!_buf_used(streambuf)` -/
  empty : Bool
  /-- The library opens the stream. -/
  opened : Bool
  reply : Reply

/-- What stays from call to call: what was returned, `decode.new_stream` and `channels`. -/
structure Decoder where
  result : Result
  newStream : Bool
  channels : ℕ

/-- What a call leaves; `asked` are the values that the library was asked for. -/
structure Effect where
  decoder : Decoder
  outputbuf : Buffer
  inbuf : ℕ → UInt8
  inFrames : ℕ
  asked : Option ℕ

/-- The sample of 16 bits at an address. -/
def s16At (m : ℕ → UInt8) (p : ℕ) : BitVec 16 := (m (p + 1)).toBitVec ++ (m p).toBitVec

/-- The bytes that the library writes. -/
def pcmLE (pcm : List (BitVec 16)) : List UInt8 :=
  pcm.flatMap fun v : BitVec 16 => sampleLE .s16 v

variable (w : Build)

/-- `ALIGN` -/
def align (v : BitVec 16) : BitVec w.bits :=
  match w with
  | .s16 => v
  | .s32 => v.setWidth 32 <<< 16

/-- `*--optr = ALIGN(*--iptr)`, twice for a single channel, for the samples `count - 1`, …, 0;
`read` is how a sample is read from the memory as it is then. -/
def unpack (read : (ℕ → UInt8) → ℕ → BitVec 16) (single : Bool) (p : ℕ) :
    ℕ → (ℕ → UInt8) → ℕ → UInt8
  | 0, m => m
  | j + 1, m =>
      if single then
        let m := write m (p + (2 * j + 1) * w.sampleBytes) (sampleLE w (align w (read m j)))
        unpack read single p j (write m (p + 2 * j * w.sampleBytes) (sampleLE w (align w (read m j))))
      else unpack read single p j (write m (p + j * w.sampleBytes) (sampleLE w (align w (read m j))))

/-- What the samples are made to, with `count` of them: `optr` is at `p` in the memory, and they
are there as well, or they are in an interim buffer of their own. -/
def spread (channels : ℕ) (interim : Option (ℕ → UInt8)) (p frames : ℕ) (m : ℕ → UInt8) :
    ℕ → UInt8 :=
  let read := match interim with
    | some buf => fun _ j => s16At buf (2 * j)
    | none => fun m j => s16At m (p + 2 * j)
  if channels = 2 then
    match w, interim with
    | .s16, some buf => write m p ((List.range (frames * 4)).map buf)
    | .s16, none => m
    | .s32, _ => unpack .s32 read false p (frames * channels) m
  else if channels = 1 then unpack w read true p (frames * channels) m
  else m

variable (frameBuf : Bool) (c : Call)

/-- `frames`, when the library is asked. -/
def Call.frames : ℕ :=
  if c.direct then
    let frames := min (bufSpace c.outputbuf) (bufContWrite c.outputbuf) / w.frameBytes
    if frameBuf then min frames FRAME_BUF else frames
  else c.maxInFrames

/-- The bytes that there are for the library at `write_buf`. -/
def Call.capacity : ℕ :=
  if c.direct then
    if frameBuf then FRAME_BUF * w.frameBytes
    else min (bufSpace c.outputbuf) (bufContWrite c.outputbuf)
  else c.maxInFrames * w.frameBytes

/-- The part for `n > 0`: the library has written `pcm`, `frames` frames. -/
def Call.take (channels frames : ℕ) (pcm : List (BitVec 16)) : Buffer × (ℕ → UInt8) × ℕ :=
  if c.direct then
    let p := c.outputbuf.writep - c.outputbuf.buf
    let mem :=
      if frameBuf then
        spread w channels (some (write c.interim 0 (pcmLE pcm))) p frames c.outputbuf.mem
      else spread w channels none p frames (write c.outputbuf.mem p (pcmLE pcm))
    (bufIncWritep { c.outputbuf with mem := mem } (frames * w.frameBytes), c.inbuf, 0)
  else (c.outputbuf, spread w channels none 0 frames (write c.inbuf 0 (pcmLE pcm)), frames)

/-- Nothing is written, and so it is returned. -/
def Call.leave (d : Decoder) (asked : Option ℕ) : Effect where
  decoder := d
  outputbuf := c.outputbuf
  inbuf := c.inbuf
  inFrames := 0
  asked := asked

/-- The number of frames for `n`, in bytes or in frames. -/
def framesOf : Codec → ℕ → List (BitVec 16) → ℕ
  | .vorbis, channels, pcm => 2 * pcm.length / 2 / channels
  | .opus, channels, pcm => pcm.length / channels

/-- What is done with the library, from `frames` on. -/
def Call.hand (codec : Codec) (d : Decoder) : Effect :=
  let asked := some (c.frames w frameBuf * d.channels)
  match c.reply with
  | .frames pcm =>
      let (outputbuf, inbuf, inFrames) :=
        c.take w frameBuf d.channels (framesOf codec d.channels pcm) pcm
      ⟨{ d with result := .running }, outputbuf, inbuf, inFrames, asked⟩
  | .none => c.leave { d with result := if c.ended then .complete else .running } asked
  | .hole => c.leave { d with result := .running } asked
  | .error => c.leave { d with result := .complete } asked

/-- `vorbis_decode`; `channels` is `info->channels`. -/
def vorbisDecode (channels : ℕ) (d : Decoder) : Effect :=
  if c.ended ∧ c.empty then c.leave { d with result := .complete } none
  else if d.newStream then
    if !c.opened then c.leave { d with result := .complete } none
    else
      let d := { d with newStream := false, channels := channels }
      if channels > 2 then c.leave { d with result := .error } none
      else c.hand w frameBuf .vorbis d
  else c.hand w frameBuf .vorbis d

/-- `opus_decompress`; `channels` is `info->channel_count`. -/
def opusDecompress (channels : ℕ) (d : Decoder) : Effect :=
  if c.ended ∧ c.empty then c.leave { d with result := .complete } none
  else if d.newStream then
    if !c.opened then c.leave { d with result := .complete } none
    else c.hand w frameBuf .opus { d with newStream := false, channels := channels }
  else c.hand w frameBuf .opus d

/-- The function of the codec. -/
def decode (codec : Codec) (channels : ℕ) (d : Decoder) : Effect :=
  match codec with
  | .vorbis => vorbisDecode w frameBuf c channels d
  | .opus => opusDecompress w frameBuf c channels d

/-- The states of a stream: `codec_open`, and calls as long as it runs. -/
inductive Reachable (codec : Codec) (channels : ℕ) : Decoder → Prop
  | opened (channels' : ℕ) : Reachable codec channels ⟨.running, true, channels'⟩
  | call {d : Decoder} (h : Reachable codec channels d) (hrun : d.result = .running) (c : Call) :
      Reachable codec channels (decode w frameBuf c codec channels d).decoder

/-! ### What is required -/

/-- Values two by two. -/
def pairs {α : Type} : List α → List (α × α)
  | l :: r :: rest => (l, r) :: pairs rest
  | _ => []

/-- The frames for the samples of a stream. -/
def wanted (channels : ℕ) (pcm : List (BitVec 16)) : List (BitVec w.bits × BitVec w.bits) :=
  if channels = 1 then pcm.map fun v => (align w v, align w v)
  else if channels = 2 then (pairs pcm).map fun f => (align w f.1, align w f.2)
  else []

/-- The library is asked. -/
def Call.Asks (d : Decoder) : Prop := ¬ (c.ended ∧ c.empty) ∧ (d.newStream → c.opened)

instance (d : Decoder) : Decidable (c.Asks d) := inferInstanceAs (Decidable (_ ∧ _))

/-- The library writes whole frames, and no more than it is asked for. -/
def Reply.Honest (channels request : ℕ) : Reply → Prop
  | .frames pcm => 0 < pcm.length ∧ channels ∣ pcm.length ∧ pcm.length ≤ request
  | _ => True

/-- Nothing is written. -/
def Reply.Empty : Reply → Prop
  | .frames _ => False
  | _ => True

/-- The frames that a call has to hand over. -/
def Call.due (channels : ℕ) (d : Decoder) : List (BitVec w.bits × BitVec w.bits) :=
  match c.reply with
  | .frames pcm => if c.Asks d then wanted w channels pcm else []
  | _ => []

/-- The library cannot write out of bounds, and its frames are handed over. -/
structure HandsOver (codec : Codec) (channels : ℕ) (d : Decoder) : Prop where
  bounded : ∀ n ∈ (decode w frameBuf c codec channels d).asked, 2 * n ≤ c.capacity w frameBuf
  outputbuf : (decode w frameBuf c codec channels d).outputbuf.content =
    c.outputbuf.content ++ if c.direct then framesLE w (c.due w channels d) else []
  behind : ∀ i, c.outputbuf.size ≤ i →
    (decode w frameBuf c codec channels d).outputbuf.mem i = c.outputbuf.mem i
  inFrames : (decode w frameBuf c codec channels d).inFrames =
    if c.direct then 0 else (c.due w channels d).length
  inbuf : (decode w frameBuf c codec channels d).inbuf =
    if c.direct then c.inbuf else write c.inbuf 0 (framesLE w (c.due w channels d))

/-! ### Blocks of bytes -/

section Bytes

variable {w} {m m' : ℕ → UInt8} {p : ℕ}

/-- A block that is written behind another one. -/
theorem write_append (m : ℕ → UInt8) (p : ℕ) (bs bs' : List UInt8) :
    write (write m (p + bs.length) bs') p bs = write m p (bs ++ bs') := by
  funext i
  rcases Nat.lt_or_ge i p with hlt | hge
  · rw [write_of_lt hlt, write_of_lt (by omega), write_of_lt hlt]
  obtain ⟨k, rfl⟩ := Nat.exists_eq_add_of_le hge
  rcases Nat.lt_or_ge k bs.length with hk | hk
  · rw [write_add hk, write_add (by rw [List.length_append]; omega), List.getElem_append_left hk]
  · rw [write_of_ge (by omega)]
    obtain ⟨j, rfl⟩ := Nat.exists_eq_add_of_le hk
    rw [← Nat.add_assoc]
    rcases Nat.lt_or_ge j bs'.length with hj | hj
    · rw [write_add hj, Nat.add_assoc, write_add (by rw [List.length_append]; omega),
        List.getElem_append_right (by omega)]
      simp only [Nat.add_sub_cancel_left]
    · rw [write_of_ge (by omega), write_of_ge (by rw [List.length_append]; omega)]

/-- A block that is written over a shorter one. -/
theorem write_write (m : ℕ → UInt8) (p : ℕ) {bs bs' : List UInt8} (h : bs.length ≤ bs'.length) :
    write (write m p bs) p bs' = write m p bs' := by
  funext i
  rcases Nat.lt_or_ge i p with hlt | hge
  · rw [write_of_lt hlt, write_of_lt hlt, write_of_lt hlt]
  obtain ⟨k, rfl⟩ := Nat.exists_eq_add_of_le hge
  rcases Nat.lt_or_ge k bs'.length with hk | hk
  · rw [write_add hk, write_add hk]
  · rw [write_of_ge (by omega), write_of_ge (by omega), write_of_ge (by omega)]

theorem length_sampleLE (v : BitVec w.bits) : (sampleLE w v).length = w.sampleBytes := by
  rw [sampleLE, List.length_map, List.length_range]

theorem length_pcmLE (pcm : List (BitVec 16)) : (pcmLE pcm).length = 2 * pcm.length := by
  induction pcm with
  | nil => rfl
  | cons v pcm ih =>
    have hv : (sampleLE .s16 v).length = 2 := length_sampleLE (w := .s16) v
    rw [pcmLE, List.flatMap_cons, List.length_append, hv, ← pcmLE, ih, List.length_cons]
    omega

/-- The two bytes of a sample, put together. -/
theorem s16At_write {pcm : List (BitVec 16)} {j : ℕ} (h : j < pcm.length) :
    s16At (write m p (pcmLE pcm)) (p + 2 * j) = pcm.getD j 0 := by
  have hbytes : ∀ (pcm : List (BitVec 16)) (j : ℕ) (hj : j < pcm.length),
      (pcmLE pcm)[2 * j]? = some (UInt8.ofNat pcm[j].toNat) ∧
        (pcmLE pcm)[2 * j + 1]? = some (UInt8.ofNat (pcm[j].toNat >>> 8)) := by
    intro pcm
    induction pcm with
    | nil => exact fun j hj => absurd hj (Nat.not_lt_zero j)
    | cons v pcm ih =>
      intro j hj
      cases j with
      | zero => exact ⟨rfl, rfl⟩
      | succ j => exact ih j (Nat.lt_of_succ_lt_succ hj)
  obtain ⟨hlow, hhigh⟩ := hbytes pcm j h
  have hlen := length_pcmLE pcm
  rw [List.getElem?_eq_getElem (by omega)] at hlow hhigh
  have hword : (UInt8.ofNat (pcm[j].toNat >>> 8)).toBitVec ++ (UInt8.ofNat pcm[j].toNat).toBitVec =
      pcm[j] := by
    generalize pcm[j] = v
    refine BitVec.eq_of_toNat_eq ?_
    have hlt := v.isLt
    rw [BitVec.toNat_append, UInt8.toNat_toBitVec, UInt8.toNat_toBitVec, UInt8.toNat_ofNat',
      UInt8.toNat_ofNat', ← Nat.shiftLeft_add_eq_or_of_lt (Nat.mod_lt _ (by decide)),
      Nat.shiftLeft_eq, Nat.shiftRight_eq_div_pow]
    omega
  rw [s16At, Nat.add_assoc, write_add (by omega), write_add (by omega), Option.some.inj hlow,
    Option.some.inj hhigh, hword, List.getD_eq_getElem?_getD, List.getElem?_eq_getElem h,
    Option.getD_some]

end Bytes

/-! ### Unpacking -/

section Unpack

variable {w} {read : (ℕ → UInt8) → ℕ → BitVec 16} {p : ℕ}

/-- What a sample is unpacked to. -/
def unpacked (w : Build) (single : Bool) (v : BitVec 16) : List UInt8 :=
  if single then sampleLE w (align w v) ++ sampleLE w (align w v) else sampleLE w (align w v)

theorem sampleBytes_ge (w : Build) : 2 ≤ w.sampleBytes := by cases w <;> decide

/-- A sample is read from where it is, or from before that. -/
def Stable (read : (ℕ → UInt8) → ℕ → BitVec 16) (p : ℕ) : Prop :=
  ∀ m m' j, (∀ a < p + 2 * j + 2, m a = m' a) → read m j = read m' j

theorem length_unpacked (single : Bool) (vs : List (BitVec 16)) :
    (vs.flatMap (unpacked w single)).length =
      (if single then 2 * vs.length else vs.length) * w.sampleBytes := by
  induction vs with
  | nil => cases single <;> exact (Nat.zero_mul _).symm
  | cons v vs ih =>
    rw [List.flatMap_cons, List.length_append, ih]
    cases single
    · simp only [unpacked, Bool.false_eq_true, if_false, length_sampleLE, List.length_cons]
      rw [Nat.succ_mul, Nat.add_comm]
    · simp only [unpacked, if_true, List.length_append, length_sampleLE, List.length_cons]
      rw [Nat.mul_add, Nat.add_mul]
      omega

/-- The last sample first, every sample is still there when its turn comes. -/
theorem unpack_eq (hread : Stable read p) (single : Bool) (count : ℕ) (m : ℕ → UInt8) :
    unpack w read single p count m =
      write m p (((List.range count).map (read m)).flatMap (unpacked w single)) := by
  induction count generalizing m with
  | zero => exact (write_nil m p).symm
  | succ j ih =>
    have hbytes := sampleBytes_ge w
    have hmul : 2 * j ≤ j * w.sampleBytes := by
      rw [Nat.mul_comm 2]
      exact Nat.mul_le_mul_left j hbytes
    have hlen := length_unpacked (w := w) single ((List.range j).map (read m))
    rw [List.length_map, List.length_range] at hlen
    rw [List.range_succ, List.map_append, List.flatMap_append, List.map_singleton,
      List.flatMap_singleton, ← write_append, hlen, unpack]
    -- the samples before it are not touched
    have hkeep : ∀ (q : ℕ) (bs : List UInt8), p + 2 * j ≤ q →
        (List.range j).map (read (write m q bs)) = (List.range j).map (read m) := by
      intro q bs hq
      refine List.map_congr_left fun i hi => hread _ _ i fun a ha => write_of_lt ?_
      have hi' := List.mem_range.mp hi
      omega
    cases single
    · simp only [Bool.false_eq_true, if_false, unpacked]
      rw [ih, hkeep _ _ (by omega)]
    · simp only [if_true, unpacked]
      have hsame : read (write m (p + (2 * j + 1) * w.sampleBytes)
          (sampleLE w (align w (read m j)))) j = read m j := by
        refine hread _ _ j fun a ha => write_of_lt ?_
        rw [Nat.add_mul, Nat.mul_assoc]
        omega
      have hnext : p + (2 * j + 1) * w.sampleBytes =
          p + 2 * j * w.sampleBytes + (sampleLE w (align w (read m j))).length := by
        rw [length_sampleLE, Nat.add_mul, Nat.one_mul, Nat.add_assoc]
      rw [hsame, hnext, write_append, ih, hkeep _ _ (by rw [Nat.mul_assoc]; omega)]

theorem range_map_getD (pcm : List (BitVec 16)) :
    (List.range pcm.length).map (fun j => pcm.getD j 0) = pcm := by
  refine List.ext_getElem (by rw [List.length_map, List.length_range]) fun j hj hj' => ?_
  rw [List.getElem_map, List.getElem_range, List.getD_eq_getElem?_getD,
    List.getElem?_eq_getElem hj', Option.getD_some]

theorem framesLE_pairs (pcm : List (BitVec 16)) (h : 2 ∣ pcm.length) :
    framesLE w ((pairs pcm).map fun f => (align w f.1, align w f.2)) =
      pcm.flatMap (unpacked w false) := by
  induction pcm using pairs.induct with
  | case1 l r rest ih =>
    have hrest : 2 ∣ rest.length := by
      rw [List.length_cons, List.length_cons] at h
      omega
    rw [pairs, List.map_cons, framesLE, List.flatMap_cons, ← framesLE, ih hrest,
      List.flatMap_cons, List.flatMap_cons, frameLE, List.append_assoc]
    rfl
  | case2 pcm hshort =>
    rcases pcm with _ | ⟨v, _ | ⟨r, rest⟩⟩
    · rfl
    · exact absurd h (show ¬ 2 ∣ 1 by decide)
    · exact (hshort v r rest rfl).elim

theorem framesLE_single (pcm : List (BitVec 16)) :
    framesLE w (pcm.map fun v => (align w v, align w v)) = pcm.flatMap (unpacked w true) := by
  rw [framesLE, List.flatMap_map]
  rfl

end Unpack

/-! ### A call -/

section Calls

variable {w} {frameBuf} {c} {channels frames : ℕ} {pcm : List (BitVec 16)}

theorem length_wanted (hch : channels = 1 ∨ channels = 2) (hdvd : channels ∣ pcm.length) :
    (wanted w channels pcm).length = pcm.length / channels := by
  rcases hch with rfl | rfl
  · rw [wanted, if_pos rfl, List.length_map, Nat.div_one]
  · have hblock := length_framesLE w (wanted w 2 pcm)
    rw [wanted, if_neg (by decide), if_pos rfl, framesLE_pairs pcm hdvd, length_unpacked,
      if_neg Bool.false_ne_true, frameBytes_eq] at hblock
    rw [wanted, if_neg (by decide), if_pos rfl]
    obtain ⟨n, hn⟩ := hdvd
    rw [hn] at hblock ⊢
    have hpos := sampleBytes_ge w
    rw [Nat.mul_div_cancel_left n (by decide)]
    refine Nat.eq_of_mul_eq_mul_right (Nat.lt_of_lt_of_le (by decide) hpos) ?_
    rw [← Nat.two_mul, Nat.mul_left_comm, Nat.mul_assoc] at hblock
    exact (Nat.eq_of_mul_eq_mul_left (by decide) hblock).symm

/-- The samples are read from where the library has written them. -/
theorem spread_eq (hch : channels = 1 ∨ channels = 2) (hframes : frames * channels = pcm.length)
    (m buf : ℕ → UInt8) (p : ℕ) :
    spread w channels (some (write buf 0 (pcmLE pcm))) p frames m =
        write m p (framesLE w (wanted w channels pcm)) ∧
      spread w channels none p frames (write m p (pcmLE pcm)) =
        write m p (framesLE w (wanted w channels pcm)) := by
  have hdvd : channels ∣ pcm.length := hframes ▸ Nat.dvd_mul_left _ _
  -- read from the interim buffer
  have hinterim : (List.range (frames * channels)).map
      (fun j => s16At (write buf 0 (pcmLE pcm)) (2 * j)) = pcm := by
    rw [hframes]
    refine Eq.trans (List.map_congr_left fun j hj => ?_) (range_map_getD pcm)
    have hread := s16At_write (m := buf) (p := 0) (List.mem_range.mp hj)
    rwa [Nat.zero_add] at hread
  -- read from the place itself
  have hplace : (List.range (frames * channels)).map
      (fun j => s16At (write m p (pcmLE pcm)) (p + 2 * j)) = pcm := by
    rw [hframes]
    exact Eq.trans (List.map_congr_left fun j hj => s16At_write (List.mem_range.mp hj))
      (range_map_getD pcm)
  have hstable : Stable (fun m j => s16At m (p + 2 * j)) p := by
    intro m m' j h
    simp only [s16At, h _ (show p + 2 * j < p + 2 * j + 2 by omega),
      h _ (show p + 2 * j + 1 < p + 2 * j + 2 by omega)]
  have hover : ∀ single, (pcmLE pcm).length ≤ (pcm.flatMap (unpacked w single)).length := by
    intro single
    rw [length_pcmLE, length_unpacked, Nat.mul_comm 2]
    refine Nat.mul_le_mul ?_ (sampleBytes_ge w)
    split <;> omega
  rcases hch with rfl | rfl
  · rw [spread.eq_def, spread.eq_def, if_neg (by decide), if_pos rfl, if_neg (by decide), if_pos rfl,
      unpack_eq (fun _ _ _ _ => rfl), unpack_eq hstable, hinterim, hplace, wanted, if_pos rfl,
      framesLE_single, write_write _ _ (hover true)]
    exact ⟨rfl, rfl⟩
  · rw [wanted, if_neg (by decide), if_pos rfl, framesLE_pairs pcm hdvd, spread.eq_def,
      spread.eq_def, if_pos rfl, if_pos rfl]
    cases w with
    | s16 =>
      have hcopy : (List.range (frames * 4)).map (write buf 0 (pcmLE pcm)) = pcmLE pcm := by
        have hlen := length_pcmLE pcm
        refine List.ext_getElem (by rw [List.length_map, List.length_range]; omega) fun i hi hi' => ?_
        have hget := @write_add _ buf 0 i (pcmLE pcm) hi'
        rw [Nat.zero_add] at hget
        rw [List.getElem_map, List.getElem_range, hget]
      have hsame : pcm.flatMap (unpacked .s16 false) = pcmLE pcm := rfl
      simp only [hcopy, hsame, and_self]
    | s32 =>
      simp only
      rw [unpack_eq (fun _ _ _ _ => rfl), unpack_eq hstable, hinterim, hplace,
        write_write _ _ (hover false)]
      exact ⟨rfl, rfl⟩

theorem frameBytes_ge (w : Build) : 4 ≤ w.frameBytes := by cases w <;> decide

/-- What a call asks for fits. -/
theorem request_le (hch : channels ≤ 2) : 2 * (c.frames w frameBuf * channels) ≤
    c.capacity w frameBuf := by
  have hbytes := frameBytes_ge w
  have hle : ∀ n, 2 * (n * channels) ≤ n * w.frameBytes := by
    intro n
    rw [Nat.mul_left_comm]
    exact Nat.mul_le_mul_left n (by omega)
  refine Nat.le_trans (hle _) ?_
  rw [Call.frames, Call.capacity]
  split
  · simp only
    split
    · exact Nat.mul_le_mul_right _ (Nat.min_le_right _ _)
    · exact Nat.div_mul_le_self _ _
  · exact Nat.le_refl _

/-- In `outputbuf` there is room for the frames that are asked for. -/
theorem frames_le (hdirect : c.direct = true) : c.frames w frameBuf * w.frameBytes ≤
    min (bufSpace c.outputbuf) (bufContWrite c.outputbuf) := by
  rw [Call.frames, if_pos hdirect]
  simp only
  split
  · exact Nat.le_trans (Nat.mul_le_mul_right _ (Nat.min_le_left _ _)) (Nat.div_mul_le_self _ _)
  · exact Nat.div_mul_le_self _ _

theorem framesOf_eq (codec : Codec) (channels : ℕ) (pcm : List (BitVec 16)) :
    framesOf codec channels pcm = pcm.length / channels := by
  cases codec
  · rw [framesOf, Nat.mul_div_cancel_left _ (by decide)]
  · rfl

/-- What a call does with one or two channels. -/
theorem take_eq (hch : channels = 1 ∨ channels = 2) (hframes : frames * channels = pcm.length) :
    c.take w frameBuf channels frames pcm =
      if c.direct then
        (bufIncWritep (bufStore c.outputbuf (framesLE w (wanted w channels pcm)))
          (frames * w.frameBytes), c.inbuf, 0)
      else (c.outputbuf, write c.inbuf 0 (framesLE w (wanted w channels pcm)), frames) := by
  have hspread := spread_eq (w := w) hch hframes
  rw [Call.take]
  split
  · have hmem : (if frameBuf = true then
        spread w channels (some (write c.interim 0 (pcmLE pcm)))
          (c.outputbuf.writep - c.outputbuf.buf) frames c.outputbuf.mem
        else spread w channels none (c.outputbuf.writep - c.outputbuf.buf) frames
          (write c.outputbuf.mem (c.outputbuf.writep - c.outputbuf.buf) (pcmLE pcm))) =
        write c.outputbuf.mem (c.outputbuf.writep - c.outputbuf.buf)
          (framesLE w (wanted w channels pcm)) := by
      split
      · exact (hspread _ _ _).1
      · exact (hspread _ (fun _ => 0) _).2
    simp only [hmem]
    rfl
  · rw [(hspread c.inbuf (fun _ => 0) 0).2]

/-! ### The stream -/

variable {codec : Codec} {d d' : Decoder} {asked : Option ℕ}

/-- What a call can do: nothing, give the stream up, or ask the library. -/
theorem decode_cases (h : d.newStream = true ∨
    d.channels = channels ∧ (codec = .vorbis → channels ≤ 2)) :
    (¬ c.Asks d ∧ ∃ d', d'.result = .complete ∧
      decode w frameBuf c codec channels d = c.leave d' none) ∨
    (codec = .vorbis ∧ 2 < channels ∧ ∃ d', d'.result = .error ∧
      decode w frameBuf c codec channels d = c.leave d' none) ∨
    (c.Asks d ∧ (codec = .vorbis → channels ≤ 2) ∧ ∃ r,
      decode w frameBuf c codec channels d = c.hand w frameBuf codec ⟨r, false, channels⟩) := by
  by_cases hover : c.ended ∧ c.empty
  · refine .inl ⟨fun hasks => hasks.1 hover, { d with result := .complete }, rfl, ?_⟩
    cases codec
    · exact if_pos hover
    · exact if_pos hover
  obtain ⟨result, newStream, channels'⟩ := d
  cases newStream with
  | false =>
    obtain ⟨rfl, hfew⟩ := h.resolve_left Bool.false_ne_true
    refine .inr (.inr ⟨⟨hover, fun hnew => absurd hnew Bool.false_ne_true⟩, hfew, result, ?_⟩)
    cases codec
    · exact (if_neg hover).trans (if_neg Bool.false_ne_true)
    · exact (if_neg hover).trans (if_neg Bool.false_ne_true)
  | true =>
    rcases hopened : c.opened with - | -
    · refine .inl ⟨fun hasks => ?_, ⟨.complete, true, channels'⟩, rfl, ?_⟩
      · exact absurd (hopened.symm.trans (hasks.2 rfl)) Bool.false_ne_true
      · cases codec
        · rw [decode, vorbisDecode, if_neg hover, if_pos rfl, hopened, if_pos (by decide)]
        · rw [decode, opusDecompress, if_neg hover, if_pos rfl, hopened, if_pos (by decide)]
    · have hasks : c.Asks ⟨result, true, channels'⟩ := ⟨hover, fun _ => hopened⟩
      cases codec with
      | vorbis =>
        rcases Nat.lt_or_ge 2 channels with hmany | hfew
        · refine .inr (.inl ⟨rfl, hmany, ⟨.error, false, channels⟩, rfl, ?_⟩)
          rw [decode, vorbisDecode, if_neg hover, if_pos rfl, hopened, if_neg (by decide)]
          exact if_pos hmany
        · refine .inr (.inr ⟨hasks, fun _ => hfew, result, ?_⟩)
          rw [decode, vorbisDecode, if_neg hover, if_pos rfl, hopened, if_neg (by decide)]
          exact if_neg (Nat.not_lt.mpr hfew)
      | opus =>
        refine .inr (.inr ⟨hasks, fun h => Codec.noConfusion h, result, ?_⟩)
        rw [decode, opusDecompress, if_neg hover, if_pos rfl, hopened, if_neg (by decide)]

/-- While a stream runs, it is new, or the channels are those of the stream. -/
theorem Reachable.goesOn (h : Reachable w frameBuf codec channels d) (hrun : d.result = .running) :
    d.newStream = true ∨ d.channels = channels ∧ (codec = .vorbis → channels ≤ 2) := by
  induction h with
  | opened => exact .inl rfl
  | call h hd c ih =>
    rcases @decode_cases w frameBuf c _ _ _ (ih hd) with
      ⟨-, d', hd', heq⟩ | ⟨-, -, d', hd', heq⟩ | ⟨-, hfew, r, heq⟩
    · rw [heq] at hrun
      cases hd'.symm.trans hrun
    · rw [heq] at hrun
      cases hd'.symm.trans hrun
    · refine .inr ⟨?_, hfew⟩
      rw [heq, Call.hand]
      cases c.reply <;> rfl

/-- Nothing is due, and nothing is written. -/
theorem handsOver_leave (heq : decode w frameBuf c codec channels d = c.leave d' asked)
    (hdue : c.due w channels d = []) (hasked : ∀ n ∈ asked, 2 * n ≤ c.capacity w frameBuf) :
    HandsOver w frameBuf c codec channels d where
  bounded := by
    rw [heq]
    exact hasked
  outputbuf := by
    rw [heq, hdue]
    split <;> exact (List.append_nil _).symm
  behind := by
    rw [heq]
    exact fun _ _ => rfl
  inFrames := by
    rw [heq, hdue]
    split <;> rfl
  inbuf := by
    rw [heq, hdue]
    split
    · rfl
    · exact (write_nil _ _).symm

theorem hand_empty (h : c.reply.Empty) (d : Decoder) :
    ∃ d', c.hand w frameBuf codec d = c.leave d' (some (c.frames w frameBuf * d.channels)) := by
  rw [Call.hand]
  cases hreply : c.reply with
  | frames pcm =>
    rw [hreply] at h
    exact h.elim
  | none => exact ⟨_, rfl⟩
  | hole => exact ⟨_, rfl⟩
  | error => exact ⟨_, rfl⟩

theorem due_empty (h : c.reply.Empty) (channels : ℕ) (d : Decoder) : c.due w channels d = [] := by
  rw [Call.due]
  cases hreply : c.reply with
  | frames pcm =>
    rw [hreply] at h
    exact h.elim
  | none => rfl
  | hole => rfl
  | error => rfl

theorem due_many (h : 2 < channels) (d : Decoder) : c.due w channels d = [] := by
  rw [Call.due]
  cases c.reply with
  | frames pcm =>
    have hwanted : wanted w channels pcm = [] := by
      rw [wanted, if_neg (by omega), if_neg (by omega)]
    simp only [hwanted, ite_self]
  | none => rfl
  | hole => rfl
  | error => rfl

/-- If the library writes nothing, it is enough that it was asked for what fits. -/
theorem handsOver_empty {r : Result}
    (heq : decode w frameBuf c codec channels d = c.hand w frameBuf codec ⟨r, false, channels⟩)
    (hempty : c.reply.Empty)
    (hfit : 2 * (c.frames w frameBuf * channels) ≤ c.capacity w frameBuf) :
    HandsOver w frameBuf c codec channels d := by
  obtain ⟨d', hleave⟩ := @hand_empty w frameBuf c codec hempty
    ⟨r, false, channels⟩
  refine handsOver_leave (heq.trans hleave) (due_empty hempty channels d) ?_
  rintro n ⟨⟩
  exact hfit

/-- What the library has written of one or two channels is handed over. -/
theorem handsOver_few {r : Result} (hasks : c.Asks d) (hwf : c.outputbuf.Wf)
    (hch : channels = 1 ∨ channels = 2)
    (hhonest : c.reply.Honest channels (c.frames w frameBuf * channels))
    (heq : decode w frameBuf c codec channels d = c.hand w frameBuf codec ⟨r, false, channels⟩) :
    HandsOver w frameBuf c codec channels d := by
  have hrequest : 2 * (c.frames w frameBuf * channels) ≤ c.capacity w frameBuf :=
    request_le (by omega)
  cases hreply : c.reply with
  | frames pcm =>
    rw [hreply] at hhonest
    obtain ⟨-, hdvd, hle⟩ := hhonest
    have hpos : 0 < channels := by omega
    have hframes : pcm.length / channels * channels = pcm.length := Nat.div_mul_cancel hdvd
    have hdue : c.due w channels d = wanted w channels pcm := by
      rw [Call.due, hreply]
      exact if_pos hasks
    have hlen := length_wanted (w := w) hch hdvd
    have hbytes := length_framesLE w (wanted w channels pcm)
    rw [hlen] at hbytes
    have hhand : decode w frameBuf c codec channels d =
        ⟨⟨.running, false, channels⟩,
          (c.take w frameBuf channels (pcm.length / channels) pcm).1,
          (c.take w frameBuf channels (pcm.length / channels) pcm).2.1,
          (c.take w frameBuf channels (pcm.length / channels) pcm).2.2,
          some (c.frames w frameBuf * channels)⟩ := by
      rw [heq, Call.hand, hreply]
      simp only [framesOf_eq]
    rw [take_eq hch hframes] at hhand
    cases hdirect : c.direct with
    | false =>
      rw [hdirect, if_neg Bool.false_ne_true] at hhand
      constructor
      · rw [hhand]
        rintro n ⟨⟩
        exact hrequest
      · rw [hhand, hdirect]
        exact (List.append_nil _).symm
      · rw [hhand]
        exact fun _ _ => rfl
      · rw [hhand, hdirect, hdue, hlen]
        rfl
      · rw [hhand, hdirect, hdue]
        rfl
    | true =>
      rw [hdirect, if_pos rfl, ← hbytes] at hhand
      have hroom : (framesLE w (wanted w channels pcm)).length ≤
          min (bufSpace c.outputbuf) (bufContWrite c.outputbuf) := by
        rw [hbytes]
        refine Nat.le_trans (Nat.mul_le_mul_right _ ?_) (@frames_le w frameBuf c
          hdirect)
        exact Nat.div_le_of_le_mul (Nat.mul_comm channels _ ▸ hle)
      constructor
      · rw [hhand]
        rintro n ⟨⟩
        exact hrequest
      · rw [hhand, hdirect, hdue]
        exact content_bufAppend hwf hroom
      · rw [hhand]
        intro i hi
        have hend := hwf.contWrite_le
        exact write_of_ge (by omega)
      · rw [hhand, hdirect]
        rfl
      · rw [hhand, hdirect]
        rfl
  | none | hole | error =>
    exact handsOver_empty heq (hreply ▸ trivial) hrequest

/-- Frames of more channels are counted, but not written. -/
theorem not_handsOver_many {r : Result} (hwf : c.outputbuf.Wf) (hch : 2 < channels)
    (hreply : c.reply = .frames pcm)
    (hhonest : c.reply.Honest channels (c.frames w frameBuf * channels))
    (heq : decode w frameBuf c codec channels d = c.hand w frameBuf codec ⟨r, false, channels⟩) :
    ¬ HandsOver w frameBuf c codec channels d := by
  intro h
  rw [hreply] at hhonest
  obtain ⟨hne, hdvd, hle⟩ := hhonest
  have hpos : 0 < pcm.length / channels := Nat.div_pos (Nat.le_of_dvd hne hdvd) (by omega)
  have hhand : (decode w frameBuf c codec channels d).outputbuf =
        (c.take w frameBuf channels (pcm.length / channels) pcm).1 ∧
      (decode w frameBuf c codec channels d).inFrames =
        (c.take w frameBuf channels (pcm.length / channels) pcm).2.2 := by
    rw [heq, Call.hand, hreply]
    simp only [framesOf_eq, and_self]
  obtain ⟨houtputbuf, hinFrames⟩ := hhand
  cases hdirect : c.direct with
  | false =>
    have hnone := h.inFrames
    rw [hinFrames, due_many hch, hdirect, Call.take, hdirect] at hnone
    exact Nat.ne_of_gt hpos hnone
  | true =>
    have hroom : pcm.length / channels * w.frameBytes ≤
        min (bufSpace c.outputbuf) (bufContWrite c.outputbuf) := by
      refine Nat.le_trans (Nat.mul_le_mul_right _ ?_) (@frames_le w frameBuf c
        hdirect)
      exact Nat.div_le_of_le_mul (Nat.mul_comm channels _ ▸ hle)
    have hsame := congrArg List.length h.outputbuf
    rw [houtputbuf, due_many hch, hdirect, if_pos rfl, Call.take, hdirect, if_pos rfl,
      show framesLE w [] = [] from rfl, List.append_nil, Buffer.Wf.length_content,
      Buffer.Wf.length_content] at hsame
    have hused := used_advance hwf hroom []
    have hmore : 0 < pcm.length / channels * w.frameBytes :=
      Nat.mul_pos hpos (Nat.lt_of_lt_of_le (by decide) (frameBytes_ge w))
    have hgrown : bufUsed c.outputbuf + pcm.length / channels * w.frameBytes =
        bufUsed c.outputbuf := hused.symm.trans hsame
    omega

end Calls

/-- The library is not asked for more than fits, and what it writes is handed over, if and only if
the codec is Vorbis, or there are at most two channels, or the library is not asked, or it is asked
for what fits and writes nothing. -/
theorem handsOver_iff (w : Build) (frameBuf : Bool) (codec : Codec) (channels : ℕ)
    (hpos : 0 < channels) (d : Decoder) (hd : Reachable w frameBuf codec channels d)
    (hrun : d.result = .running) (c : Call) (hwf : c.outputbuf.Wf)
    (hhonest : c.reply.Honest channels (c.frames w frameBuf * channels)) :
    HandsOver w frameBuf c codec channels d ↔
      codec = .vorbis ∨ channels ≤ 2 ∨ ¬ c.Asks d ∨
        c.reply.Empty ∧ 2 * (c.frames w frameBuf * channels) ≤ c.capacity w frameBuf := by
  rcases @decode_cases w frameBuf c _ _ _ (hd.goesOn hrun) with
    ⟨hnot, d', -, heq⟩ | ⟨hvorbis, hmany, d', -, heq⟩ | ⟨hasks, hfew, r, heq⟩
  · refine ⟨fun _ => .inr (.inr (.inl hnot)), fun _ => handsOver_leave heq ?_ (by simp)⟩
    rw [Call.due]
    cases c.reply with
    | frames pcm => exact if_neg hnot
    | none | hole | error => rfl
  · exact ⟨fun _ => .inl hvorbis, fun _ => handsOver_leave heq (due_many hmany d) (by simp)⟩
  · rcases Nat.lt_or_ge 2 channels with hmany | hle
    · constructor
      · intro h
        cases hreply : c.reply with
        | frames pcm => exact absurd h (not_handsOver_many hwf hmany hreply hhonest heq)
        | none | hole | error =>
          refine .inr (.inr (.inr ⟨trivial, h.bounded _ ?_⟩))
          rw [heq, Call.hand, hreply]
          rfl
      · rintro (hvorbis | hle | hnot | ⟨hempty, hfit⟩)
        · exact absurd (hfew hvorbis) (Nat.not_le.mpr hmany)
        · exact absurd hle (Nat.not_le.mpr hmany)
        · exact absurd hasks hnot
        · exact handsOver_empty heq hempty hfit
    · exact ⟨fun _ => .inr (.inl hle), fun _ =>
        handsOver_few hasks hwf (by omega) hhonest heq⟩

/-- A call for a new stream, with an empty buffer of 8192 bytes. -/
def firstCall (reply : Reply) : Call where
  direct := true
  outputbuf := emptyBuffer 8192
  interim := fun _ => 0
  inbuf := fun _ => 0
  maxInFrames := 0
  ended := false
  empty := false
  opened := true
  reply := reply

theorem opus_mono : HandsOver .s16 true (firstCall (.frames [1, 2])) .opus 1 ⟨.running, true, 0⟩ :=
  (handsOver_iff .s16 true .opus 1 (by decide) _ (.opened 0) rfl (firstCall (.frames [1, 2]))
    (wf_bufInit _ (by decide)) ⟨by decide, by decide, by decide⟩).mpr (.inr (.inl (by decide)))

/-- Of three channels, Opus asks for more than there is room for. -/
theorem opus_overflows :
    ¬ HandsOver .s16 true (firstCall .none) .opus 3 ⟨.running, true, 0⟩ := by
  intro h
  have hasked := h.bounded (2047 * 3) (by decide)
  exact absurd hasked (by decide)

end Ogg

end SqueezeliteMuse
