/-
SqueezeliteMuse/Codecs.lean

The decode functions of pcm.c, alac.c and helix-aac.c, and `decode_thread`, which
calls them.

A decode function takes bytes out of `streambuf` and puts frames into `outputbuf`;
it returns a state of the decoder.  Here it also returns the number of frames it
puts there.  The samples are left out, and so is what it tells the output of a
new track.  `none` stands for a call that does not return, or of which nothing can
be said: a loop without an end, a division by zero, a pointer outside its block, a
table that is not there.

The decoders proper are not in the repository.  What they answer in a call is in
`DecodePass`, with what `outputbuf` has room for.
-/
import SqueezeliteMuse.Mp4
import SqueezeliteMuse.Stream
import SqueezeliteMuse.Output

namespace SqueezeliteMuse

/-- `stream.state <= DISCONNECT` -/
def StreamState.toend : StreamState → Bool
  | .stopped | .disconnect => true
  | _ => false

/-- What a call of a decode function returns: the state of the decoder, the frames it puts into
`outputbuf`, and what it leaves. -/
structure Decoded (σ : Type) where
  state : DecodeState
  frames : ℕ
  next : σ

/-! ### pcm -/

/-- The variables of pcm.c, with `streambuf`. -/
structure Pcm where
  sampleSize : ℕ
  sampleRate : ℕ
  channels : ℕ
  bigendian : Bool
  limit : Bool
  audioLeft : ℕ
  bytesPerFrame : ℕ
  newStream : Bool
  streambuf : Buffer

/-- `MAX_DECODE_FRAMES` -/
def MAX_DECODE_FRAMES : ℕ := 4096

/-- `header_format`, once it is known -/
inductive HeaderFormat
  | wave | aiff
  deriving DecidableEq

/-- The format of the bytes at `readp`, `bytes` of them in one piece. -/
def headerFormat (m : ℕ → UInt8) (bytes : ℕ) : Option HeaderFormat :=
  if bytes ≤ 12 then none
  else if isText m 0 (ascii ['R', 'I', 'F', 'F']) && isText m 8 (ascii ['W', 'A', 'V', 'E']) then
    some .wave
  else if isText m 0 (ascii ['F', 'O', 'R', 'M']) &&
      (isText m 8 (ascii ['A', 'I', 'F', 'F']) || isText m 8 (ascii ['A', 'I', 'F', 'C'])) then
    some .aiff
  else none

/-- `len` of the chunk at `p` -/
def chunkLen (format : HeaderFormat) (m : ℕ → UInt8) (p : ℕ) : ℕ :=
  match format with
  | .wave => Octets.le m (p + 4) 4
  | .aiff => Octets.be m (p + 4) 4

/-- The 80 bit number at `p`; only use first 32 bits of mantissa. -/
def extendedRate (m : ℕ → UInt8) (p : ℕ) : ℕ :=
  let exponent : ℤ := ((Octets.be m p 2 % 2 ^ 15 : ℕ) : ℤ) - 16383 - 31
  if exponent < 0 then Octets.be m (p + 2) 4 / 2 ^ (-exponent).toNat
  else Octets.be m (p + 2) 4 * 2 ^ exponent.toNat % 2 ^ 32

/-- Override the server parsed values with our own. -/
def pcmFormat (format : HeaderFormat) (m : ℕ → UInt8) (p bytes : ℕ) (s : Pcm) : Pcm :=
  match format with
  | .wave =>
      if isText m p (ascii ['f', 'm', 't', ' ']) ∧ bytes ≥ 24 then
        { s with
          channels := Octets.le m (p + 10) 2
          sampleRate := Octets.le m (p + 12) 4
          sampleSize := Octets.le m (p + 22) 2 / 8
          bigendian := false }
      else s
  | .aiff =>
      if isText m p (ascii ['C', 'O', 'M', 'M']) ∧ bytes ≥ 26 then
        { s with
          channels := Octets.be m (p + 8) 2
          sampleSize := Octets.be m (p + 14) 2 / 8
          bigendian := true
          sampleRate := extendedRate m (p + 16) }
      else s

/-- The samples of a WAVE file begin. -/
def waveData (len p : ℕ) (s : Pcm) : Pcm :=
  { s with
    streambuf := bufIncReadp s.streambuf (p + 8)
    audioLeft := len
    limit := !(len = 0xFFFFFFFF || len = 0x7FFFEFFC) }

/-- The samples of an AIFF file begin.  Only use length in header for files. -/
def aiffData (file : Bool) (offset len p : ℕ) (s : Pcm) : Option Pcm :=
  let n := (p + 16 + offset) % 2 ^ 32
  if s.streambuf.readp + n < s.streambuf.wrap + s.streambuf.size then
    let s := { s with streambuf := bufIncReadp s.streambuf n }
    some (if file then { s with audioLeft := u32Sub (u32Sub len 8) offset, limit := true } else s)
  else none

/-- The loop of `_check_header`, over the chunks. -/
def chunkLoop (file : Bool) (format : HeaderFormat) (m : ℕ → UInt8) :
    ℕ → ℕ → ℕ → Pcm → Option Pcm
  | 0, _, _, _ => none
  | fuel + 1, p, bytes, s =>
      if bytes < 8 then some s
      else if format = .wave ∧ isText m p (ascii ['d', 'a', 't', 'a']) then
        some (waveData (chunkLen format m p) p s)
      else if format = .aiff ∧ isText m p (ascii ['S', 'S', 'N', 'D']) ∧ bytes ≥ 16 then
        aiffData file (Octets.be m (p + 8) 4) (chunkLen format m p) p s
      else if bytes ≥ (chunkLen format m p + 8) % 2 ^ 32 then
        chunkLoop file format m fuel (p + (chunkLen format m p + 8) % 2 ^ 32)
          (bytes - (chunkLen format m p + 8) % 2 ^ 32) (pcmFormat format m p bytes s)
      else some (pcmFormat format m p bytes s)

/-- `_check_header`: simple parsing of wav and aiff headers and get to samples. -/
def checkHeader (file : Bool) (s : Pcm) : Option Pcm :=
  let bytes := min (bufUsed s.streambuf) (bufContRead s.streambuf)
  match headerFormat s.streambuf.peek bytes with
  | some format => chunkLoop file format s.streambuf.peek (bytes + 1) 12 (bytes - 12) s
  | none => some s

/-- A new stream: its track starts. -/
def Pcm.start (s : Pcm) : Pcm :=
  if s.newStream then
    { s with newStream := false, bytesPerFrame := s.channels * s.sampleSize % 2 ^ 32 }
  else s

/-- The frames of `bytes` in one piece: handle frame wrapping round end of streambuf. -/
def Pcm.framesIn (s : Pcm) (bytes : ℕ) : ℕ :=
  if bytes / s.bytesPerFrame = 0 ∧ bytes > 0 ∧ bufUsed s.streambuf ≥ s.bytesPerFrame then 1
  else bytes / s.bytesPerFrame

/-- The frames that are decoded. -/
def Pcm.framesOut (s : Pcm) (bytes out : ℕ) : ℕ :=
  let frames := min (min (s.framesIn bytes) out) MAX_DECODE_FRAMES
  if s.limit ∧ frames * s.bytesPerFrame > s.audioLeft then s.audioLeft / s.bytesPerFrame
  else frames

/-- Frames are decoded. -/
def Pcm.take (s : Pcm) (frames : ℕ) : Pcm :=
  { s with
    streambuf := bufIncReadp s.streambuf (frames * s.bytesPerFrame)
    audioLeft := if s.limit then s.audioLeft - frames * s.bytesPerFrame else s.audioLeft }

/-- The end of `pcm_decode`, behind the header. -/
def pcmBody (stream : StreamState) (out : ℕ) (s : Pcm) : Option (Decoded Pcm) :=
  let bytes := min (bufUsed s.streambuf) (bufContRead s.streambuf)
  if (stream.toend ∧ bytes < s.bytesPerFrame) ∨ (s.limit ∧ s.audioLeft = 0) then
    some ⟨.complete, 0, s⟩
  else if s.start.bytesPerFrame = 0 then none
  else some ⟨.running, s.start.framesOut bytes out, s.start.take (s.start.framesOut bytes out)⟩

/-- `pcm_decode`, with `pcm_check_header`, and the frames that `outputbuf` has room for. -/
def pcmDecode (pcmCheckHeader : Bool) (stream : StreamState) (out : ℕ) (s : Pcm) :
    Option (Decoded Pcm) :=
  if s.newStream ∧ (stream = .streamingFile ∨ pcmCheckHeader) then
    (checkHeader (stream = .streamingFile) s).bind (pcmBody stream out)
  else pcmBody stream out s

/-! ### What alac and helix-aac share -/

namespace Mp4

variable {κ : Type}

/-- The entry of the chunk that comes next. -/
def next (p : Mp4 κ) : ChunkTable :=
  match p.chunkinfo with
  | some table => table.getD p.nextchunk ⟨0, 0⟩
  | none => ⟨0, 0⟩

/-- The end of a chunk, or not: what is left of the stream, or `none` when it cannot go on.
`moves` is whether `bytes` are to be consumed. -/
def moveOn (p : Mp4 κ) (b : Buffer) (moves : Bool) (bytes : ℕ) : Option (Buffer × Mp4 κ) :=
  let counted := if p.next.offset ≠ 0 then { p with sample := (p.sample + 1) % 2 ^ 32 } else p
  -- mp4 end of chunk - skip to next offset
  if p.next.offset ≠ 0 ∧ p.sample = p.next.sample then
    if p.next.offset > p.pos then
      let skip := p.next.offset - p.pos
      if bufUsed b ≥ skip then
        some (bufIncReadp b skip,
          { counted with
            pos := (p.pos + skip) % 2 ^ 32, nextchunk := (p.nextchunk + 1) % 2 ^ 32 })
      else some (b, { counted with consume := skip, nextchunk := (p.nextchunk + 1) % 2 ^ 32 })
    -- error: need to skip backwards!
    else none
  -- mp4 when not at end of chunk
  else if moves then some (bufIncReadp b bytes, { counted with pos := (p.pos + bytes) % 2 ^ 32 })
  else none

/-- The frames to put into `outputbuf`: gapless, skipping at start and trimming from end. -/
def trim (p : Mp4 κ) (frames : ℕ) : Mp4 κ × ℕ :=
  let skip := if p.skip ≠ 0 ∧ p.empty then u32Sub p.skip frames else p.skip
  let left := if p.skip ≠ 0 then frames - min frames skip else frames
  let p :=
    if p.skip ≠ 0 then { p with empty := false, skip := skip - min frames skip } else p
  if p.samples ≠ 0 then
    ({ p with samples := p.samples - min left p.samples }, min left p.samples)
  else (p, left)

/-- Data not reached yet: what is consumed, of `bytes`. -/
def reach (p : Mp4 κ) (b : Buffer) (bytes : ℕ) : Buffer × Mp4 κ :=
  (bufIncReadp b (min p.consume bytes),
    { p with
      pos := (p.pos + min p.consume bytes) % 2 ^ 32
      consume := p.consume - min p.consume bytes })

end Mp4

/-! ### alac -/

/-- `struct alac`, with `streambuf`. -/
structure AlacStream where
  mp4 : Mp4 Alac
  newStream : Bool
  streambuf : Buffer

/-- `block_size` -/
def Alac.size (l : Alac) : Option ℕ :=
  if l.defaultBlockSize ≠ 0 then some l.defaultBlockSize else l.blockSize.bind (·[l.blockIndex]?)

/-- A block is decoded, if there is enough data; `toPcm` is what `alac_to_pcm` does with it. -/
def alacBlock (stream : StreamState) (toPcm : Option ℕ) (s : AlacStream) :
    Option (Decoded AlacStream) :=
  match s.mp4.codec.size with
  | none => none
  | some size =>
      -- stream terminated
      if stream.toend ∧ (bufUsed s.streambuf = 0 ∨ size = 0) then some ⟨.complete, 0, s⟩
      -- is there enough data for decoding
      else if bufUsed s.streambuf < size then some ⟨.running, 0, s⟩
      else
        let codec :=
          if size ≠ s.mp4.codec.defaultBlockSize then
            { s.mp4.codec with blockIndex := s.mp4.codec.blockIndex + 1 }
          else s.mp4.codec
        let s := { s with mp4 := { s.mp4 with codec := codec } }
        match toPcm with
        | none => some ⟨.error, 0, s⟩
        | some frames =>
            match s.mp4.moveOn s.streambuf (frames ≠ 0) size with
            | none => some ⟨.error, 0, s⟩
            | some (b, p) =>
                some ⟨.running, (p.trim frames).2,
                  { s with streambuf := b, mp4 := (p.trim frames).1 }⟩

/-- `alac_decode` -/
def alacDecode (create : List UInt8 → AlacInfo) (malloc : ℕ → Bool) (stream : StreamState)
    (toPcm : Option ℕ) (s : AlacStream) : Option (Decoded AlacStream) :=
  if s.mp4.consume ≠ 0 then
    let reached := s.mp4.reach s.streambuf (bufUsed s.streambuf)
    some ⟨.running, 0, { s with streambuf := reached.1, mp4 := reached.2 }⟩
  else if s.newStream then
    match alacReadMp4Header create malloc s.streambuf s.mp4 with
    | none => none
    | some (.media, b, p) => alacBlock stream toPcm ⟨p, false, b⟩
    | some (.failed, b, p) => some ⟨.error, 0, { s with streambuf := b, mp4 := p }⟩
    -- not finished header parsing come back next time
    | some (.more, b, p) => some ⟨.running, 0, { s with streambuf := b, mp4 := p }⟩
  else alacBlock stream toPcm s

/-! ### helix-aac -/

/-- `WRAPBUF_LEN` -/
def WRAPBUF_LEN : ℕ := 2048

/-- `struct helixaac`, with `streambuf`; `adts` is whether `type` is `'2'`. -/
structure HelixStream where
  mp4 : Mp4 Helix
  adts : Bool
  newStream : Bool
  streambuf : Buffer

/-- What the decoder answers in a call. -/
structure HelixAnswers where
  /-- `AACFindSyncWord`, among the bytes it is given; `none` when it is negative -/
  sync : Option ℕ
  /-- whether `AACDecode` decodes what is there, and what `AACGetLastFrameInfo` says of it -/
  header : Bool
  channels : ℕ
  samplerate : ℕ
  /-- the bytes that `AACDecode` takes, of those it is given -/
  takes : ℕ
  outputSamps : ℕ
  nChans : ℕ

/-- What is given to `AACDecode`: build a linear buffer if we are crossing the end of
streambuf. -/
def helixGiven (b : Buffer) : ℕ :=
  let bytesWrap := min (bufUsed b) (bufContRead b)
  if bytesWrap < WRAPBUF_LEN ∧ bytesWrap ≠ bufUsed b then min WRAPBUF_LEN (bufUsed b)
  else bytesWrap

/-- A frame is decoded. -/
def helixFrame (e : HelixAnswers) (s : HelixStream) : Decoded HelixStream :=
  let bytes := min e.takes (helixGiven s.streambuf)
  match s.mp4.moveOn s.streambuf (bytes > 0) bytes with
  | none => ⟨.error, 0, s⟩
  | some (b, p) =>
      if e.outputSamps = 0 then
        ⟨.running, 0, { s with streambuf := b, mp4 := { p with empty := true } }⟩
      else
        ⟨.running, (p.trim (e.outputSamps / e.nChans)).2,
          { s with streambuf := b, mp4 := (p.trim (e.outputSamps / e.nChans)).1 }⟩

/-- A header is found: come back later if we don't have enough data. -/
def helixFound (e : HelixAnswers) (s : HelixStream) : Decoded HelixStream :=
  if bufUsed s.streambuf < WRAPBUF_LEN then ⟨.running, 0, s⟩ else helixFrame e s

/-- adts stream - seek for header -/
def helixSeek (e : HelixAnswers) (s : HelixStream) : Decoded HelixStream :=
  match e.sync.filter (· < min (bufUsed s.streambuf) (bufContRead s.streambuf)) with
  | none => ⟨.error, 0, s⟩
  | some n =>
      if e.header then
        helixFound e
          { s with
            newStream := false
            streambuf := bufIncReadp s.streambuf n
            mp4 :=
              { s.mp4 with
                codec := { s.mp4.codec with channels := e.channels, samplerate := e.samplerate } } }
      else
        ⟨.running, 0,
          { s with streambuf := bufIncReadp s.streambuf (if n = 0 then 1 else n) }⟩

/-- `helixaac_decode` -/
def helixDecode (malloc : ℕ → Bool) (stream : StreamState) (e : HelixAnswers) (s : HelixStream) :
    Option (Decoded HelixStream) :=
  if stream.toend ∧ bufUsed s.streambuf = 0 then some ⟨.complete, 0, s⟩
  else if s.mp4.consume ≠ 0 then
    let reached := s.mp4.reach s.streambuf (min (bufUsed s.streambuf) (bufContRead s.streambuf))
    some ⟨.running, 0, { s with streambuf := reached.1, mp4 := reached.2 }⟩
  else if s.newStream then
    if s.adts then some (helixSeek e s)
    else
      match helixReadMp4Header malloc s.streambuf s.mp4 with
      | none => none
      | some (.media, b, p) =>
          some (helixFound e { s with newStream := false, streambuf := b, mp4 := p })
      | some (.failed, b, p) => some ⟨.error, 0, { s with streambuf := b, mp4 := p }⟩
      -- not finished header parsing come back next time
      | some (.more, b, p) => some ⟨.running, 0, { s with streambuf := b, mp4 := p }⟩
  else some (helixFrame e s)

/-! ### decode_thread -/

/-- `codec`, one of the three. -/
inductive Codec
  | pcm (s : Pcm)
  | alac (s : AlacStream)
  | helixaac (s : HelixStream)

namespace Codec

/-- `min_read_bytes` -/
def minRead : Codec → ℕ
  | .pcm _ => 4096
  | .alac _ => 4096 * BYTES_PER_FRAME
  | .helixaac _ => WRAPBUF_LEN

/-- `min_space` -/
def minSpace : Codec → ℕ
  | .pcm _ => 102400
  | .alac _ => 4096 * BYTES_PER_FRAME * 4
  | .helixaac _ => 20480

def streambuf : Codec → Buffer
  | .pcm s => s.streambuf
  | .alac s => s.streambuf
  | .helixaac s => s.streambuf

end Codec

/-- What a program is built and run with. -/
structure DecodeSetup where
  pcmCheckHeader : Bool
  create : List UInt8 → AlacInfo
  malloc : ℕ → Bool

/-- A pass of `decode_thread`: the space in `outputbuf`, what of it is in one piece, and the answers
of the decoders. -/
structure DecodePass where
  space : ℕ
  contWrite : ℕ
  toPcm : Option ℕ
  helix : HelixAnswers

/-- `codec->decode()` -/
def Codec.decode (d : DecodeSetup) (stream : StreamState) (e : DecodePass) :
    Codec → Option (Decoded Codec)
  | .pcm s =>
      (pcmDecode d.pcmCheckHeader stream (min e.space e.contWrite / BYTES_PER_FRAME) s).map
        fun r => ⟨r.state, r.frames, .pcm r.next⟩
  | .alac s =>
      (alacDecode d.create d.malloc stream e.toPcm s).map fun r =>
        ⟨r.state, r.frames, .alac r.next⟩
  | .helixaac s =>
      (helixDecode d.malloc stream e.helix s).map fun r => ⟨r.state, r.frames, .helixaac r.next⟩

/-- `decode.state` and `codec` -/
structure Decoding where
  state : DecodeState
  codec : Codec

/-- A pass of `decode_thread`, and the state in which decoding ends.  From a call that does not
return the thread does not get on. -/
def decodeThread (d : DecodeSetup) (stream : StreamState) (s : Decoding) (e : DecodePass) :
    Decoding × List DecodeState :=
  if s.state = .running ∧ e.space > s.codec.minSpace ∧
      (bufUsed s.codec.streambuf > s.codec.minRead ∨ stream.toend) then
    match s.codec.decode d stream e with
    | none => (s, [])
    | some r => (⟨r.state, r.next⟩, if r.state ≠ .running then [r.state] else [])
  else (s, [])

/-- Passes of `decode_thread`, with the stream as it is. -/
def decodeMachine (d : DecodeSetup) (stream : StreamState) :
    Runs.Machine Decoding DecodePass DecodeState where
  step := decodeThread d stream

end SqueezeliteMuse
