/-
SqueezeliteMuse/Mp4.lean

`read_mp4_header` of alac.c and helix-aac.c.

Both parsers walk over the boxes of an MP4 stream in `streambuf`, keep what they
need of it, and are called again until they come to the media data.  They are
the same but for the box that has the configuration of the decoder, the sizes
of the blocks, which only alac reads, and the boxes that they wait for; so there
is one parser, `readMp4Header`, which is told these (`Mp4Codec`).

A parser reads a memory `m`, the bytes from `readp` on; `n` of them are before
the end of the block.  Behind a table that was allocated there is nothing: what
the source would read there is 0, and what it would write is lost.  `malloc` says
which sizes it has memory for.  A box of length 0 is read again and again: then
the parser does not return.
-/
import SqueezeliteMuse.Buffer
import SqueezeliteMuse.Lib.Octets

namespace SqueezeliteMuse

/-! ### Boxes -/

/-- The boxes that are told apart; `metadata` is `meta`, `dashes` is `----`. -/
inductive Box
  | moov | trak | mdia | minf | stbl | udta | ilst | stsd | mp4a | metadata
  | alac | esds | stsz | stts | stsc | stco | mdat | dashes | other
  deriving DecidableEq

/-- The bytes of a text. -/
def ascii (cs : List Char) : List UInt8 := cs.map fun c => UInt8.ofNat c.toNat

/-- What is compared with `type`. -/
def boxNames : List (List UInt8 × Box) :=
  [(ascii ['m', 'o', 'o', 'v'], .moov), (ascii ['t', 'r', 'a', 'k'], .trak),
    (ascii ['m', 'd', 'i', 'a'], .mdia), (ascii ['m', 'i', 'n', 'f'], .minf),
    (ascii ['s', 't', 'b', 'l'], .stbl), (ascii ['u', 'd', 't', 'a'], .udta),
    (ascii ['i', 'l', 's', 't'], .ilst), (ascii ['s', 't', 's', 'd'], .stsd),
    (ascii ['m', 'p', '4', 'a'], .mp4a), (ascii ['m', 'e', 't', 'a'], .metadata),
    (ascii ['a', 'l', 'a', 'c'], .alac), (ascii ['e', 's', 'd', 's'], .esds),
    (ascii ['s', 't', 's', 'z'], .stsz), (ascii ['s', 't', 't', 's'], .stts),
    (ascii ['s', 't', 's', 'c'], .stsc), (ascii ['s', 't', 'c', 'o'], .stco),
    (ascii ['m', 'd', 'a', 't'], .mdat), (ascii ['-', '-', '-', '-'], .dashes)]

/-- `unpackN` -/
def unpackN (m : ℕ → UInt8) (p : ℕ) : ℕ := Octets.be m p 4

/-- `type` -/
def boxOf (m : ℕ → UInt8) : Box := (boxNames.lookup [m 4, m 5, m 6, m 7]).getD .other

/-- A difference of two `u32_t`. -/
def u32Sub (a b : ℕ) : ℕ := (a + 2 ^ 32 - b) % 2 ^ 32

/-- The bytes to go on by: read into these boxes, or consume the entire box. -/
def boxConsume (box : Box) (len : ℕ) : ℕ :=
  match box with
  | .moov | .trak | .mdia | .minf | .stbl | .udta | .ilst => 8
  | .stsd => 16
  | .mp4a => 36
  | .metadata => 12
  | _ => len

/-! ### The state of a parser -/

/-- `struct chunk_table` -/
structure ChunkTable where
  sample : ℕ
  offset : ℕ
  deriving DecidableEq

/-- What `struct alac` and `struct helixaac` have for MP4.  `codec` is the configuration of the
decoder. -/
structure Mp4 (κ : Type) where
  consume : ℕ
  pos : ℕ
  sample : ℕ
  nextchunk : ℕ
  stsc : Option (List UInt8)
  skip : ℕ
  samples : ℕ
  sttssamples : ℕ
  empty : Bool
  chunkinfo : Option (List ChunkTable)
  trak : ℕ
  play : ℕ
  codec : κ
  deriving DecidableEq

variable {κ : Type}

/-- `memset` -/
def Mp4.zero (codec : κ) : Mp4 κ where
  consume := 0
  pos := 0
  sample := 0
  nextchunk := 0
  stsc := none
  skip := 0
  samples := 0
  sttssamples := 0
  empty := false
  chunkinfo := none
  trak := 0
  play := 0
  codec := codec

/-- What a parser is told of its codec. -/
structure Mp4Codec (κ : Type) where
  /-- the box with the configuration -/
  config : Box
  /-- the configuration out of this box, of so many bytes; `none` is an error -/
  setup : (ℕ → UInt8) → ℕ → κ → Option κ
  /-- the sizes out of stsz, where they are read -/
  sizes : Option ((ℕ → UInt8) → κ → κ)
  /-- the boxes that are waited for -/
  waits : List Box
  /-- where media data begins -/
  start : κ → κ
  malloc : ℕ → Bool

/-- The number of tracks so far, to find the first playable one. -/
def Mp4.count (p : Mp4 κ) : Box → Mp4 κ
  | .moov => { p with trak := 0, play := 0 }
  | .trak => { p with trak := (p.trak + 1) % 2 ^ 32 }
  | _ => p

/-! ### sscanf -/

/-- `isspace` -/
def isSpace (c : UInt8) : Bool := c = 32 || (9 ≤ c && c ≤ 13)

/-- The value of a hexadecimal digit. -/
def hexDigit (c : UInt8) : Option ℕ :=
  if 48 ≤ c && c ≤ 57 then some (c.toNat - 48)
  else if 65 ≤ c && c ≤ 70 then some (c.toNat - 55)
  else if 97 ≤ c && c ≤ 102 then some (c.toNat - 87)
  else none

/-- The digits at the start, as a number. -/
def takeHex : List UInt8 → ℕ → ℕ × List UInt8
  | [], v => (v, [])
  | c :: cs, v =>
      match hexDigit c with
      | some d => takeHex cs (v * 16 + d)
      | none => (v, c :: cs)

/-- `0x` may be before the digits. -/
def dropPrefix : List UInt8 → List UInt8
  | 48 :: 120 :: cs => cs
  | 48 :: 88 :: cs => cs
  | cs => cs

/-- A `%x` of `sscanf`, for a number of `bits`: white space, a sign, digits. -/
def scanHex (bits : ℕ) (cs : List UInt8) : Option (ℕ × List UInt8) :=
  let cs := cs.dropWhile isSpace
  let negative := cs.head? = some 45
  let cs := dropPrefix (if negative || cs.head? = some 43 then cs.tail else cs)
  if (cs.head?.bind hexDigit).isSome then
    let r := takeHex cs 0
    if r.1 < 2 ^ bits then some (if negative then (2 ^ bits - r.1) % 2 ^ bits else r.1, r.2)
    else some (2 ^ bits - 1, r.2)
  else none

/-- `sscanf` of start, end and samples, behind a number that is not kept. -/
def scanGapless (cs : List UInt8) : Option (ℕ × ℕ × ℕ) := do
  let (_, cs) ← scanHex 32 cs
  let (b, cs) ← scanHex 32 cs
  let (c, cs) ← scanHex 32 cs
  let (d, _) ← scanHex 64 cs
  some (b, c, d)

/-! ### What is kept of a box -/

/-- The samples of the entries of stts. -/
def sttsSum (m : ℕ → UInt8) : ℕ → ℕ → ℕ → ℕ
  | 0, _, total => total
  | entries + 1, p, total =>
      sttsSum m entries (p + 8)
        ((total + unpackN m p * unpackN m (p + 4) % 2 ^ 32) % 2 ^ 64)

/-- `count` chunks from `i` on get their first sample, each `step` samples after the one before. -/
def setSamples (step : ℕ) : ℕ → ℕ → ℕ → List ChunkTable → List ChunkTable × ℕ
  | 0, _, sample, table => (table, sample)
  | count + 1, i, sample, table =>
      setSamples step count (i + 1) ((sample + step) % 2 ^ 32)
        (table.modify i fun e => { e with sample := sample })

/-- Fill in first sample id for each chunk from stored stsc; `m` is what is stored, `entries` the
number of chunks. -/
def fillChunks (m : ℕ → UInt8) (entries : ℕ) :
    ℕ → ℕ → ℕ → ℕ → ℕ → List ChunkTable → List ChunkTable
  | 0, _, _, _, _, table => table
  | rest + 1, p, last, lastSamples, sample, table =>
      let first := unpackN m p
      let samples := unpackN m (p + 4)
      let run := if last ≠ 0 then
          setSamples lastSamples (u32Sub first 1 - (last - 1)) (last - 1) sample table
        else (table, sample)
      let run := if rest = 0 then
          setSamples samples (entries - u32Sub first 1) (u32Sub first 1) run.2 run.1
        else run
      fillChunks m entries rest (p + 12) first samples run.2 run.1

/-- The offsets of stco, with an end mark. -/
def chunkOffsets (m : ℕ → UInt8) (entries : ℕ) : List ChunkTable :=
  (List.range entries).map (fun i => ⟨0, unpackN m (16 + 4 * i)⟩) ++ [⟨0, 0⟩]

/-- Build offsets table from stco and stored stsc. -/
def chunkTable (m : ℕ → UInt8) (stsc : Option (List UInt8)) : List ChunkTable :=
  match stsc with
  | some bytes =>
      fillChunks (fun i => bytes.getD i 0) (unpackN m 12)
        (unpackN (fun i => bytes.getD i 0) 0) 4 0 0 0 (chunkOffsets m (unpackN m 12))
  | none => chunkOffsets m (unpackN m 12)

/-- The bytes from `p` are this text. -/
def isText (m : ℕ → UInt8) (p : ℕ) (text : List UInt8) : Bool :=
  (List.range text.length).map (fun i => m (p + i)) = text

/-- The entry behind `mean` of a box ----, and what remains of the box. -/
def gaplessMean (m : ℕ → UInt8) (len : ℕ) : ℕ × ℕ :=
  if isText m 12 (ascii ['m', 'e', 'a', 'n']) && unpackN m 8 < u32Sub len 8 then
    (8 + unpackN m 8, u32Sub len 8 - unpackN m 8)
  else (8, u32Sub len 8)

/-- The entry behind `name`, if it is the right one. -/
def gaplessName (m : ℕ → UInt8) (e : ℕ × ℕ) : ℕ × ℕ :=
  if isText m (e.1 + 4) (ascii ['n', 'a', 'm', 'e']) && unpackN m e.1 < e.2 &&
      isText m (e.1 + 12) (ascii ['i', 'T', 'u', 'n', 'S', 'M', 'P', 'B']) then
    (e.1 + unpackN m e.1, e.2 - unpackN m e.1)
  else e

/-- The numbers in `data`, which is stored as hex strings: 0 start end samples. -/
def gaplessData (m : ℕ → UInt8) (n : ℕ) (e : ℕ × ℕ) : Option (ℕ × ℕ × ℕ) :=
  if isText m (e.1 + 4) (ascii ['d', 'a', 't', 'a']) && 16 + 48 < e.2 then
    scanGapless ((List.range (n - (e.1 + 16))).map fun i => m (e.1 + 16 + i))
  else none

/-- Encoder padding for gapless, reducing samples as stts count is less. -/
def setGapless (p : Mp4 κ) (numbers : ℕ × ℕ × ℕ) : Mp4 κ :=
  let played := (numbers.1 + numbers.2.1) % 2 ^ 32
  { p with
    skip := numbers.1
    samples :=
      if p.sttssamples ≠ 0 ∧ p.sttssamples < (played + numbers.2.2) % 2 ^ 64 then
        (p.sttssamples + 2 ^ 64 - played) % 2 ^ 64
      else numbers.2.2 }

/-- Parse key-value atoms within ilst ---- entries to get encoder padding within iTunSMPB entry
for gapless. -/
def parseGapless (m : ℕ → UInt8) (n len : ℕ) (p : Mp4 κ) : Mp4 κ :=
  match gaplessData m n (gaplessName m (gaplessMean m len)) with
  | some numbers => setGapless p numbers
  | none => p

/-- What is kept of a box of `len` bytes that is all in the buffer; `none` is an error. -/
def parseBox (c : Mp4Codec κ) (m : ℕ → UInt8) (n len : ℕ) (p : Mp4 κ) : Option (Mp4 κ) :=
  if boxOf m = c.config then
    (c.setup m len p.codec).map fun codec => { p with codec := codec, play := p.trak }
  else
    match boxOf m with
    | .stsz =>
        match c.sizes with
        | some sizes => some { p with codec := sizes m p.codec }
        | none => some p
    | .stts => some { p with sttssamples := sttsSum m (unpackN m 12) 16 p.sttssamples }
    -- stash sample to chunk info, assume it comes before stco
    | .stsc =>
        if p.chunkinfo.isSome then some p
        else if c.malloc (u32Sub len 12) then
          some { p with stsc := some ((List.range (u32Sub len 12)).map fun i => m (12 + i)) }
        else none
    | .stco =>
        if p.play ≠ p.trak then some p
        else if c.malloc (8 * (unpackN m 12 + 1) % 2 ^ 32) then
          some { p with chunkinfo := some (chunkTable m p.stsc), stsc := none }
        else none
    | .dashes => some (parseGapless m n len p)
    | _ => some p

/-! ### The parser -/

/-- What `read_mp4_header` returns: 0, 1 or -1. -/
inductive Found
  | more | media | failed
  deriving DecidableEq

/-- The memory from `readp` on. -/
def Buffer.peek (b : Buffer) : ℕ → UInt8 := fun i => b.mem (b.readp - b.buf + i)

/-- A round of the loop of `read_mp4_header`: the loop is done, or goes on with `bytes`. -/
inductive HeaderStep (κ : Type)
  | done (found : Found) (b : Buffer) (p : Mp4 κ)
  | next (bytes : ℕ) (b : Buffer) (p : Mp4 κ)

/-- From the media data to the start of the first chunk. -/
def Mp4.firstSkip (p : Mp4 κ) : ℕ :=
  match p.chunkinfo with
  | some table => (table.getD 0 ⟨0, 0⟩).offset - p.pos
  | none => 0

/-- Found media data, advance to start of first chunk and return. -/
def mediaStep (c : Mp4Codec κ) (bytes : ℕ) (b : Buffer) (p : Mp4 κ) : HeaderStep κ :=
  let b := bufIncReadp b 8
  let p := { p with pos := (p.pos + 8) % 2 ^ 32 }
  if p.play = 0 then .done .failed b p
  else
    let skip := p.firstSkip
    let p := { p with sample := 1, nextchunk := 1, codec := c.start p.codec }
    if skip ≤ bytes - 8 then
      .done .media (bufIncReadp b skip) { p with pos := (p.pos + skip) % 2 ^ 32 }
    else .done .media b { p with consume := skip }

/-- Consume rest of box if it has been parsed (all in the buffer) or is not one we want to
parse. -/
def passBox (c : Mp4Codec κ) (bytes : ℕ) (b : Buffer) (p : Mp4 κ) (box : Box) (len : ℕ) :
    HeaderStep κ :=
  if bytes ≥ boxConsume box len then
    .next (bytes - boxConsume box len) (bufIncReadp b (boxConsume box len))
      { p with pos := (p.pos + boxConsume box len) % 2 ^ 32 }
  else if box ∉ c.waits then
    .done .more (bufIncReadp b bytes)
      { p with pos := (p.pos + bytes) % 2 ^ 32, consume := boxConsume box len - bytes }
  -- can't process an atom larger than streambuf!
  else if len > b.size then .done .failed b p
  -- make sure there is 'len' contiguous space
  else .done .more (bufUnwrap c.malloc len b len) p

/-- A round: the box at `readp`. -/
def boxStep (c : Mp4Codec κ) (bytes : ℕ) (b : Buffer) (p : Mp4 κ) : HeaderStep κ :=
  let len := unpackN b.peek 0
  let box := boxOf b.peek
  let p := p.count box
  match if bytes > len then parseBox c b.peek (b.wrap - b.readp) len p else some p with
  | none => .done .failed b p
  | some p => if box = .mdat then mediaStep c bytes b p else passBox c bytes b p box len

/-- The loop of `read_mp4_header`; `none` when it does not come to an end. -/
def headerLoop (c : Mp4Codec κ) : ℕ → ℕ → Buffer → Mp4 κ → Option (Found × Buffer × Mp4 κ)
  | 0, _, _, _ => none
  | fuel + 1, bytes, b, p =>
      if bytes < 8 then some (.more, b, p)
      else
        match boxStep c bytes b p with
        | .done found b p => some (found, b, p)
        | .next bytes b p => headerLoop c fuel bytes b p

/-- `read_mp4_header`.  A round that goes on consumes a byte, unless it goes on for ever. -/
def readMp4Header (c : Mp4Codec κ) (b : Buffer) (p : Mp4 κ) : Option (Found × Buffer × Mp4 κ) :=
  headerLoop c (min (bufUsed b) (bufContRead b) + 1) (min (bufUsed b) (bufContRead b)) b p

/-! ### alac -/

/-- What `alac_create_decoder` reports. -/
structure AlacInfo where
  sampleSize : ℕ
  sampleRate : ℕ
  channels : ℕ
  blockSize : ℕ
  deriving DecidableEq

/-- What `struct alac` has of the decoder, and the sizes of its blocks.  The decoder is given by
the cookie that it was made from. -/
structure Alac where
  decoder : Option (List UInt8)
  writebuf : ℕ
  sampleSize : ℕ
  sampleRate : ℕ
  channels : ℕ
  blockSize : Option (List ℕ)
  defaultBlockSize : ℕ
  blockIndex : ℕ
  deriving DecidableEq

/-- `alac_open` -/
def alacOpen : Mp4 Alac := .zero ⟨none, 0, 0, 0, 0, none, 0, 0⟩

/-- Extract audio config from within alac. -/
def alacSetup (create : List UInt8 → AlacInfo) (malloc : ℕ → Bool) (m : ℕ → UInt8) (len : ℕ)
    (l : Alac) : Option Alac :=
  let cookie := (List.range (u32Sub len 36)).map fun i => m (36 + i)
  if malloc (((create cookie).blockSize + 256) % 2 ^ 32) then
    some { l with
      decoder := some cookie
      writebuf := ((create cookie).blockSize + 256) % 2 ^ 32
      sampleSize := (create cookie).sampleSize
      sampleRate := (create cookie).sampleRate
      channels := (create cookie).channels }
  else none

/-- The sizes of the blocks in stsz, with an end mark. -/
def alacSizes (m : ℕ → UInt8) (l : Alac) : Alac :=
  if unpackN m 12 = 0 then
    { l with
      defaultBlockSize := 0
      blockSize :=
        some ((List.range (unpackN m 16)).map (fun i => unpackN m (20 + 4 * i)) ++ [0]) }
  else { l with defaultBlockSize := unpackN m 12 }

/-- The parser of alac.c. -/
def alacCodec (create : List UInt8 → AlacInfo) (malloc : ℕ → Bool) : Mp4Codec Alac where
  config := .alac
  setup := alacSetup create malloc
  sizes := some alacSizes
  waits := [.esds, .stts, .stsc, .stsz, .stco, .dashes]
  start l := { l with blockIndex := 0 }
  malloc := malloc

/-- `read_mp4_header` of alac.c -/
def alacReadMp4Header (create : List UInt8 → AlacInfo) (malloc : ℕ → Bool) (b : Buffer)
    (l : Mp4 Alac) : Option (Found × Buffer × Mp4 Alac) :=
  readMp4Header (alacCodec create malloc) b l

/-! ### helix-aac -/

/-- What helix-aac.c has of the decoder: what it is told by `AACSetRawBlockParams`, and what the
header says of channels and rate. -/
structure Helix where
  nChans : ℕ
  sampRateCore : ℕ
  channels : ℕ
  samplerate : ℕ
  deriving DecidableEq

/-- `helixaac_open`; the tracks are counted on. -/
def helixOpen (a : Mp4 Helix) : Mp4 Helix :=
  { Mp4.zero a.codec with trak := a.trak, play := a.play }

/-- `rates` -/
def rates : List ℕ :=
  [96000, 88200, 64000, 48000, 44100, 32000, 24000, 22050, 16000, 12000, 11025, 8000, 7350]

/-- `mp4_desc_length`: the length, and where it ends. -/
def mp4DescLength (m : ℕ → UInt8) : ℕ → ℕ → ℕ → ℕ × ℕ
  | 0, p, length => (length, p)
  | more + 1, p, length =>
      if 128 ≤ m p then mp4DescLength m more (p + 1) (length * 128 + (m p).toNat % 128)
      else (length * 128 + (m p).toNat % 128, p + 1)

/-- Extract audio config from within esds. -/
def helixSetup (m : ℕ → UInt8) (_ : ℕ) (_ : Helix) : Option Helix :=
  let p := if m 12 = 0x03 then (mp4DescLength m 4 13 0).2 + 4 else 16
  let p := (mp4DescLength m 4 p 0).2 + 13
  if m p ≠ 0x05 then none
  else
    let desc := mp4DescLength m 4 (p + 1) 0
    let p := desc.2
    let aot := (m p).toNat / 8
    let core := rates.getD ((m p).toNat % 8 * 2 + (m (p + 1)).toNat / 128) 0
    let p := p + 1
    some
      { nChans := (m p).toNat % 128 / 8
        sampRateCore := core
        channels := (m p).toNat % 128 / 8
        samplerate :=
          if aot = 5 ∨ aot = 29 then
            rates.getD ((m p).toNat % 4 * 2 + (m (p + 1)).toNat / 128) 0
          else if desc.1 > 2 ∧ (m (p + 1)).toNat * 8 + (m (p + 2)).toNat / 32 = 0x2b7 ∧
              (m (p + 2)).toNat % 32 = 0x05 ∧ 128 ≤ (m (p + 3)).toNat then
            rates.getD ((m (p + 3)).toNat % 128 / 8) 0
          else if aot = 2 then core
          else 44100 }

/-- The parser of helix-aac.c. -/
def helixCodec (malloc : ℕ → Bool) : Mp4Codec Helix where
  config := .esds
  setup := helixSetup
  sizes := none
  waits := [.esds, .stts, .stsc, .stco, .dashes]
  start a := a
  malloc := malloc

/-- `read_mp4_header` of helix-aac.c -/
def helixReadMp4Header (malloc : ℕ → Bool) (b : Buffer) (a : Mp4 Helix) :
    Option (Found × Buffer × Mp4 Helix) :=
  readMp4Header (helixCodec malloc) b a

end SqueezeliteMuse
