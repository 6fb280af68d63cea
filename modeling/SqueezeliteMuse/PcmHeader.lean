/-
SqueezeliteMuse/PcmHeader.lean

What `_check_header` makes of a WAVE or AIFF file.

A `PcmHeader` is what is in front of the samples: the form, chunks of any kind
with the format among them, and the beginning of the chunk with the samples.  A
chunk is its id, its length, its body, and a byte more where the length is odd.

`_check_header` goes from one chunk to the next by the length alone, so it stays
on their boundaries only as long as the lengths are even.

Main result: `checkHeader_reads`: then, if the header is in one piece, channels, rate,
sample size and byte order are those of the format chunk, `readp` is at the first
sample, and `audio_left` is the declared length; but of an AIFF only if it is a file.
-/
import SqueezeliteMuse.Codecs

namespace SqueezeliteMuse

open Octets

/-! ### What is in front of the samples -/

/-- A chunk; `pad` is written where the length of the body is odd. -/
structure Chunk where
  id : List UInt8
  body : List UInt8
  pad : UInt8
  id_length : id.length = 4

namespace HeaderFormat

/-- The id of the chunk with the format. -/
def formatId : HeaderFormat → List UInt8
  | .wave => ascii ['f', 'm', 't', ' ']
  | .aiff => ascii ['C', 'O', 'M', 'M']

/-- The id of the chunk with the samples. -/
def samplesId : HeaderFormat → List UInt8
  | .wave => ascii ['d', 'a', 't', 'a']
  | .aiff => ascii ['S', 'S', 'N', 'D']

/-- A number of four bytes. -/
def number : HeaderFormat → ℕ → List UInt8
  | .wave => putLe 4
  | .aiff => putBe 4

/-- The least length of the chunk with the format. -/
def least : HeaderFormat → ℕ
  | .wave => 16
  | .aiff => 18

end HeaderFormat

def Chunk.encode (f : HeaderFormat) (c : Chunk) : List UInt8 :=
  c.id ++ f.number c.body.length ++ c.body ++ if c.body.length % 2 = 1 then [c.pad] else []

/-- A well-formed header.  `skipped` is what the offset of an SSND chunk skips. -/
structure PcmHeader where
  format : HeaderFormat
  aifc : Bool
  size : List UInt8
  before : List Chunk
  fmt : Chunk
  after : List Chunk
  len : ℕ
  blockSize : List UInt8
  skipped : List UInt8
  size_length : size.length = 4
  fmt_id : fmt.id = format.formatId
  fmt_least : format.least ≤ fmt.body.length
  others : ∀ c ∈ before ++ after, c.id ≠ format.formatId ∧ c.id ≠ format.samplesId
  len_lt : len < 2 ^ 32
  blockSize_length : blockSize.length = 4
  skipped_wave : format = .wave → skipped = []
  skipped_aiff : format = .aiff → 8 + skipped.length ≤ len
  /-- the rate is below 2^32 -/
  rate_lt : format = .aiff → be (ofList fmt.body) 8 2 % 2 ^ 15 ≤ 16383 + 31

namespace PcmHeader

variable (h : PcmHeader)

def chunks : List Chunk := h.before ++ h.fmt :: h.after

/-- The form. -/
def form : List UInt8 :=
  match h.format with
  | .wave => ascii ['R', 'I', 'F', 'F'] ++ h.size ++ ascii ['W', 'A', 'V', 'E']
  | .aiff =>
      ascii ['F', 'O', 'R', 'M'] ++ h.size ++
        if h.aifc then ascii ['A', 'I', 'F', 'C'] else ascii ['A', 'I', 'F', 'F']

/-- The beginning of the chunk with the samples. -/
def samples : List UInt8 :=
  h.format.samplesId ++ h.format.number h.len ++
    match h.format with
    | .wave => []
    | .aiff => putBe 4 h.skipped.length ++ h.blockSize

/-- All that is read of the header. -/
def fixed : List UInt8 := h.form ++ h.chunks.flatMap (Chunk.encode h.format) ++ h.samples

def encode : List UInt8 := h.fixed ++ h.skipped

/-! What it says: channels, bits in a sample, frames in a second. -/

def channels : ℕ :=
  match h.format with
  | .wave => le (ofList h.fmt.body) 2 2
  | .aiff => be (ofList h.fmt.body) 0 2

def bits : ℕ :=
  match h.format with
  | .wave => le (ofList h.fmt.body) 14 2
  | .aiff => be (ofList h.fmt.body) 6 2

/-- The 80 bit number is its mantissa of 64 bits times a power of 2; here it is rounded down. -/
def rate : ℕ :=
  match h.format with
  | .wave => le (ofList h.fmt.body) 4 4
  | .aiff =>
      be (ofList h.fmt.body) 10 8 / 2 ^ (16383 + 63 - be (ofList h.fmt.body) 8 2 % 2 ^ 15)

/-- The samples of this AIFC are little-endian. -/
def sowt : Bool := h.aifc && (h.fmt.body.drop 18).take 4 = ascii ['s', 'o', 'w', 't']

/-- What `_check_header` is to leave of `s`, of which `rest` is behind the header.  A length that a
WAVE file declares unknown is no limit; the one of an AIFF is only used for files. -/
structure Reads (file : Bool) (rest : List UInt8) (s s' : Pcm) : Prop where
  channels : s'.channels = h.channels
  sampleRate : s'.sampleRate = h.rate
  sampleSize : h.bits % 8 = 0 → s'.sampleSize = h.bits / 8
  bigendian : h.sowt = false → s'.bigendian = decide (h.format = .aiff)
  readp : s'.streambuf.content = rest
  wave : h.format = .wave →
    s'.audioLeft = h.len ∧ s'.limit = decide (h.len ≠ 0xFFFFFFFF ∧ h.len ≠ 0x7FFFEFFC)
  aiff : h.format = .aiff →
    if file then s'.audioLeft = h.len - 8 - h.skipped.length ∧ s'.limit = true
    else s'.audioLeft = s.audioLeft ∧ s'.limit = s.limit

end PcmHeader

/-! ### Reading -/

theorem isText_iff {m : ℕ → UInt8} {p : ℕ} {text : List UInt8} :
    isText m p text = true ↔ Octets.Holds m p text := by
  rw [isText, decide_eq_true_eq]
  constructor
  · intro h i hi
    have hget := congrArg (·[i]?) h
    simpa [hi] using hget
  · exact Octets.Holds.map_range

/-- Texts of one length in one place are the same. -/
theorem isText_of_holds {m : ℕ → UInt8} {p : ℕ} {xs text : List UInt8} (h : Octets.Holds m p xs)
    (hlen : xs.length = text.length) : isText m p text = decide (xs = text) := by
  rw [isText, ← hlen, h.map_range]

theorem chunkLen_of_holds {f : HeaderFormat} {m : ℕ → UInt8} {p n : ℕ}
    (h : Octets.Holds m (p + 4) (f.number n)) (hn : n < 2 ^ 32) : chunkLen f m p = n := by
  cases f with
  | wave => exact Octets.Holds.le_putLe h hn
  | aiff => exact Octets.Holds.be_putBe h hn

@[simp] theorem length_number (f : HeaderFormat) (n : ℕ) : (f.number n).length = 4 := by
  cases f <;> simp [HeaderFormat.number]

/-- The loop passes a chunk of even length that is not the one with the samples. -/
theorem chunkLoop_chunk {file : Bool} {f : HeaderFormat} {m : ℕ → UInt8} {fuel p bytes : ℕ}
    {s : Pcm} {c : Chunk} (hc : Octets.Holds m p (c.encode f)) (hid : c.id ≠ f.samplesId)
    (heven : c.body.length % 2 = 0) (hlen : c.body.length + 8 ≤ bytes) (hbytes : bytes < 2 ^ 32) :
    chunkLoop file f m (fuel + 1) p bytes s =
      chunkLoop file f m fuel (p + (c.encode f).length) (bytes - (c.encode f).length)
        (pcmFormat f m p bytes s) := by
  have hencode : (c.encode f).length = c.body.length + 8 := by
    rw [Chunk.encode, if_neg (by omega)]
    simp [c.id_length]
    omega
  rw [Chunk.encode, holds_append, holds_append, holds_append] at hc
  obtain ⟨⟨⟨hid', hnumber⟩, -⟩, -⟩ := hc
  rw [c.id_length] at hnumber
  have hchunk : chunkLen f m p = c.body.length := chunkLen_of_holds hnumber (by omega)
  have hsum : (chunkLen f m p + 8) % 2 ^ 32 = c.body.length + 8 := by
    rw [hchunk, Nat.mod_eq_of_lt (by omega)]
  have hno : ∀ g, f = g → isText m p g.samplesId = false := by
    rintro g rfl
    rw [isText_of_holds hid' (by rw [c.id_length]; cases f <;> rfl)]
    exact decide_eq_false hid
  rw [chunkLoop, if_neg (by omega), if_neg, if_neg, hsum, if_pos hlen, hencode]
  · rintro ⟨hf, htext, -⟩
    rw [show ascii ['S', 'S', 'N', 'D'] = HeaderFormat.aiff.samplesId from rfl, hno _ hf] at htext
    cases htext
  · rintro ⟨hf, htext⟩
    rw [show ascii ['d', 'a', 't', 'a'] = HeaderFormat.wave.samplesId from rfl, hno _ hf] at htext
    cases htext

section Loop
variable {f : HeaderFormat} {m : ℕ → UInt8} {p bytes : ℕ}

theorem pcmFormat_other {s : Pcm} {c : Chunk} (hc : Octets.Holds m p (c.encode f)) (hid : c.id ≠ f.formatId) :
    pcmFormat f m p bytes s = s := by
  rw [Chunk.encode, holds_append, holds_append, holds_append] at hc
  have hno : isText m p f.formatId = false := by
    rw [isText_of_holds hc.1.1.1 (by rw [c.id_length]; cases f <;> rfl)]
    exact decide_eq_false hid
  cases f with
  | wave => exact if_neg fun h => Bool.false_ne_true (hno.symm.trans h.1)
  | aiff => exact if_neg fun h => Bool.false_ne_true (hno.symm.trans h.1)

/-- Chunks of other kinds are passed. -/
theorem chunkLoop_others (file : Bool) (s : Pcm) {cs : List Chunk} {fuel : ℕ} (hfuel : bytes < fuel)
    (hcs : Octets.Holds m p (cs.flatMap (Chunk.encode f)))
    (hids : ∀ c ∈ cs, c.id ≠ f.formatId ∧ c.id ≠ f.samplesId)
    (heven : ∀ c ∈ cs, c.body.length % 2 = 0)
    (hlen : (cs.flatMap (Chunk.encode f)).length ≤ bytes) (hbytes : bytes < 2 ^ 32) :
    ∃ fuel', bytes - (cs.flatMap (Chunk.encode f)).length < fuel' ∧
      chunkLoop file f m fuel p bytes s =
        chunkLoop file f m fuel' (p + (cs.flatMap (Chunk.encode f)).length)
          (bytes - (cs.flatMap (Chunk.encode f)).length) s := by
  induction cs generalizing p bytes fuel with
  | nil => exact ⟨fuel, hfuel, rfl⟩
  | cons c cs ih =>
      obtain ⟨fuel, rfl⟩ : ∃ n, fuel = n + 1 := ⟨fuel - 1, by omega⟩
      rw [List.flatMap_cons, holds_append] at hcs
      rw [List.flatMap_cons, List.length_append] at hlen ⊢
      have hbody : c.body.length + 8 ≤ (c.encode f).length := by
        rw [Chunk.encode]
        simp [c.id_length]
        omega
      obtain ⟨fuel', hfuel', hloop⟩ := ih (p := p + (c.encode f).length)
        (show bytes - (c.encode f).length < fuel by omega) hcs.2
        (fun c' hc' => hids c' (List.mem_cons_of_mem c hc'))
        (fun c' hc' => heven c' (List.mem_cons_of_mem c hc')) (by omega) (by omega)
      refine ⟨fuel', by omega, ?_⟩
      rw [chunkLoop_chunk hcs.1 (hids c List.mem_cons_self).2 (heven c List.mem_cons_self)
        (by omega) hbytes, pcmFormat_other hcs.1 (hids c List.mem_cons_self).1, hloop,
        Nat.add_assoc, Nat.sub_sub]

end Loop

namespace PcmHeader

variable {h : PcmHeader} {file : Bool} {m : ℕ → UInt8} {p bytes : ℕ} {s : Pcm}

/-- The format, taken over. -/
def apply (h : PcmHeader) (s : Pcm) : Pcm :=
  { s with
    channels := h.channels
    sampleRate := h.rate
    sampleSize := h.bits / 8
    bigendian := decide (h.format = .aiff) }

/-- The first half of the mantissa is all that is needed below 2^32. -/
theorem extendedRate_eq {off : ℕ} (hlt : be m off 2 % 2 ^ 15 ≤ 16383 + 31) :
    extendedRate m off = be m (off + 2) 8 / 2 ^ (16383 + 63 - be m off 2 % 2 ^ 15) := by
  have hhalf : be m (off + 2) 8 / 2 ^ 32 = be m (off + 2) 4 := by
    have hcut := be_add m (off + 2) 4 4
    have hlow := be_lt m (off + 2 + 4) 4
    rw [show (256 : ℕ) ^ 4 = 2 ^ 32 from rfl] at hcut hlow
    rw [hcut, Nat.mul_add_div (by decide), Nat.div_eq_of_lt hlow, Nat.add_zero]
  have hhigh := be_lt m (off + 2) 4
  rw [extendedRate]
  generalize be m off 2 % 2 ^ 15 = e at hlt ⊢
  rcases Nat.lt_or_eq_of_le hlt with hneg | rfl
  · rw [if_pos (by omega), show 16383 + 63 - e = 32 + (16383 + 31 - e) by omega, Nat.pow_add,
      ← Nat.div_div_eq_div_mul, hhalf]
    congr 2
    omega
  · rw [if_neg (by omega), show 16383 + 63 - (16383 + 31) = 32 from rfl, hhalf,
      show (((16383 + 31 : ℕ) : ℤ) - 16383 - 31).toNat = 0 from rfl, Nat.pow_zero, Nat.mul_one]
    exact Nat.mod_eq_of_lt hhigh

theorem pcmFormat_fmt (hc : Octets.Holds m p (h.fmt.encode h.format))
    (hbytes : h.fmt.body.length + 8 ≤ bytes) : pcmFormat h.format m p bytes s = h.apply s := by
  have hleast := h.fmt_least
  have hid := h.fmt_id
  have hrate := h.rate_lt
  rw [Chunk.encode, holds_append, holds_append, holds_append] at hc
  obtain ⟨⟨⟨hid', -⟩, hbody⟩, -⟩ := hc
  have htext : isText m p h.format.formatId = true := by
    rw [isText_iff, ← hid]
    exact hid'
  rw [List.length_append, h.fmt.id_length, length_number] at hbody
  rw [apply, channels, PcmHeader.rate, bits]
  generalize h.format = f at hleast hrate htext ⊢
  cases f with
  | wave =>
      have hmin : 16 ≤ h.fmt.body.length := hleast
      have hch := hbody.le_eq 2 2 (by omega)
      have hra := hbody.le_eq 4 4 (by omega)
      have hbi := hbody.le_eq 14 2 (by omega)
      rw [Nat.add_assoc] at hch hra hbi
      show (if _ then _ else _) = _
      rw [if_pos ⟨htext, by omega⟩]
      simp [hch, hra, hbi]
  | aiff =>
      have hmin : 18 ≤ h.fmt.body.length := hleast
      have hch := hbody.be_eq 0 2 (by omega)
      have hbi := hbody.be_eq 6 2 (by omega)
      have hex := hbody.be_eq 8 2 (by omega)
      have hma := hbody.be_eq 10 8 (by omega)
      rw [Nat.add_assoc] at hch hbi hex hma
      show (if _ then _ else _) = _
      rw [if_pos ⟨htext, by omega⟩, extendedRate_eq (by rw [hex]; exact hrate rfl)]
      simp [hch, hbi, hex, hma]

theorem length_form (h : PcmHeader) : h.form.length = 12 := by
  have hsize := h.size_length
  rw [form]
  cases h.format
  · simp [hsize, ascii]
  · cases h.aifc <;> simp [hsize, ascii]

theorem form_headerFormat (hform : Octets.Holds m 0 h.form) (hbytes : 12 < bytes) :
    headerFormat m bytes = some h.format := by
  have hsize := h.size_length
  rw [headerFormat, if_neg (by omega)]
  rw [form] at hform
  cases hf : h.format with
  | wave =>
      rw [hf] at hform
      obtain ⟨hform, hkind⟩ := holds_append.mp hform
      obtain ⟨hmagic, -⟩ := holds_append.mp hform
      rw [List.length_append, hsize] at hkind
      rw [if_pos]
      rw [Bool.and_eq_true]
      exact ⟨isText_iff.mpr hmagic, isText_iff.mpr hkind⟩
  | aiff =>
      rw [hf] at hform
      obtain ⟨hform, hkind⟩ := holds_append.mp hform
      obtain ⟨hmagic, -⟩ := holds_append.mp hform
      rw [List.length_append, hsize] at hkind
      have hlen : (ascii ['F', 'O', 'R', 'M']).length = (ascii ['R', 'I', 'F', 'F']).length := rfl
      have hriff : isText m 0 (ascii ['R', 'I', 'F', 'F']) = false :=
        (isText_of_holds hmagic hlen).trans (by decide)
      rw [hriff, if_neg (by simp), if_pos]
      rw [Bool.and_eq_true, Bool.or_eq_true]
      refine ⟨isText_iff.mpr hmagic, ?_⟩
      rcases haifc : h.aifc with - | - <;> rw [haifc] at hkind
      · exact .inl (isText_iff.mpr hkind)
      · exact .inr (isText_iff.mpr hkind)

/-- What the loop does at the chunk with the samples. -/
def atSamples (h : PcmHeader) (file : Bool) (p : ℕ) (s : Pcm) : Option Pcm :=
  match h.format with
  | .wave => some (waveData h.len p s)
  | .aiff => aiffData file h.skipped.length h.len p s

theorem chunkLoop_samples {fuel : ℕ} (hsamples : Octets.Holds m p h.samples)
    (hskipped : h.skipped.length < 2 ^ 32) (hbytes : h.samples.length ≤ bytes) :
    chunkLoop file h.format m (fuel + 1) p bytes s = h.atSamples file p s := by
  have hlen := h.len_lt
  rw [samples] at hsamples hbytes
  obtain ⟨hsamples, hrest⟩ := holds_append.mp hsamples
  obtain ⟨hid, hnumber⟩ := holds_append.mp hsamples
  have htext := isText_iff.mpr hid
  have hid_length : h.format.samplesId.length = 4 := by cases h.format <;> rfl
  rw [hid_length] at hnumber
  have hchunk := chunkLen_of_holds hnumber hlen
  rw [List.length_append, hid_length, length_number] at hrest
  rw [List.length_append, List.length_append, hid_length, length_number] at hbytes
  rw [chunkLoop, if_neg (by omega), atSamples, hchunk]
  cases hf : h.format with
  | wave =>
      rw [hf] at htext
      rw [if_pos ⟨rfl, htext⟩]
  | aiff =>
      rw [hf] at htext hrest hbytes
      have hoffset := (holds_append.mp hrest).1.be_putBe hskipped
      have hmore : (putBe 4 h.skipped.length ++ h.blockSize).length = 8 := by
        simp [h.blockSize_length]
      have hmore' : 16 ≤ bytes := by
        dsimp only at hbytes
        omega
      rw [if_neg (by simp), if_pos ⟨rfl, htext, hmore'⟩, hoffset]

/-- The loop, from the form to the samples. -/
theorem chunkLoop_fixed {fuel : ℕ} (hfixed : Octets.Holds m 0 h.fixed)
    (heven : ∀ c ∈ h.chunks, c.body.length % 2 = 0) (hskipped : h.skipped.length < 2 ^ 32)
    (hlen : h.fixed.length ≤ bytes) (hbytes : bytes < 2 ^ 32) (hfuel : bytes < fuel) :
    chunkLoop file h.format m fuel 12 (bytes - 12) s =
      h.atSamples file (h.fixed.length - h.samples.length) (h.apply s) := by
  have hform := h.length_form
  rw [fixed] at hfixed hlen ⊢
  rw [List.length_append, List.length_append] at hlen ⊢
  obtain ⟨hfixed, hsamples⟩ := holds_append.mp hfixed
  obtain ⟨-, hchunks⟩ := holds_append.mp hfixed
  rw [List.length_append] at hsamples
  rw [chunks, List.flatMap_append, List.flatMap_cons, List.length_append, List.length_append]
    at hsamples hlen ⊢
  rw [chunks, List.flatMap_append, List.flatMap_cons] at hchunks
  rw [hform] at hchunks hsamples hlen ⊢
  obtain ⟨hbefore, hchunks⟩ := holds_append.mp hchunks
  obtain ⟨hfmt, hafter⟩ := holds_append.mp hchunks
  rw [chunks] at heven
  have hbody : h.fmt.body.length + 8 ≤ (h.fmt.encode h.format).length := by
    rw [Chunk.encode]
    simp [h.fmt.id_length]
    omega
  have hid : h.fmt.id ≠ h.format.samplesId := by
    rw [h.fmt_id]
    cases h.format <;> decide
  -- the chunks before the format
  obtain ⟨fuel₁, hfuel₁, hloop₁⟩ := chunkLoop_others file s
    (show bytes - 12 < fuel by omega) hbefore
    (fun c hc => h.others c (List.mem_append_left _ hc))
    (fun c hc => heven c (List.mem_append_left _ hc)) (by omega) (by omega)
  rw [hloop₁]
  -- the format
  obtain ⟨fuel₂, rfl⟩ : ∃ n, fuel₁ = n + 1 := ⟨fuel₁ - 1, by omega⟩
  rw [chunkLoop_chunk hfmt hid
    (heven h.fmt (List.mem_append_right _ List.mem_cons_self)) (by omega) (by omega),
    pcmFormat_fmt hfmt (by omega)]
  -- the chunks behind it
  obtain ⟨fuel₃, hfuel₃, hloop₃⟩ := chunkLoop_others file (h.apply s)
    (show bytes - 12 - (h.before.flatMap (Chunk.encode h.format)).length -
      (h.fmt.encode h.format).length < fuel₂ by omega) hafter
    (fun c hc => h.others c (List.mem_append_right _ hc))
    (fun c hc => heven c (List.mem_append_right _ (List.mem_cons_of_mem _ hc))) (by omega)
    (by omega)
  rw [hloop₃]
  obtain ⟨fuel₄, rfl⟩ : ∃ n, fuel₃ = n + 1 := ⟨fuel₃ - 1, by omega⟩
  rw [chunkLoop_samples (by simpa only [Nat.add_assoc] using hsamples) hskipped (by omega)]
  congr 1
  omega

theorem length_samples (h : PcmHeader) :
    h.samples.length = match h.format with | .wave => 8 | .aiff => 16 := by
  rw [samples]
  cases h.format
  · simp [HeaderFormat.samplesId, ascii]
  · simp [HeaderFormat.samplesId, ascii, h.blockSize_length]

variable (file) in
/-- What is left at the samples is what the header says. -/
theorem atSamples_reads {rest : List UInt8} {p : ℕ} (hwf : s.streambuf.Wf)
    (hsize : s.streambuf.size < 2 ^ 32) (hcontent : s.streambuf.content = h.encode ++ rest)
    (hp : p + h.samples.length = h.fixed.length) :
    ∃ s', h.atSamples file p (h.apply s) = some s' ∧ h.Reads file rest s s' := by
  have hlen := length_samples h
  have hused : bufUsed s.streambuf = h.fixed.length + h.skipped.length + rest.length := by
    rw [← Buffer.Wf.length_content, hcontent, encode, List.length_append, List.length_append]
  have hlt := hwf.used_lt
  have hdrop : ∀ n, n = h.encode.length → (bufIncReadp s.streambuf n).content = rest := by
    rintro n rfl
    rw [content_bufIncReadp hwf (by rw [hused, encode, List.length_append]; omega), hcontent,
      List.drop_left]
  have hencode : h.encode.length = h.fixed.length + h.skipped.length := by
    rw [encode, List.length_append]
  cases hf : h.format with
  | wave =>
      rw [hf] at hlen
      have hskip := h.skipped_wave hf
      rw [hskip, List.length_nil] at hencode
      refine ⟨waveData h.len p (h.apply s), by rw [atSamples, hf],
        ⟨rfl, rfl, fun _ => rfl, fun _ => rfl, ?_, ?_, ?_⟩⟩
      · exact hdrop (p + 8) (by dsimp only at hlen; omega)
      · refine fun _ => ⟨rfl, ?_⟩
        show (!(_ || _)) = _
        simp
      · intro hf'
        cases hf.symm.trans hf'
  | aiff =>
      rw [hf] at hlen
      obtain ⟨_, hr, _, _, _, _, _⟩ := hwf
      have hfits := h.skipped_aiff hf
      have hlen_lt := h.len_lt
      have hn : (p + 16 + h.skipped.length) % 2 ^ 32 = h.encode.length := by
        dsimp only at hlen
        rw [Nat.mod_eq_of_lt (by omega)]
        omega
      have hinside : s.streambuf.readp + h.encode.length < s.streambuf.wrap + s.streambuf.size := by
        omega
      have hleft : u32Sub (u32Sub h.len 8) h.skipped.length = h.len - 8 - h.skipped.length := by
        rw [u32Sub, u32Sub]
        omega
      have hat : h.atSamples file p (h.apply s) = some
          (if file then
            { h.apply s with
              streambuf := bufIncReadp s.streambuf h.encode.length
              audioLeft := h.len - 8 - h.skipped.length
              limit := true }
          else { h.apply s with streambuf := bufIncReadp s.streambuf h.encode.length }) := by
        rw [atSamples, hf]
        dsimp only
        rw [aiffData, hn, hleft]
        exact if_pos hinside
      refine ⟨_, hat, ?_⟩
      have hno : h.format ≠ .wave := by
        rw [hf]
        decide
      rcases file with - | -
      · exact ⟨rfl, rfl, fun _ => rfl, fun _ => rfl, hdrop _ rfl, fun hf' => absurd hf' hno,
          fun _ => ⟨rfl, rfl⟩⟩
      · exact ⟨rfl, rfl, fun _ => rfl, fun _ => rfl, hdrop _ rfl, fun hf' => absurd hf' hno,
          fun _ => ⟨rfl, rfl⟩⟩

/-- The bytes in one piece at `readp` are the first of those that are in use. -/
theorem holds_peek {b : Buffer} (hwf : b.Wf) {xs rest : List UInt8} (hcontent : b.content = xs ++ rest)
    (hlen : xs.length ≤ bufContRead b) : Octets.Holds b.peek 0 xs := by
  intro i hi
  have hused : bufUsed b = xs.length + rest.length := by
    rw [← Buffer.Wf.length_content, hcontent, List.length_append]
  have hget := hwf.content_getElem? (i := i) (by omega)
  rw [hcontent, List.getElem?_append_left hi, List.getElem?_eq_getElem hi] at hget
  rw [Nat.zero_add]
  exact (Option.some.inj hget).symm

/-- `_check_header` comes to the samples of every well-formed header that is in one piece and has no
chunk of odd length in front of them. -/
theorem checkHeader_atSamples (file : Bool) {rest : List UInt8} (hwf : s.streambuf.Wf)
    (hsize : s.streambuf.size < 2 ^ 32) (hcontent : s.streambuf.content = h.encode ++ rest)
    (hpiece : h.fixed.length ≤ bufContRead s.streambuf)
    (heven : ∀ c ∈ h.chunks, c.body.length % 2 = 0) :
    checkHeader file s = h.atSamples file (h.fixed.length - h.samples.length) (h.apply s) := by
  have hused : bufUsed s.streambuf = h.fixed.length + h.skipped.length + rest.length := by
    rw [← Buffer.Wf.length_content, hcontent, encode, List.length_append, List.length_append]
  have hlt := hwf.used_lt
  have hfixed : Octets.Holds s.streambuf.peek 0 h.fixed := by
    refine holds_peek hwf (show _ = h.fixed ++ (h.skipped ++ rest) from ?_) hpiece
    rw [hcontent, encode, List.append_assoc]
  have hform : Octets.Holds s.streambuf.peek 0 h.form := by
    rw [fixed, List.append_assoc] at hfixed
    exact (holds_append.mp hfixed).1
  have hsamples : 0 < h.samples.length := by
    rw [length_samples]
    cases h.format <;> decide
  have hfixed_length : h.fixed.length =
      12 + (h.chunks.flatMap (Chunk.encode h.format)).length + h.samples.length := by
    rw [fixed, List.length_append, List.length_append, h.length_form]
  rw [checkHeader, form_headerFormat hform (by omega)]
  show chunkLoop _ _ _ _ _ _ _ = _
  exact chunkLoop_fixed hfixed heven (by omega) (by omega) (by omega) (by omega)

theorem length_samples_le (h : PcmHeader) : h.samples.length ≤ h.fixed.length := by
  rw [fixed, List.length_append]
  omega

/-- `_check_header` reads every well-formed header that is in one piece and has no chunk of odd
length in front of the samples. -/
theorem checkHeader_reads (h : PcmHeader) (file : Bool) (s : Pcm) (rest : List UInt8)
    (hwf : s.streambuf.Wf) (hsize : s.streambuf.size < 2 ^ 32)
    (hcontent : s.streambuf.content = h.encode ++ rest)
    (hpiece : h.fixed.length ≤ bufContRead s.streambuf)
    (heven : ∀ c ∈ h.chunks, c.body.length % 2 = 0) :
    ∃ s', checkHeader file s = some s' ∧ h.Reads file rest s s' := by
  have hle := h.length_samples_le
  obtain ⟨s', hat, hreads⟩ := atSamples_reads file hwf hsize hcontent
    (show h.fixed.length - h.samples.length + h.samples.length = h.fixed.length by omega)
  refine ⟨s', ?_, hreads⟩
  rw [checkHeader_atSamples file hwf hsize hcontent hpiece heven, hat]

/-- A WAVE file of two channels of 16 bits, with these chunks behind its format. -/
def waveFile (after : List Chunk)
    (h : ∀ c ∈ after, c.id ≠ HeaderFormat.wave.formatId ∧ c.id ≠ HeaderFormat.wave.samplesId) :
    PcmHeader where
  format := .wave
  aifc := false
  size := [0, 0, 0, 0]
  before := []
  fmt := ⟨ascii ['f', 'm', 't', ' '],
    [1, 0, 2, 0, 0x44, 0xAC, 0, 0, 0x10, 0xB1, 2, 0, 4, 0, 16, 0], 0, rfl⟩
  after := after
  len := 4
  blockSize := [0, 0, 0, 0]
  skipped := []
  size_length := rfl
  fmt_id := rfl
  fmt_least := by decide
  others := h
  len_lt := by decide
  blockSize_length := rfl
  skipped_wave := fun _ => rfl
  skipped_aiff := by decide
  rate_lt := by decide

/-- An AIFC file of one channel, of so many bits and of this compression type. -/
def aifcFile (bits : UInt8) (type : List UInt8) : PcmHeader where
  format := .aiff
  aifc := true
  size := [0, 0, 0, 0]
  before := []
  fmt := ⟨ascii ['C', 'O', 'M', 'M'],
    [0, 1, 0, 0, 0, 1, 0, bits, 0x40, 0x0E, 0xAC, 0x44, 0, 0, 0, 0, 0, 0] ++ type, 0, rfl⟩
  after := []
  len := 12
  blockSize := [0, 0, 0, 0]
  skipped := []
  size_length := rfl
  fmt_id := rfl
  fmt_least := by
    show 18 ≤ (_ ++ type).length
    simp
  others := by simp
  len_lt := by decide
  blockSize_length := rfl
  skipped_wave := fun h => nomatch h
  skipped_aiff := by decide
  rate_lt := fun _ => by
    show be (ofList (_ :: _ :: _ :: _ :: _ :: _ :: _ :: _ :: _ :: _ :: _)) 8 2 % _ ≤ _
    simp [be, ofList]

/-- A decoder at the beginning of these bytes. -/
def loaded (bytes : List UInt8) : Pcm where
  sampleSize := 2
  sampleRate := 44100
  channels := 2
  bigendian := true
  limit := false
  audioLeft := 0
  bytesPerFrame := 0
  newStream := true
  streambuf := ⟨0, 0, bytes.length, 128, 128, 128, 128, ofList bytes⟩

theorem checkHeader_reads_wave :
    ∃ s', checkHeader true (loaded ((waveFile [] (by simp)).encode ++ [1, 2, 3, 4])) = some s' ∧
      (waveFile [] (by simp)).Reads true [1, 2, 3, 4]
        (loaded ((waveFile [] (by simp)).encode ++ [1, 2, 3, 4])) s' :=
  checkHeader_reads (waveFile [] (by simp)) true _ [1, 2, 3, 4] (by constructor <;> decide) (by decide)
    (by decide) (by decide) (by decide)

/-- A chunk of odd length behind the format, and the samples are not found; of an AIFC that does not
come from a file the declared length is not taken, and `sowt` is taken for big-endian; 12
bits are taken for one byte. -/
theorem checkHeader_misses :
    ((checkHeader true (loaded ((waveFile [⟨ascii ['L', 'I', 'S', 'T'], [0], 0, rfl⟩]
        (by decide)).encode ++ [1, 2, 3, 4]))).map fun s => s.streambuf.content) ≠
        some [1, 2, 3, 4] ∧
      ((checkHeader false (loaded ((aifcFile 16 (ascii ['s', 'o', 'w', 't'])).encode ++
          [1, 2, 3, 4]))).map fun s => (s.bigendian, s.audioLeft, s.limit)) =
        some (true, 0, false) ∧
      ((checkHeader true (loaded ((aifcFile 12 (ascii ['N', 'O', 'N', 'E'])).encode ++
          [1, 2, 3, 4]))).map fun s => s.sampleSize) = some 1 := by
  decide

end PcmHeader

end SqueezeliteMuse
