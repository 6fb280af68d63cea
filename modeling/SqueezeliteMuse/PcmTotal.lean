/-
SqueezeliteMuse/PcmTotal.lean

How much of a stream pcm decodes.

`pcmMachine` is the decoder with `streambuf`, into which bytes arrive, in any pieces;
the decoder is called in any state of the stream and with any room, up to the
call that completes it.  `watchTotal` counts what arrives and what is decoded: no
frame is beyond the samples or beyond what the header declares, and at the end there
is no whole frame left.

The end is found by what is in one piece, where it should be by what is there: a
frame that wraps round the end of `streambuf`, and all that is behind it, is left.
The size of a frame in that comparison is, in the first call, the one of the stream
before.

Main result: `pcm_decodes_all`: the count is right in every run in which the header is
read, and no call leaves a whole frame that way.
-/
import SqueezeliteMuse.PcmSamples
import SqueezeliteMuse.Lib.Runs

namespace SqueezeliteMuse

/-! ### The decoder while bytes arrive -/

/-- The bytes that arrive, or a call of `pcm_decode`, with the room in frames. -/
inductive PcmEvent
  | arrive (bs : List UInt8)
  | decode (stream : StreamState) (out : ℕ)

inductive PcmObs
  | received (n : ℕ)
  | frames (n : ℕ)
  | complete

/-- Bytes are taken as far as there is room for them in one piece. -/
def Pcm.arrive (s : Pcm) (bs : List UInt8) : Pcm :=
  { s with streambuf := bufIncWritep (bufStore s.streambuf bs) bs.length }

/-- What a call leaves, and shows; there are no more calls behind `none`. -/
def pcmReturn : Option (Decoded Pcm) → Option Pcm × List PcmObs
  | none => (none, [])
  | some r =>
      if r.state = .complete then (none, [.frames r.frames, .complete])
      else (some r.next, [.frames r.frames])

def pcmStep (pcmCheckHeader : Bool) : Option Pcm → PcmEvent → Option Pcm × List PcmObs
  | none, _ => (none, [])
  | some s, .arrive bs =>
      let taken := bs.take (min (bufSpace s.streambuf) (bufContWrite s.streambuf))
      (some (s.arrive taken), [.received taken.length])
  | some s, .decode stream out => pcmReturn (pcmDecode pcmCheckHeader stream out s)

def pcmMachine (pcmCheckHeader : Bool) : Runs.Machine (Option Pcm) PcmEvent PcmObs where
  step := pcmStep pcmCheckHeader

/-! ### What there is to be decoded -/

/-- What a stream is: samples, or a header and samples, from a file or not. -/
structure PcmSource where
  header : Option PcmHeader
  file : Bool

namespace PcmSource

variable (src : PcmSource)

/-- The bytes in front of the samples. -/
def skip : ℕ :=
  match src.header with
  | none => 0
  | some h => h.encode.length

/-- The bytes of the samples that the header declares.  The length in an AIFF is only used for
files. -/
def declared : Option ℕ :=
  match src.header with
  | none => none
  | some h =>
      match h.format with
      | .wave => if h.len = 0xFFFFFFFF ∨ h.len = 0x7FFFEFFC then none else some h.len
      | .aiff => if src.file then some (h.len - 8 - h.skipped.length) else none

/-- The size of a frame. -/
def frame (s : Pcm) : ℕ :=
  match src.header with
  | none => s.channels * s.sampleSize % 2 ^ 32
  | some h => h.channels * (h.bits / 8) % 2 ^ 32

/-- The bytes of samples to decode, of so many that were received. -/
def data (received : ℕ) : ℕ :=
  match src.declared with
  | none => received - src.skip
  | some len => min len (received - src.skip)

/-! What a call is to find. -/

/-- The header is recognised in the first call, if there is one. -/
def Read (pcmCheckHeader : Bool) (stream : StreamState) (s : Pcm) : Prop :=
  match src.header with
  | none =>
      stream = .streamingFile ∨ pcmCheckHeader = true →
        headerFormat s.streambuf.peek (min (bufUsed s.streambuf) (bufContRead s.streambuf)) = none
  | some h =>
      (stream = .streamingFile ∨ pcmCheckHeader = true) ∧ h.encode <+: s.streambuf.content ∧
        h.fixed.length ≤ bufContRead s.streambuf ∧ (∀ c ∈ h.chunks, c.body.length % 2 = 0) ∧
          (h.format = .aiff → (src.file = true ↔ stream = .streamingFile))

/-- What is behind the header. -/
def behind (s : Pcm) : Buffer :=
  if s.newStream then bufIncReadp s.streambuf src.skip else s.streambuf

/-- There is no whole frame to decode any more. -/
def Drained (s : Pcm) : Prop :=
  if s.newStream then
    bufUsed (src.behind s) < src.frame s ∨ ∃ len, src.declared = some len ∧ len < src.frame s
  else
    bufUsed (src.behind s) < s.bytesPerFrame ∨ s.limit = true ∧ s.audioLeft < s.bytesPerFrame

/-- The first call recognises the header, and a call that takes the stream for over has no whole frame
to decode any more. -/
def Clear (pcmCheckHeader : Bool) : Option Pcm → PcmEvent → Prop
  | some s, .decode stream _ =>
      (s.newStream = true → src.Read pcmCheckHeader stream s) ∧
        (stream.toend = true →
          min (bufUsed (src.behind s)) (bufContRead (src.behind s)) < s.bytesPerFrame →
            src.Drained s)
  | _, _ => True

end PcmSource

/-- What was received, and decoded. -/
structure Tally where
  received : ℕ
  frames : ℕ
  deriving DecidableEq

/-- Frames of samples are decoded, and in the end all that there are. -/
def watchTotal (src : PcmSource) (frame : ℕ) (a : Tally) : PcmObs → Option Tally
  | .received n => some { a with received := a.received + n }
  | .frames n =>
      if (a.frames + n) * frame ≤ src.data a.received then some { a with frames := a.frames + n }
      else none
  | .complete => if a.frames = src.data a.received / frame then some a else none

/-- `pcm_open` was called. -/
structure Pcm.Opened (s : Pcm) : Prop where
  newStream : s.newStream = true
  limit : s.limit = false
  wf : s.streambuf.Wf
  size_lt : s.streambuf.size < 2 ^ 32

/-! ### What a call keeps -/

/-- What is still to be decoded. -/
def Pcm.rest (s : Pcm) : ℕ :=
  if s.limit then min s.audioLeft (bufUsed s.streambuf) else bufUsed s.streambuf

/-- Of what was received, `streambuf` has what is not decoded, and `audio_left` is what of the samples
declared is not decoded. -/
structure PcmBegun (src : PcmSource) (frame : ℕ) (s : Pcm) (a : Tally) : Prop where
  wf : s.streambuf.Wf
  received : a.received = src.skip + a.frames * frame + bufUsed s.streambuf
  unlimited : src.declared = none → s.limit = false
  limited : ∀ len, src.declared = some len → s.limit = true ∧ s.audioLeft + a.frames * frame = len

inductive Counts (src : PcmSource) (frame : ℕ) : Option Pcm → Tally → Prop
  | over (a : Tally) : Counts src frame none a
  | opened {s : Pcm} (h : s.Opened) (hframe : src.frame s = frame) :
      Counts src frame (some s) ⟨bufUsed s.streambuf, 0⟩
  | started {s : Pcm} {a : Tally} (h : PcmBegun src frame s a) (hnew : s.newStream = false)
      (hframe : s.bytesPerFrame = frame) (hne : frame ≠ 0) : Counts src frame (some s) a

section Call
variable {src : PcmSource} {frame : ℕ} {s : Pcm} {a : Tally}

theorem PcmBegun.data (h : PcmBegun src frame s a) :
    src.data a.received = a.frames * frame + s.rest := by
  have hreceived := h.received
  rw [PcmSource.data, Pcm.rest]
  cases hdeclared : src.declared with
  | none =>
      rw [h.unlimited hdeclared]
      show _ - _ = _ + bufUsed _
      omega
  | some len =>
      obtain ⟨hlimit, hleft⟩ := h.limited len hdeclared
      rw [hlimit]
      show min _ _ = _ + min _ _
      omega

/-- All is decoded if and only if what is left is less than a frame. -/
theorem PcmBegun.data_div_iff (h : PcmBegun src frame s a) (hpos : 0 < frame) :
    a.frames = src.data a.received / frame ↔ s.rest < frame := by
  rw [h.data, Nat.add_comm, Nat.add_mul_div_right _ _ hpos, eq_comm, Nat.add_eq_right,
    Nat.div_eq_zero_iff_lt hpos]

/-- No frame is decoded that is not there. -/
theorem framesOut_mul_le_rest (s : Pcm) (out : ℕ) {bytes : ℕ} (hle : bytes ≤ bufUsed s.streambuf) :
    s.framesOut bytes out * s.bytesPerFrame ≤ s.rest := by
  have hused := framesOut_mul_le s out hle
  rw [Pcm.rest]
  rcases hlimit : s.limit with - | -
  · exact hused
  · refine Nat.le_min.mpr ⟨?_, hused⟩
    rw [Pcm.framesOut]
    split
    · exact Nat.div_mul_le_self _ _
    · rename_i hinside
      exact Nat.not_lt.mp fun hlt => hinside ⟨hlimit, hlt⟩

/-- A call that takes `n` frames. -/
theorem PcmBegun.take (h : PcmBegun src frame s a) (hframe : s.bytesPerFrame = frame) {n : ℕ}
    (hn : n * frame ≤ s.rest) : PcmBegun src frame (s.take n) ⟨a.received, a.frames + n⟩ := by
  have hused : n * s.bytesPerFrame ≤ bufUsed s.streambuf := by
    rw [hframe]
    refine Nat.le_trans hn ?_
    rw [Pcm.rest]
    split
    · exact Nat.min_le_right _ _
    · exact Nat.le_refl _
  have hreceived := h.received
  have hsum : (a.frames + n) * frame = a.frames * frame + n * frame := Nat.add_mul ..
  refine ⟨(keeps_bufIncReadp h.wf hused).wf, ?_, h.unlimited, fun len hlen => ?_⟩
  · show a.received = src.skip + (a.frames + n) * frame + bufUsed (bufIncReadp s.streambuf _)
    rw [used_bufIncReadp h.wf hused, hsum]
    rw [hframe] at hused ⊢
    omega
  · obtain ⟨hlimit, hleft⟩ := h.limited len hlen
    refine ⟨hlimit, ?_⟩
    show (if s.limit then s.audioLeft - n * s.bytesPerFrame else s.audioLeft) +
      (a.frames + n) * frame = len
    have hle : n * frame ≤ s.audioLeft := by
      rw [Pcm.rest, hlimit] at hn
      exact Nat.le_trans hn (Nat.min_le_left _ _)
    rw [if_pos hlimit, hframe, hsum]
    omega

/-- A call, behind the header. -/
theorem pcmBody_counts {stream : StreamState} (out : ℕ) (h : PcmBegun src frame s a)
    (hframe : s.start.bytesPerFrame = frame) (hzero : frame = 0 → a.frames = 0)
    (hdrained : stream.toend = true →
      min (bufUsed s.streambuf) (bufContRead s.streambuf) < s.bytesPerFrame → s.rest < frame) :
    ∃ a', Runs.watch (watchTotal src frame) a (pcmReturn (pcmBody stream out s)).2 = some a' ∧
      Counts src frame (pcmReturn (pcmBody stream out s)).1 a' := by
  obtain ⟨-, -, -, hbuf, hlimit, hleft⟩ := s.start_same
  have hbegun : PcmBegun src frame s.start a :=
    ⟨by rw [hbuf]; exact h.wf, by rw [hbuf]; exact h.received, by rw [hlimit]; exact h.unlimited,
      by rw [hlimit, hleft]; exact h.limited⟩
  have hdata := h.data
  rw [pcmBody]
  split
  · rename_i hdone
    refine ⟨a, ?_, .over a⟩
    have hall : a.frames = src.data a.received / frame := by
      rcases Nat.eq_zero_or_pos frame with rfl | hpos
      · rw [hzero rfl, Nat.div_zero]
      · rw [h.data_div_iff hpos]
        rcases hdone with ⟨hend, hfew⟩ | ⟨hl, hnone⟩
        · exact hdrained hend hfew
        · rw [Pcm.rest, hl, hnone]
          show min 0 _ < _
          omega
    show (watchTotal src frame a (.frames 0)).bind _ = _
    rw [watchTotal, if_pos (by rw [Nat.add_zero]; omega), Option.bind_some]
    show (watchTotal src frame a .complete).bind _ = _
    rw [watchTotal, if_pos hall]
    rfl
  split
  · exact ⟨a, rfl, .over a⟩
  · rename_i hne
    have hn : s.start.framesOut (min (bufUsed s.streambuf) (bufContRead s.streambuf)) out * frame ≤
        s.start.rest := by
      rw [← hframe]
      exact framesOut_mul_le_rest s.start out (by rw [hbuf]; exact Nat.min_le_left _ _)
    generalize s.start.framesOut (min (bufUsed s.streambuf) (bufContRead s.streambuf)) out = n at hn ⊢
    refine ⟨⟨a.received, a.frames + n⟩, ?_, .started (hbegun.take hframe hn) ?_ hframe ?_⟩
    · show (watchTotal src frame a (.frames n)).bind _ = _
      rw [watchTotal, if_pos]
      · rfl
      · rw [hbegun.data, Nat.add_mul]
        omega
    · show s.start.newStream = false
      rw [Pcm.start]
      split
      · rfl
      · rename_i hnew
        exact Bool.not_eq_true _ ▸ hnew
    · rwa [← hframe]

end Call

/-! ### The first call -/

/-- The same but for `readp` and `audio_left`. -/
structure AtSamples (n : ℕ) (s s' : Pcm) : Prop where
  streambuf : s'.streambuf = bufIncReadp s.streambuf n
  newStream : s'.newStream = s.newStream
  bytesPerFrame : s'.bytesPerFrame = s.bytesPerFrame
  channels : s'.channels = s.channels
  sampleSize : s'.sampleSize = s.sampleSize

/-- At the samples `readp` is set behind all of the header. -/
theorem PcmHeader.atSamples_at {h : PcmHeader} {file : Bool} {p : ℕ} {s s' : Pcm}
    (hs : h.atSamples file p s = some s') (hp : p + h.samples.length = h.fixed.length)
    (hlt : h.encode.length < 2 ^ 32) : AtSamples h.encode.length s s' := by
  have hsamples := h.length_samples
  have hencode : h.encode.length = h.fixed.length + h.skipped.length := by
    rw [encode, List.length_append]
  rw [atSamples] at hs
  cases hf : h.format with
  | wave =>
      rw [hf] at hs hsamples
      dsimp only at hsamples
      cases hs
      have hn : h.encode.length = p + 8 := by
        rw [hencode, h.skipped_wave hf, List.length_nil]
        omega
      rw [hn]
      exact ⟨rfl, rfl, rfl, rfl, rfl⟩
  | aiff =>
      rw [hf] at hs hsamples
      dsimp only at hsamples
      have hn : (p + 16 + h.skipped.length) % 2 ^ 32 = h.encode.length := by
        rw [Nat.mod_eq_of_lt (by omega)]
        omega
      dsimp only at hs
      rw [aiffData, hn] at hs
      split at hs
      · cases hs
        split
        · exact ⟨rfl, rfl, rfl, rfl, rfl⟩
        · exact ⟨rfl, rfl, rfl, rfl, rfl⟩
      · cases hs

/-- `audio_left` is what is declared. -/
theorem PcmHeader.Reads.declares {src : PcmSource} {h : PcmHeader} {file : Bool}
    {rest : List UInt8} {s s' : Pcm} (hreads : h.Reads file rest s s') (hsrc : src.header = some h)
    (hlimit : s.limit = false) (hfile : h.format = .aiff → src.file = file) :
    (src.declared = none → s'.limit = false) ∧
      ∀ len, src.declared = some len → s'.limit = true ∧ s'.audioLeft = len := by
  rw [PcmSource.declared, hsrc]
  dsimp only
  cases hf : h.format with
  | wave =>
      obtain ⟨hleft, hlim⟩ := hreads.wave hf
      dsimp only
      rw [hlim, hleft]
      split
      · rename_i hunknown
        refine ⟨fun _ => decide_eq_false fun hno => ?_, fun len hlen => (nomatch hlen)⟩
        omega
      · rename_i hknown
        refine ⟨fun hno => (nomatch hno), fun len hlen => ⟨decide_eq_true ?_, ?_⟩⟩
        · exact not_or.mp hknown
        · exact Option.some.inj hlen
  | aiff =>
      have haiff := hreads.aiff hf
      dsimp only
      rw [hfile hf]
      rcases file with - | -
      · rw [if_neg (by decide)] at haiff ⊢
        exact ⟨fun _ => haiff.2.trans hlimit, fun len hlen => (nomatch hlen)⟩
      · rw [if_pos rfl] at haiff ⊢
        refine ⟨fun hno => (nomatch hno), fun len hlen => ⟨haiff.2, ?_⟩⟩
        exact haiff.1.trans (Option.some.inj hlen)

/-- The header is read, and the stream begins behind it. -/
theorem checked_begun {src : PcmSource} {check : Bool} {stream : StreamState} {s : Pcm}
    (h : s.Opened) (hread : src.Read check stream s) :
    ∃ s₁, s.checked check stream = some s₁ ∧
      PcmBegun src (src.frame s) s₁ ⟨bufUsed s.streambuf, 0⟩ ∧ s₁.streambuf = src.behind s ∧
      s₁.bytesPerFrame = s.bytesPerFrame ∧ s₁.start.bytesPerFrame = src.frame s := by
  rw [PcmSource.Read] at hread
  rw [Pcm.checked, PcmSource.behind, if_pos h.newStream]
  cases hsrc : src.header with
  | none =>
      rw [hsrc] at hread
      have hskip : src.skip = 0 := by rw [PcmSource.skip, hsrc]
      have hdeclared : src.declared = none := by rw [PcmSource.declared, hsrc]
      obtain ⟨hge, hlt, -⟩ := h.wf
      have hsame : bufIncReadp s.streambuf src.skip = s.streambuf := by
        rw [hskip, bufIncReadp, Nat.add_zero, if_neg (by omega)]
      refine ⟨s, ?_, ⟨h.wf, ?_, fun _ => h.limit, fun len hlen => ?_⟩, hsame.symm, rfl, ?_⟩
      · split
        · rename_i hnew
          rw [checkHeader, hread hnew.2]
        · rfl
      · show bufUsed s.streambuf = _ + 0 * _ + _
        omega
      · rw [hdeclared] at hlen
        cases hlen
      · rw [Pcm.start, if_pos h.newStream, PcmSource.frame, hsrc]
  | some hd =>
      rw [hsrc] at hread
      obtain ⟨hchecked, ⟨rest, hcontent⟩, hpiece, heven, hfile⟩ := hread
      have hskip : src.skip = hd.encode.length := by rw [PcmSource.skip, hsrc]
      have hcontent := hcontent.symm
      have hused : hd.encode.length ≤ bufUsed s.streambuf := by
        rw [← Buffer.Wf.length_content, hcontent, List.length_append]
        omega
      have hlt := h.wf.used_lt
      have hsize := h.size_lt
      obtain ⟨s₁, hs₁, hreads⟩ := hd.checkHeader_reads (decide (stream = .streamingFile)) s rest
        h.wf hsize hcontent hpiece heven
      have hat := PcmHeader.checkHeader_atSamples (decide (stream = .streamingFile)) h.wf hsize
        hcontent hpiece heven
      have hat := PcmHeader.atSamples_at (hat.symm.trans hs₁)
        (Nat.sub_add_cancel hd.length_samples_le) (by omega)
      obtain ⟨hnone, hsome⟩ := hreads.declares hsrc h.limit fun hf => by
        rw [Bool.eq_iff_iff, hfile hf, decide_eq_true_eq]
      have hbuf : s₁.streambuf = bufIncReadp s.streambuf src.skip := by
        rw [hskip]
        exact hat.streambuf
      refine ⟨s₁, by rw [if_pos ⟨h.newStream, hchecked⟩]; exact hs₁,
        ⟨?_, ?_, hnone, fun len hlen => ?_⟩, hbuf, hat.bytesPerFrame, ?_⟩
      · rw [hbuf, hskip]
        exact (keeps_bufIncReadp h.wf hused).wf
      · show bufUsed s.streambuf = _ + 0 * _ + _
        rw [hbuf, hskip, used_bufIncReadp h.wf hused]
        omega
      · obtain ⟨hlimit, hleft⟩ := hsome len hlen
        refine ⟨hlimit, ?_⟩
        show _ + 0 * _ = _
        omega
      · have hch : s₁.channels = hd.channels := hat.channels
        have hsz : s₁.sampleSize = hd.bits / 8 := hat.sampleSize
        have hnew : s₁.newStream = true := hat.newStream.trans h.newStream
        rw [Pcm.start, if_pos hnew, PcmSource.frame, hsrc]
        show s₁.channels * s₁.sampleSize % 2 ^ 32 = _
        rw [hch, hsz]

/-! ### Runs -/

theorem arrive_wf {s : Pcm} (h : s.streambuf.Wf) {bs : List UInt8}
    (hle : bs.length ≤ min (bufSpace s.streambuf) (bufContWrite s.streambuf)) :
    (s.arrive bs).streambuf.Wf ∧
      bufUsed (s.arrive bs).streambuf = bufUsed s.streambuf + bs.length :=
  ⟨wf_bufAppend h hle, used_bufAppend h hle⟩

theorem pcmStep_counts {src : PcmSource} {check : Bool} {frame : ℕ} {x : Option Pcm} {a : Tally}
    {e : PcmEvent} (h : Counts src frame x a) (hclear : src.Clear check x e) :
    ∃ a', Runs.watch (watchTotal src frame) a (pcmStep check x e).2 = some a' ∧
      Counts src frame (pcmStep check x e).1 a' := by
  rcases h with - | ⟨h, hframe⟩ | ⟨h, hnew, hframe, hne⟩
  · exact ⟨a, rfl, .over a⟩
  · rename_i s
    cases e with
    | arrive bs =>
        obtain ⟨hwf, hused⟩ := arrive_wf h.wf (List.length_take_le
          (min (bufSpace s.streambuf) (bufContWrite s.streambuf)) bs)
        refine ⟨_, rfl, ?_⟩
        rw [← hused]
        exact .opened ⟨h.newStream, h.limit, hwf, h.size_lt⟩ hframe
    | decode stream out =>
        obtain ⟨hread, hdrained⟩ := hclear
        obtain ⟨s₁, hs₁, hbegun, hbuf, hold, hstart⟩ := checked_begun h (hread h.newStream)
        show ∃ a', Runs.watch _ _ (pcmReturn (pcmDecode check stream out s)).2 = _ ∧
          Counts src frame (pcmReturn (pcmDecode check stream out s)).1 a'
        rw [pcmDecode_eq, hs₁, Option.bind_some]
        subst hframe
        refine pcmBody_counts out hbegun hstart (fun _ => rfl) fun hend hfew => ?_
        rw [hold, hbuf] at hfew
        have hrest := hdrained hend hfew
        rw [PcmSource.Drained, if_pos h.newStream, ← hbuf] at hrest
        rw [Pcm.rest]
        rcases hrest with hused | ⟨len, hlen, hshort⟩
        · split
          · exact Nat.lt_of_le_of_lt (Nat.min_le_right _ _) hused
          · exact hused
        · obtain ⟨hlimit, hleft⟩ := hbegun.limited len hlen
          rw [if_pos hlimit]
          refine Nat.lt_of_le_of_lt (Nat.min_le_left _ _) ?_
          omega
  · rename_i s
    cases e with
    | arrive bs =>
        obtain ⟨hwf, hused⟩ := arrive_wf h.wf (List.length_take_le
          (min (bufSpace s.streambuf) (bufContWrite s.streambuf)) bs)
        refine ⟨_, rfl, .started ⟨hwf, ?_, h.unlimited, h.limited⟩ hnew hframe hne⟩
        have hreceived := h.received
        rw [hused, ← Nat.add_assoc, ← hreceived]
    | decode stream out =>
        have hs : s.checked check stream = some s := by
          rw [Pcm.checked, if_neg]
          rw [hnew]
          exact fun hno => Bool.false_ne_true hno.1
        have hbehind : src.behind s = s.streambuf := by
          rw [PcmSource.behind, if_neg (by rw [hnew]; decide)]
        have hstart : s.start = s := by
          rw [Pcm.start, if_neg (by rw [hnew]; decide)]
        show ∃ a', Runs.watch _ _ (pcmReturn (pcmDecode check stream out s)).2 = _ ∧
          Counts src frame (pcmReturn (pcmDecode check stream out s)).1 a'
        rw [pcmDecode_eq, hs, Option.bind_some]
        refine pcmBody_counts out h (by rw [hstart]; exact hframe) (fun hzero => absurd hzero hne)
          fun hend hfew => ?_
        have hrest := hclear.2 hend (by rw [hbehind]; exact hfew)
        rw [PcmSource.Drained, if_neg (by rw [hnew]; decide), hbehind, hframe] at hrest
        rw [Pcm.rest]
        rcases hrest with hused | ⟨hlimit, hshort⟩
        · split
          · exact Nat.lt_of_le_of_lt (Nat.min_le_right _ _) hused
          · exact hused
        · rw [if_pos hlimit]
          exact Nat.lt_of_le_of_lt (Nat.min_le_left _ _) hshort

/-- In every run in which the header is recognised, and no call that finds the stream over has a whole
frame to decode, the frames decoded in the end are those that were received and declared. -/
theorem pcm_decodes_all (src : PcmSource) (check : Bool) (s : Pcm) (es : List PcmEvent)
    (h : s.Opened) (hclear : (pcmMachine check).Along (src.Clear check) (some s) es) :
    ∃ a, Runs.watch (watchTotal src (src.frame s)) ⟨bufUsed s.streambuf, 0⟩
      ((pcmMachine check).run (some s) es).2 = some a := by
  obtain ⟨a, hwatch, -⟩ := (pcmMachine check).run_watched
    (R := Counts src (src.frame s)) (fun _ _ _ hR hP => pcmStep_counts hR hP) (.opened h rfl) hclear
  exact ⟨a, hwatch⟩

/-- A decoder of two channels of 16 bits, with a streambuf of ten bytes, and the size of a frame of
the stream before. -/
def tenBytes (bytesPerFrame : ℕ) : Pcm where
  sampleSize := 2
  sampleRate := 44100
  channels := 2
  bigendian := true
  limit := false
  audioLeft := 0
  bytesPerFrame := bytesPerFrame
  newStream := true
  streambuf := ⟨0, 0, 0, 10, 10, 10, 10, fun _ => 0⟩

theorem pcm_decodes_all_raw :
    ∃ a, Runs.watch (watchTotal ⟨none, false⟩ 4) ⟨0, 0⟩
      ((pcmMachine false).run (some (tenBytes 0)) [.arrive [1, 2, 3, 4, 5],
        .decode .streamingHttp 8, .decode .disconnect 8]).2 = some a :=
  pcm_decodes_all ⟨none, false⟩ false (tenBytes 0) _ ⟨rfl, rfl, by constructor <;> decide, by decide⟩
    ⟨trivial, ⟨fun _ hcheck => absurd hcheck (by decide), fun hend => (nomatch hend)⟩,
      ⟨fun hnew => absurd hnew (by decide), fun _ _ => .inl (by decide)⟩, trivial⟩

/-- The third frame wraps; and the only frame of a stream is shorter than those of the one before. -/
theorem pcm_loses_frames :
    Runs.watch (watchTotal ⟨none, false⟩ 4) ⟨0, 0⟩
        ((pcmMachine false).run (some (tenBytes 0)) [.arrive [1, 2, 3, 4, 5, 6, 7, 8],
          .decode .streamingHttp 8, .arrive [9, 10], .arrive [11, 12], .decode .disconnect 8]).2 =
        none ∧
      Runs.watch (watchTotal ⟨none, false⟩ 4) ⟨0, 0⟩
        ((pcmMachine false).run (some (tenBytes 8)) [.arrive [1, 2, 3, 4],
          .decode .disconnect 8]).2 = none := by
  decide

end SqueezeliteMuse
