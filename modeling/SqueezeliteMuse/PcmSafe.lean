/-
SqueezeliteMuse/PcmSafe.lean

`_check_header` and the first call of `pcm_decode` behind it, on any bytes.

The loop of `_check_header` goes over the chunks; here it is a loop from a chunk to the next, apart
from what it keeps of them.  A chunk is where it begins and the bytes from there on.

Main result: `headerSafe_iff`: with what headers the two are safe.  All reads are inside the data,
but a chunk of 2 ^ 32 - 8 bytes is passed again and again, an offset in SSND may lead behind the
data, and channels and sample size are taken over unchecked.
-/
import SqueezeliteMuse.PcmSamples
import SqueezeliteMuse.Lib.Loop

namespace SqueezeliteMuse

open Octets

/-! ### The walk over the chunks -/

section Walk

variable (f : HeaderFormat) (m : ℕ → UInt8)

/-- The chunk with the samples: there `_check_header` returns. -/
def SamplesAt (c : ℕ × ℕ) : Prop :=
  8 ≤ c.2 ∧ (f = .wave ∧ isText m c.1 (ascii ['d', 'a', 't', 'a']) ∨
    f = .aiff ∧ isText m c.1 (ascii ['S', 'S', 'N', 'D']) ∧ 16 ≤ c.2)

instance (c : ℕ × ℕ) : Decidable (SamplesAt f m c) := instDecidableAnd

/-- The bytes of a chunk, as they are added up. -/
def chunkSize (c : ℕ × ℕ) : ℕ := (chunkLen f m c.1 + 8) % 2 ^ 32

/-- From a chunk to the next, or the end. -/
def chunkStep (c : ℕ × ℕ) : (ℕ × ℕ) ⊕ (ℕ × ℕ) :=
  if c.2 < 8 ∨ SamplesAt f m c ∨ c.2 < chunkSize f m c then .inl c
  else .inr (c.1 + chunkSize f m c, c.2 - chunkSize f m c)

/-- A chunk of which the size is 0, as it is added up. -/
def Endless (c : ℕ × ℕ) : Prop := 8 ≤ c.2 ∧ ¬ SamplesAt f m c ∧ chunkLen f m c.1 = 2 ^ 32 - 8

instance (c : ℕ × ℕ) : Decidable (Endless f m c) := instDecidableAnd

/-- How far `readp` goes from here. -/
def chunkAdvance (c : ℕ × ℕ) : ℕ :=
  if SamplesAt f m c then
    match f with
    | .wave => c.1 + 8
    | .aiff => (c.1 + 16 + be m (c.1 + 8) 4) % 2 ^ 32
  else 0

/-- What is read of a chunk: where, and how many bytes. -/
def chunkReads (c : ℕ × ℕ) : List (ℕ × ℕ) :=
  if c.2 < 8 then []
  else
    -- id and len
    [(c.1, 4), (c.1 + 4, 4)] ++
      match f with
      | .wave =>
          if ¬ SamplesAt f m c ∧ isText m c.1 (ascii ['f', 'm', 't', ' ']) ∧ c.2 ≥ 24 then
            [(c.1 + 10, 2), (c.1 + 12, 4), (c.1 + 22, 2)]
          else []
      | .aiff =>
          if SamplesAt f m c then [(c.1 + 8, 4)]
          else if isText m c.1 (ascii ['C', 'O', 'M', 'M']) ∧ c.2 ≥ 26 then
            [(c.1 + 8, 2), (c.1 + 14, 2), (c.1 + 16, 2), (c.1 + 18, 4)]
          else []

/-- The formats that are taken over, one after the other. -/
def formatOver (cs : List (ℕ × ℕ)) (s : Pcm) : Pcm :=
  cs.foldl (fun s c => pcmFormat f m c.1 c.2 s) s

/-- What is left at the chunk where the loop ends. -/
def chunkEnd (file : Bool) (c : ℕ × ℕ) (s : Pcm) : Option Pcm :=
  if SamplesAt f m c then
    match f with
    | .wave => some (waveData (chunkLen f m c.1) c.1 s)
    | .aiff => aiffData file (be m (c.1 + 8) 4) (chunkLen f m c.1) c.1 s
  else some s

variable {f m}

theorem isText_other {p : ℕ} {text text' : List UInt8} (h : isText m p text = true)
    (hlen : text.length = text'.length) (hne : text ≠ text') : isText m p text' = false := by
  rw [isText_of_holds (isText_iff.mp h) hlen]
  exact decide_eq_false hne

/-- There is no format in few bytes, nor in the chunk with the samples. -/
theorem pcmFormat_none {c : ℕ × ℕ} (h : c.2 < 8 ∨ SamplesAt f m c) (s : Pcm) :
    pcmFormat f m c.1 c.2 s = s := by
  cases f with
  | wave =>
    refine if_neg ?_
    rintro ⟨hfmt, hbytes⟩
    rcases h with hfew | ⟨-, ⟨-, hdata⟩ | ⟨hf, -⟩⟩
    · omega
    · have hother : isText m c.1 (ascii ['f', 'm', 't', ' ']) = false :=
        isText_other hdata rfl (by decide)
      exact Bool.false_ne_true (hother.symm.trans hfmt)
    · cases hf
  | aiff =>
    refine if_neg ?_
    rintro ⟨hcomm, hbytes⟩
    rcases h with hfew | ⟨-, ⟨hf, -⟩ | ⟨-, hssnd, -⟩⟩
    · omega
    · cases hf
    · have hother : isText m c.1 (ascii ['C', 'O', 'M', 'M']) = false :=
        isText_other hssnd rfl (by decide)
      exact Bool.false_ne_true (hother.symm.trans hcomm)

theorem chunkEnd_other {c : ℕ × ℕ} (h : ¬ SamplesAt f m c) (file : Bool) (s : Pcm) :
    chunkEnd f m file c s = some s := if_neg h

/-- The loop of `_check_header` is the walk, with the formats that are met. -/
theorem chunkLoop_eq (file : Bool) (fuel : ℕ) : ∀ (c : ℕ × ℕ) (s : Pcm),
    chunkLoop file f m fuel c.1 c.2 s = (Loop.run (chunkStep f m) fuel c).bind fun e =>
      chunkEnd f m file e (formatOver f m (Loop.visited (chunkStep f m) fuel c) s) := by
  induction fuel with
  | zero => exact fun _ _ => rfl
  | succ fuel ih =>
    intro c s
    by_cases hend : c.2 < 8 ∨ SamplesAt f m c ∨ c.2 < chunkSize f m c
    · have hstep : chunkStep f m c = .inl c := if_pos hend
      rw [Loop.run_inl hstep, Loop.visited_inl hstep]
      show _ = chunkEnd f m file c (pcmFormat f m c.1 c.2 s)
      rw [chunkLoop]
      by_cases hfew : c.2 < 8
      · have hno : ¬ SamplesAt f m c := fun h => absurd h.1 (by omega)
        rw [if_pos hfew, chunkEnd_other hno, pcmFormat_none (.inl hfew)]
      · rw [if_neg hfew]
        by_cases hsamples : SamplesAt f m c
        · unfold chunkEnd
          rw [pcmFormat_none (.inr hsamples), if_pos hsamples]
          obtain ⟨-, hwave | ⟨haiff, hssnd, hbytes⟩⟩ := hsamples
          · rw [if_pos hwave]
            obtain ⟨rfl, -⟩ := hwave
            rfl
          · subst haiff
            rw [if_neg (fun h => by cases h.1), if_pos ⟨rfl, hssnd, hbytes⟩]
        · have hsize : c.2 < chunkSize f m c := by
            rcases hend with h | h | h
            · exact absurd h hfew
            · exact absurd h hsamples
            · exact h
          rw [if_neg, if_neg, if_neg, chunkEnd_other hsamples]
          · show ¬ c.2 ≥ chunkSize f m c
            omega
          · exact fun h => hsamples ⟨by omega, .inr h⟩
          · exact fun h => hsamples ⟨by omega, .inl h⟩
    · have hstep : chunkStep f m c = .inr (c.1 + chunkSize f m c, c.2 - chunkSize f m c) :=
        if_neg hend
      rw [Loop.run_inr hstep, Loop.visited_inr hstep]
      show _ = (Loop.run (chunkStep f m) fuel _).bind fun e =>
        chunkEnd f m file e (formatOver f m _ (pcmFormat f m c.1 c.2 s))
      rw [← ih, chunkLoop, if_neg (fun h => hend (.inl h)), if_neg, if_neg, if_pos]
      · rfl
      · show c.2 ≥ chunkSize f m c
        omega
      · exact fun h => hend (.inr (.inl ⟨by omega, .inr h⟩))
      · exact fun h => hend (.inr (.inl ⟨by omega, .inl h⟩))

theorem chunkStep_inl {c e : ℕ × ℕ} (h : chunkStep f m c = .inl e) : e = c := by
  unfold chunkStep at h
  split at h
  · exact (Sum.inl.inj h).symm
  · cases h

theorem chunkStep_inr {c c' : ℕ × ℕ} (h : chunkStep f m c = .inr c') :
    8 ≤ c.2 ∧ ¬ SamplesAt f m c ∧ chunkSize f m c ≤ c.2 ∧
      c' = (c.1 + chunkSize f m c, c.2 - chunkSize f m c) := by
  unfold chunkStep at h
  split at h
  · cases h
  · rename_i hgo
    refine ⟨?_, fun h => hgo (.inr (.inl h)), ?_, (Sum.inr.inj h).symm⟩
    · by_contra hfew
      exact hgo (.inl (by omega))
    · by_contra hshort
      exact hgo (.inr (.inr (by omega)))

theorem chunkLen_lt (p : ℕ) : chunkLen f m p < 2 ^ 32 := by
  cases f with
  | wave => exact le_lt m (p + 4) 4
  | aiff => exact be_lt m (p + 4) 4

/-- An endless chunk is passed again and again. -/
theorem chunkStep_endless {c : ℕ × ℕ} (h : Endless f m c) : chunkStep f m c = .inr c := by
  obtain ⟨hbytes, hsamples, hlen⟩ := h
  have hsize : chunkSize f m c = 0 := by
    unfold chunkSize
    omega
  unfold chunkStep
  rw [hsize, if_neg]
  · rfl
  · rintro (h | h | h)
    · omega
    · exact hsamples h
    · exact absurd h (Nat.not_lt_zero _)

/-- The walk falls from chunk to chunk, if none of them is endless. -/
theorem chunkStep_falls {c c' : ℕ × ℕ} (hends : ¬ Endless f m c) (h : chunkStep f m c = .inr c') :
    c'.2 < c.2 := by
  obtain ⟨hbytes, hsamples, hsize, rfl⟩ := chunkStep_inr h
  have hlen := @chunkLen_lt f m c.1
  have hne : chunkLen f m c.1 ≠ 2 ^ 32 - 8 := fun h => hends ⟨hbytes, hsamples, h⟩
  have hpos : 0 < chunkSize f m c := by
    unfold chunkSize
    omega
  show c.2 - chunkSize f m c < c.2
  omega

/-- All chunks of the walk end where the data does. -/
theorem visited_chunks {fuel p rest : ℕ} {c : ℕ × ℕ}
    (hc : c ∈ Loop.visited (chunkStep f m) fuel (p, rest)) : c.1 + c.2 = p + rest := by
  refine Loop.visited_keeps (P := fun c => c.1 + c.2 = p + rest) ?_ fuel rfl c hc
  intro t t' ht hstep
  obtain ⟨-, -, hsize, rfl⟩ := chunkStep_inr hstep
  show t.1 + chunkSize f m t + (t.2 - chunkSize f m t) = p + rest
  omega

/-- A chunk is read up to where the data ends, and no further. -/
theorem chunkReads_inside {c r : ℕ × ℕ} (hr : r ∈ chunkReads f m c) : r.1 + r.2 ≤ c.1 + c.2 := by
  unfold chunkReads at hr
  split at hr
  · exact absurd hr List.not_mem_nil
  · rename_i hbytes
    rcases List.mem_append.mp hr with hr | hr
    · simp only [List.mem_cons, List.not_mem_nil, or_false] at hr
      rcases hr with rfl | rfl <;> (dsimp only; omega)
    · cases f with
      | wave =>
        dsimp only at hr
        split at hr
        · rename_i hfmt
          have hmany := hfmt.2.2
          simp only [List.mem_cons, List.not_mem_nil, or_false] at hr
          rcases hr with rfl | rfl | rfl <;> (dsimp only; omega)
        · exact absurd hr List.not_mem_nil
      | aiff =>
        dsimp only at hr
        split at hr
        · rename_i hsamples
          have hmany : 16 ≤ c.2 := by
            obtain ⟨-, ⟨hf, -⟩ | ⟨-, -, hmany⟩⟩ := hsamples
            · cases hf
            · exact hmany
          rw [List.mem_singleton] at hr
          subst hr
          dsimp only
          omega
        · split at hr
          · rename_i hcomm
            have hmany := hcomm.2
            simp only [List.mem_cons, List.not_mem_nil, or_false] at hr
            rcases hr with rfl | rfl | rfl | rfl <;> (dsimp only; omega)
          · exact absurd hr List.not_mem_nil

end Walk

/-! ### The header and the first frames -/

/-- The size of `tmp`. -/
def TMP_SIZE : ℕ := 3 * 8

namespace Pcm

variable (s : Pcm)

/-- `bytes` -/
def headBytes : ℕ := min (bufUsed s.streambuf) (bufContRead s.streambuf)

/-- The chunks that `_check_header` comes to. -/
def chunks (f : HeaderFormat) : List (ℕ × ℕ) :=
  Loop.visited (chunkStep f s.streambuf.peek) (s.headBytes + 1) (12, s.headBytes - 12)

/-- How far `_check_header` moves `readp`, if it returns within so many rounds. -/
def headerAdvance (fuel : ℕ) : Option ℕ :=
  match headerFormat s.streambuf.peek s.headBytes with
  | none => some 0
  | some f =>
      (Loop.run (chunkStep f s.streambuf.peek) fuel (12, s.headBytes - 12)).map
        (chunkAdvance f s.streambuf.peek)

/-- What `_check_header` reads, from `readp` on. -/
def headerReads : List (ℕ × ℕ) :=
  if s.headBytes ≤ 12 then []
  else
    [(0, 4), (8, 4)] ++
      match headerFormat s.streambuf.peek s.headBytes with
      | none => []
      | some f => (s.chunks f).flatMap (chunkReads f s.streambuf.peek)

/-- `pcm_decode` has nothing to do. -/
def Complete (stream : StreamState) : Prop :=
  (stream.toend ∧ s.headBytes < s.bytesPerFrame) ∨ (s.limit ∧ s.audioLeft = 0)

instance (stream : StreamState) : Decidable (s.Complete stream) := instDecidableOr

/-- The bytes that `pcm_decode` copies to `tmp`. -/
def tmpCopied (stream : StreamState) : ℕ :=
  if s.Complete stream then 0
  else if s.headBytes / s.start.bytesPerFrame = 0 ∧ s.headBytes > 0 ∧
      bufUsed s.streambuf ≥ s.start.bytesPerFrame then s.start.bytesPerFrame
  else 0

end Pcm

/-- `_check_header` returns, with `readp` in the data, reads the data only, and the call of
`pcm_decode` that follows divides by a frame that is not empty, and copies no more than a `tmp`. -/
structure HeaderSafe (stream : StreamState) (out : ℕ) (s : Pcm) : Prop where
  returns : ∃ fuel n, s.headerAdvance fuel = some n ∧ n ≤ s.headBytes
  reads : ∀ r ∈ s.headerReads, r.1 + r.2 ≤ s.headBytes
  decodes : ∃ s' r, checkHeader (stream = .streamingFile) s = some s' ∧
    pcmBody stream out s' = some r ∧ s'.tmpCopied stream ≤ TMP_SIZE

/-- There is nothing to decode, or a frame has bytes, and no more than `tmp` if it crosses the end
of streambuf. -/
def FrameFits (stream : StreamState) (s : Pcm) : Prop :=
  s.Complete stream ∨
    0 < s.channels * s.sampleSize % 2 ^ 32 ∧
      (0 < s.headBytes → s.headBytes < s.channels * s.sampleSize % 2 ^ 32 →
        s.channels * s.sampleSize % 2 ^ 32 ≤ bufUsed s.streambuf →
        s.channels * s.sampleSize % 2 ^ 32 ≤ TMP_SIZE)

instance (stream : StreamState) (s : Pcm) : Decidable (FrameFits stream s) := instDecidableOr

/-- A header that is safe: no chunk is endless, the samples of SSND begin in the data, and the format
it gives has frames that fit. -/
structure ChunksFine (stream : StreamState) (f : HeaderFormat) (s : Pcm) : Prop where
  ends : ∀ c ∈ s.chunks f, ¬ Endless f s.streambuf.peek c
  offset : ∀ c ∈ s.chunks f, f = .aiff → SamplesAt f s.streambuf.peek c →
    (c.1 + 16 + be s.streambuf.peek (c.1 + 8) 4) % 2 ^ 32 ≤ s.headBytes
  frame : ∀ c ∈ s.chunks f, chunkStep f s.streambuf.peek c = .inl c →
    ∀ s' ∈ chunkEnd f s.streambuf.peek (stream = .streamingFile) c
      (formatOver f s.streambuf.peek (s.chunks f) s), FrameFits stream s'

instance (stream : StreamState) (f : HeaderFormat) (s : Pcm) : Decidable (ChunksFine stream f s) :=
  decidable_of_iff
    ((∀ c ∈ s.chunks f, ¬ Endless f s.streambuf.peek c) ∧
      (∀ c ∈ s.chunks f, f = .aiff → SamplesAt f s.streambuf.peek c →
        (c.1 + 16 + be s.streambuf.peek (c.1 + 8) 4) % 2 ^ 32 ≤ s.headBytes) ∧
      ∀ c ∈ s.chunks f, chunkStep f s.streambuf.peek c = .inl c →
        ∀ s' ∈ chunkEnd f s.streambuf.peek (stream = .streamingFile) c
          (formatOver f s.streambuf.peek (s.chunks f) s), FrameFits stream s')
    ⟨fun ⟨hends, hoffset, hframe⟩ => ⟨hends, hoffset, hframe⟩,
      fun h => ⟨h.ends, h.offset, h.frame⟩⟩

/-- The condition on the bytes; without a header it is the format of `pcm_open` that counts. -/
def HeaderFine (stream : StreamState) (s : Pcm) : Prop :=
  match headerFormat s.streambuf.peek s.headBytes with
  | none => FrameFits stream s
  | some f => ChunksFine stream f s

section Safe

variable {stream : StreamState} {out : ℕ} {s s' : Pcm} {f : HeaderFormat}

/-- The first frames are decoded, or there is nothing to do. -/
theorem pcmBody_fits (out : ℕ) (hnew : s.newStream = true) :
    ((∃ r, pcmBody stream out s = some r) ∧ s.tmpCopied stream ≤ TMP_SIZE) ↔
      FrameFits stream s := by
  have hframe : s.start.bytesPerFrame = s.channels * s.sampleSize % 2 ^ 32 := by
    rw [Pcm.start, if_pos hnew]
  have hbody : pcmBody stream out s = if s.Complete stream then some ⟨.complete, 0, s⟩
      else if s.start.bytesPerFrame = 0 then none
      else some ⟨.running, s.start.framesOut s.headBytes out,
        s.start.take (s.start.framesOut s.headBytes out)⟩ := rfl
  rw [FrameFits, ← hframe, hbody, Pcm.tmpCopied]
  by_cases hcomplete : s.Complete stream
  · rw [if_pos hcomplete, if_pos hcomplete]
    exact ⟨fun _ => .inl hcomplete, fun _ => ⟨⟨_, rfl⟩, Nat.zero_le _⟩⟩
  · rw [if_neg hcomplete, if_neg hcomplete]
    by_cases hzero : s.start.bytesPerFrame = 0
    · rw [if_pos hzero]
      constructor
      · rintro ⟨⟨r, hr⟩, -⟩
        cases hr
      · rintro (h | ⟨hpos, -⟩)
        · exact absurd h hcomplete
        · omega
    · rw [if_neg hzero]
      constructor
      · rintro ⟨-, hcopied⟩
        refine .inr ⟨by omega, fun hsome hfew hused => ?_⟩
        rwa [if_pos ⟨Nat.div_eq_of_lt hfew, hsome, hused⟩] at hcopied
      · rintro (h | ⟨hpos, hfits⟩)
        · exact absurd h hcomplete
        · refine ⟨⟨_, rfl⟩, ?_⟩
          split
          · rename_i hcross
            exact hfits hcross.2.1 ((Nat.div_eq_zero_iff_lt hpos).mp hcross.1) hcross.2.2
          · exact Nat.zero_le _

theorem headBytes_gt (hf : headerFormat s.streambuf.peek s.headBytes = some f) :
    12 < s.headBytes := by
  by_contra hshort
  rw [headerFormat, if_pos (by omega)] at hf
  cases hf

theorem checkHeader_eq (file : Bool) (hf : headerFormat s.streambuf.peek s.headBytes = some f) :
    checkHeader file s =
      (Loop.run (chunkStep f s.streambuf.peek) (s.headBytes + 1) (12, s.headBytes - 12)).bind
        fun e => chunkEnd f s.streambuf.peek file e (formatOver f s.streambuf.peek (s.chunks f) s) := by
  have hloop := chunkLoop_eq (f := f) (m := s.streambuf.peek) file (s.headBytes + 1)
    (12, s.headBytes - 12) s
  rw [Pcm.chunks, ← hloop]
  have hbytes : headerFormat s.streambuf.peek
      (min (bufUsed s.streambuf) (bufContRead s.streambuf)) = some f := hf
  simp only [checkHeader, hbytes]
  rfl

/-- All that is read is in the data. -/
theorem headerReads_inside (s : Pcm) : ∀ r ∈ s.headerReads, r.1 + r.2 ≤ s.headBytes := by
  intro r hr
  unfold Pcm.headerReads at hr
  split at hr
  · exact absurd hr List.not_mem_nil
  · rename_i hlong
    rcases List.mem_append.mp hr with hr | hr
    · simp only [List.mem_cons, List.not_mem_nil, or_false] at hr
      rcases hr with rfl | rfl <;> (dsimp only; omega)
    · split at hr
      · exact absurd hr List.not_mem_nil
      · obtain ⟨c, hc, hr⟩ := List.mem_flatMap.mp hr
        have hinside := chunkReads_inside hr
        have hall := visited_chunks hc
        omega

/-- `readp` is in the block, if it is in the data. -/
theorem aiffData_some {file : Bool} {offset len p : ℕ} (h : s.streambuf.Wf)
    (hle : (p + 16 + offset) % 2 ^ 32 ≤ s.headBytes) :
    ∃ s', aiffData file offset len p s = some s' := by
  have hcont : s.headBytes ≤ bufContRead s.streambuf := Nat.min_le_right ..
  have hread := h.readp_lt
  have hwrite := h.writep_lt
  have hsize := h.size_pos
  have hinside : s.streambuf.readp + (p + 16 + offset) % 2 ^ 32 <
      s.streambuf.wrap + s.streambuf.size := by
    unfold bufContRead at hcont
    split at hcont <;> omega
  exact ⟨_, if_pos hinside⟩

theorem formatOver_stream (m : ℕ → UInt8) (cs : List (ℕ × ℕ)) : ∀ s : Pcm,
    (formatOver f m cs s).streambuf = s.streambuf := by
  induction cs with
  | nil => exact fun _ => rfl
  | cons c cs ih =>
    intro s
    show (formatOver f m cs (pcmFormat f m c.1 c.2 s)).streambuf = s.streambuf
    rw [ih, (pcmFormat_stream f m c.1 c.2 s).1]

/-- The loop returns where `ChunksFine` looks. -/
theorem ChunksFine.returns (h : s.streambuf.Wf) (hf : headerFormat s.streambuf.peek s.headBytes = some f)
    (hfine : ChunksFine stream f s) :
    ∃ e ∈ s.chunks f, chunkStep f s.streambuf.peek e = .inl e ∧
      chunkAdvance f s.streambuf.peek e ≤ s.headBytes ∧
      ∃ s', chunkEnd f s.streambuf.peek (stream = .streamingFile) e
        (formatOver f s.streambuf.peek (s.chunks f) s) = some s' := by
  have hlong := headBytes_gt hf
  have hfalls : ∀ c ∈ s.chunks f, ∀ c', chunkStep f s.streambuf.peek c = .inr c' → c'.2 < c.2 :=
    fun c hc c' hstep => chunkStep_falls (hfine.ends c hc) hstep
  obtain ⟨e, hrun⟩ := Loop.run_of_falls Prod.snd (s.headBytes + 1) hfalls
    (show s.headBytes - 12 < s.headBytes + 1 by omega)
  obtain ⟨c, hc, hstep⟩ := (Loop.run_eq_some_iff _).mp hrun
  obtain rfl := chunkStep_inl hstep
  refine ⟨e, hc, hstep, ?_⟩
  have hall : e.1 + e.2 = 12 + (s.headBytes - 12) := visited_chunks hc
  by_cases hsamples : SamplesAt f s.streambuf.peek e
  · have hoffset := hfine.offset e hc
    unfold chunkAdvance chunkEnd
    rw [if_pos hsamples, if_pos hsamples]
    cases f with
    | wave =>
      have hbytes := hsamples.1
      refine ⟨?_, _, rfl⟩
      dsimp only
      omega
    | aiff =>
      have hinside := hoffset rfl hsamples
      refine ⟨hinside, aiffData_some ?_ ?_⟩
      · rwa [formatOver_stream]
      · unfold Pcm.headBytes
        rwa [formatOver_stream]
  · unfold chunkAdvance
    rw [if_neg hsamples, chunkEnd_other hsamples]
    exact ⟨Nat.zero_le _, _, rfl⟩

/-- `_check_header` and the first call of `pcm_decode` are safe on exactly these bytes. -/
theorem headerSafe_iff (stream : StreamState) (out : ℕ) (s : Pcm) (h : s.streambuf.Wf)
    (hnew : s.newStream = true) : HeaderSafe stream out s ↔ HeaderFine stream s := by
  cases hf : headerFormat s.streambuf.peek s.headBytes with
  | none =>
    have hadvance : ∀ fuel, s.headerAdvance fuel = some 0 := by
      intro fuel
      unfold Pcm.headerAdvance
      rw [hf]
    have hsame : checkHeader (stream = .streamingFile) s = some s := by
      have hbytes : headerFormat s.streambuf.peek
          (min (bufUsed s.streambuf) (bufContRead s.streambuf)) = none := hf
      simp only [checkHeader, hbytes]
    unfold HeaderFine
    rw [hf]
    dsimp only
    rw [← pcmBody_fits out hnew]
    constructor
    · rintro ⟨-, -, s', r, hcheck, hbody, hcopied⟩
      obtain rfl := Option.some.inj (hsame.symm.trans hcheck)
      exact ⟨⟨r, hbody⟩, hcopied⟩
    · rintro ⟨⟨r, hbody⟩, hcopied⟩
      exact ⟨⟨0, 0, hadvance 0, Nat.zero_le _⟩, headerReads_inside s, s, r, hsame, hbody, hcopied⟩
  | some f =>
    have hadvance : ∀ fuel, s.headerAdvance fuel =
        (Loop.run (chunkStep f s.streambuf.peek) fuel (12, s.headBytes - 12)).map
          (chunkAdvance f s.streambuf.peek) := by
      intro fuel
      unfold Pcm.headerAdvance
      rw [hf]
    have hcheck := checkHeader_eq (stream = .streamingFile) hf
    unfold HeaderFine
    rw [hf]
    dsimp only
    constructor
    · rintro ⟨⟨fuel, n, hn, hle⟩, -, s', r, hs', hbody, hcopied⟩
      rw [hadvance] at hn
      obtain ⟨e, hrun, rfl⟩ := Option.map_eq_some_iff.mp hn
      rw [hcheck] at hs'
      obtain ⟨e', hrun', hend⟩ := Option.bind_eq_some_iff.mp hs'
      obtain rfl := Loop.run_unique hrun hrun'
      have hlast : ∀ c ∈ s.chunks f, chunkStep f s.streambuf.peek c = .inl c → c = e := by
        intro c hc hstep
        exact Loop.run_unique ((Loop.run_eq_some_iff _).mpr ⟨c, hc, hstep⟩) hrun
      refine ⟨?_, ?_, ?_⟩
      · intro c hc hendless
        have hstuck := Loop.run_stuck (P := fun t => t = c)
          (fun t ht => ⟨c, ht.symm ▸ chunkStep_endless hendless, rfl⟩) _ hc rfl fuel
        cases hstuck.symm.trans hrun
      · rintro c hc rfl hsamples
        have hstep : chunkStep .aiff s.streambuf.peek c = .inl c := if_pos (.inr (.inl hsamples))
        obtain rfl := hlast c hc hstep
        unfold chunkAdvance at hle
        rwa [if_pos hsamples] at hle
      · intro c hc hstep s'' hs''
        obtain rfl := hlast c hc hstep
        obtain rfl := Option.some.inj (hs''.symm.trans hend)
        have hnew' := (checkHeader_same h (hcheck.trans hs')).newStream
        exact (pcmBody_fits out (hnew'.trans hnew)).mp ⟨⟨r, hbody⟩, hcopied⟩
    · intro hfine
      obtain ⟨e, he, hstep, hle, s', hend⟩ := hfine.returns h hf
      have hrun : Loop.run (chunkStep f s.streambuf.peek) (s.headBytes + 1)
          (12, s.headBytes - 12) = some e := (Loop.run_eq_some_iff _).mpr ⟨e, he, hstep⟩
      have hs' : checkHeader (stream = .streamingFile) s = some s' := by
        rw [hcheck, hrun]
        exact hend
      have hnew' := (checkHeader_same h hs').newStream
      obtain ⟨⟨r, hbody⟩, hcopied⟩ :=
        (pcmBody_fits out (hnew'.trans hnew)).mpr (hfine.frame e he hstep s' hend)
      refine ⟨⟨s.headBytes + 1, _, ?_, hle⟩, headerReads_inside s, s', r, hs', hbody, hcopied⟩
      rw [hadvance, hrun]
      rfl

end Safe

/-! ### Some headers -/

/-- `pcm_open` for 16 bits, 44100 Hz, stereo, and then these bytes in a buffer of 128. -/
def headOf (bytes : List UInt8) : Pcm where
  sampleSize := 2
  sampleRate := 44100
  channels := 2
  bigendian := false
  limit := false
  audioLeft := 0
  bytesPerFrame := 0
  newStream := true
  streambuf := bufIncWritep (bufStore (bufInit ⟨0, fun _ => 0⟩ 128) bytes) bytes.length

/-- A WAVE file with so many channels, and two samples. -/
def waveOf (channels : UInt8) : List UInt8 :=
  ascii ['R', 'I', 'F', 'F'] ++ [40, 0, 0, 0] ++ ascii ['W', 'A', 'V', 'E'] ++
    ascii ['f', 'm', 't', ' '] ++ [16, 0, 0, 0, 1, 0, channels, 0, 0x44, 0xac, 0, 0] ++
    [0x10, 0xb1, 2, 0, 4, 0, 16, 0] ++ ascii ['d', 'a', 't', 'a'] ++ [4, 0, 0, 0, 1, 2, 3, 4]

/-- A chunk of 2 ^ 32 - 8 bytes. -/
def endlessWave : List UInt8 :=
  ascii ['R', 'I', 'F', 'F'] ++ [12, 0, 0, 0] ++ ascii ['W', 'A', 'V', 'E'] ++
    ascii ['L', 'I', 'S', 'T'] ++ [0xf8, 0xff, 0xff, 0xff]

/-- The samples begin behind the data. -/
def offsetAiff : List UInt8 :=
  ascii ['F', 'O', 'R', 'M'] ++ [0, 0, 0, 20] ++ ascii ['A', 'I', 'F', 'F'] ++
    ascii ['S', 'S', 'N', 'D'] ++ [0, 0, 0, 16, 0, 0, 0, 64, 0, 0, 0, 0]

theorem wf_headOf (bytes : List UInt8) (h : bytes.length < 128) : (headOf bytes).streambuf.Wf := by
  have hwrite : (headOf bytes).streambuf.writep = bytes.length := by
    show (if 0 + bytes.length ≥ 0 + 128 then _ else 0 + bytes.length) = _
    rw [if_neg (by omega), Nat.zero_add]
  refine ⟨Nat.le_refl _, Nat.zero_lt_succ _, Nat.zero_le _, ?_, rfl, Nat.le_refl _, Nat.le_refl _⟩
  rw [hwrite]
  exact h

theorem headerSafe_stereo : HeaderSafe .streamingHttp 1000 (headOf (waveOf 2)) := by
  refine (headerSafe_iff .streamingHttp 1000 (headOf (waveOf 2)) (wf_headOf _ (by decide)) rfl).mpr ?_
  have hf : headerFormat (headOf (waveOf 2)).streambuf.peek (headOf (waveOf 2)).headBytes =
      some .wave := by decide
  unfold HeaderFine
  rw [hf]
  show ChunksFine .streamingHttp .wave (headOf (waveOf 2))
  decide

/-- A walk that does not end, `readp` behind the data, a division by zero. -/
theorem headers_unsafe :
    ¬ HeaderSafe .streamingHttp 1000 (headOf endlessWave) ∧
    ¬ HeaderSafe .streamingHttp 1000 (headOf offsetAiff) ∧
    ¬ HeaderSafe .streamingHttp 1000 (headOf (waveOf 0)) := by
  refine ⟨?_, ?_, ?_⟩
  · rintro ⟨⟨fuel, n, hn, -⟩, -, -⟩
    have hstep : chunkStep .wave (headOf endlessWave).streambuf.peek (12, 8) = .inr (12, 8) := by
      decide
    have hnone : Loop.run (chunkStep .wave (headOf endlessWave).streambuf.peek) fuel (12, 8) = none :=
      Loop.run_trapped (P := fun t => t = (12, 8)) (fun t ht => ⟨_, ht ▸ hstep, rfl⟩) fuel rfl
    have hadvance : (headOf endlessWave).headerAdvance fuel =
        (Loop.run (chunkStep .wave (headOf endlessWave).streambuf.peek) fuel (12, 8)).map
          (chunkAdvance .wave (headOf endlessWave).streambuf.peek) := by
      have hf : headerFormat (headOf endlessWave).streambuf.peek (headOf endlessWave).headBytes =
          some .wave := by decide
      unfold Pcm.headerAdvance
      rw [hf]
      rfl
    rw [hadvance, hnone] at hn
    cases hn
  · rintro ⟨⟨fuel, n, hn, hle⟩, -, -⟩
    have hadvance : (headOf offsetAiff).headerAdvance fuel =
        (Loop.run (chunkStep .aiff (headOf offsetAiff).streambuf.peek) fuel (12, 16)).map
          (chunkAdvance .aiff (headOf offsetAiff).streambuf.peek) := by
      have hf : headerFormat (headOf offsetAiff).streambuf.peek (headOf offsetAiff).headBytes =
          some .aiff := by decide
      unfold Pcm.headerAdvance
      rw [hf]
      rfl
    rw [hadvance] at hn
    obtain ⟨e, hrun, rfl⟩ := Option.map_eq_some_iff.mp hn
    have hfirst : Loop.run (chunkStep .aiff (headOf offsetAiff).streambuf.peek) 1 (12, 16) =
        some (12, 16) := by decide
    obtain rfl := Loop.run_unique hrun hfirst
    exact absurd hle (by decide)
  · rintro ⟨-, -, s', r, hcheck, hbody, -⟩
    have hnone : ((checkHeader (StreamState.streamingHttp = .streamingFile) (headOf (waveOf 0))).bind
        (pcmBody .streamingHttp 1000)).isNone = true := by decide
    rw [hcheck, Option.bind_some, hbody] at hnone
    cases hnone

end SqueezeliteMuse
