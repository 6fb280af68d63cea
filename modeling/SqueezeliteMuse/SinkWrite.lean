/-
SqueezeliteMuse/SinkWrite.lean

`sink_data_handler` of decode_external.c.

A block of samples of 16 bits goes to `outputbuf`, as they are or shifted left into 32 bits.  The
loop fills the buffer; when there is no space left it sleeps, and the output takes frames, or a
command stops the sink.  A round takes what fits, in bytes: what is free is one byte less than a
number of frames.

In the build for 32 bits there are 7 bytes left of the last frame.  Half of them is no number of
samples, and then one byte is free for ever.  In the one for 16 bits 3 bytes of a frame are
written, and nothing is wrong unless the handler gives up there.

Main result: `sinkDataHandler_iff`: the handler writes samples in their order, whole frames, and
returns, if and only if it does not come to an end of its patience in the one build, and does not
fill the buffer in the other.
-/
import SqueezeliteMuse.Gain
import SqueezeliteMuse.Lib.Loop

namespace SqueezeliteMuse

namespace Sink

/-! ### The code -/

/-- What is done while the handler sleeps: the output takes so many frames, as far as there are
any, and `BT_SINK_STOP`, `RAOP_FLUSH` or `RAOP_STOP` may come. -/
structure Pause where
  frames : ℕ
  stop : Bool

/-- The handler's variables; `out` are the bytes that left the buffer since it began. -/
structure State where
  outputbuf : Buffer
  data : List UInt8
  wait : ℕ
  abortSink : Bool
  out : List UInt8

/-- `*iptr++ << 16`, byte by byte -/
def widen : List UInt8 → List UInt8
  | lo :: hi :: bs => 0 :: 0 :: lo :: hi :: widen bs
  | _ => []

/-- What is stored for so many bytes of the data. -/
def samples : Build → List UInt8 → List UInt8
  | .s16, bs => bs
  | .s32, bs => widen bs

variable (w : Build)

/-- `bytes` -/
def passBytes (s : State) : ℕ :=
  min s.data.length
    (min (bufSpace s.outputbuf) (bufContWrite s.outputbuf) / (w.frameBytes / 4))

/-- One round, without what is done when there is no space. -/
def filled (s : State) : State :=
  { s with
    outputbuf :=
      bufIncWritep (bufStore s.outputbuf (samples w (s.data.take (passBytes w s))))
        (passBytes w s * w.frameBytes / 4)
    data := s.data.drop (passBytes w s) }

/-- The output takes frames. -/
def drained (frames : ℕ) (s : State) : State :=
  let n := min frames (bufUsed s.outputbuf / w.frameBytes) * w.frameBytes
  { s with
    outputbuf := bufIncReadp s.outputbuf n
    out := s.out ++ s.outputbuf.content.take n }

/-- The sink is stopped: `_buf_flush(outputbuf)`, `abort_sink = true` -/
def stopped (s : State) : State :=
  { s with
    outputbuf := bufFlushLocked s.outputbuf
    abortSink := true
    out := s.out ++ s.outputbuf.content }

/-- `wait--`, and a pause -/
def slept (p : Pause) (s : State) : State :=
  let s := drained w p.frames { s with wait := s.wait - 1 }
  if p.stop then stopped s else s

/-- A round of the loop; `pauses` are the pauses in their order. -/
def round (pauses : ℕ → Pause) (s : State) : State ⊕ State :=
  if s.data ≠ [] ∧ s.wait ≠ 0 ∧ s.abortSink = false then
    if (filled w s).data ≠ [] ∧ bufSpace (filled w s).outputbuf = 0 then
      .inr (slept w (pauses (5 - s.wait)) (filled w s))
    else .inr (filled w s)
  else .inl s

/-- `sink_data_handler`, with so many rounds; `external` is `output.external`. -/
def sinkDataHandler (external : Bool) (pauses : ℕ → Pause) (b : Buffer) (data : List UInt8)
    (fuel : ℕ) : Option State :=
  if external = false then some ⟨b, data, 5, false, []⟩
  else Loop.run (round w pauses) fuel ⟨b, data, 5, false, []⟩

/-! ### What it is for -/

/-- A prefix of the samples went to the buffer, behind what was there, all of them unless the
handler was stopped or slept five times or is not to write at all; frames are whole. -/
structure Written (external : Bool) (b : Buffer) (data : List UInt8) (s : State) : Prop where
  taken : ∃ n ≤ data.length, s.data = data.drop n ∧
    s.out ++ s.outputbuf.content = b.content ++ samples w (data.take n)
  all : s.data = [] ∨ s.abortSink = true ∨ s.wait = 0 ∨ external = false
  aligned : w.frameBytes ∣ s.outputbuf.writep - s.outputbuf.buf

/-- The handler returns, and has written the samples. -/
def Writes (external : Bool) (pauses : ℕ → Pause) (b : Buffer) (data : List UInt8) : Prop :=
  ∃ fuel s, sinkDataHandler w external pauses b data fuel = some s ∧ Written w external b data s

/-- The frames that the output takes from a full buffer. -/
def takenFrames (size : ℕ) (p : Pause) : ℕ := min p.frames (size / 4 - 1)

/-- What fits until the pause after the `k`th. -/
def room (pauses : ℕ → Pause) (b : Buffer) (k : ℕ) : ℕ :=
  bufSpace b + 4 * ((List.range k).map fun i => takenFrames b.size (pauses i)).sum

/-- The handler is stopped, or all fits before it gives up; with 32 bits, all fits at once. -/
def Fits (pauses : ℕ → Pause) (b : Buffer) (data : List UInt8) : Build → Prop
  | .s16 => (∃ i < 5, (pauses i).stop = true) ∨ data.length ≤ room pauses b 4
  | .s32 => 2 * data.length ≤ bufSpace b

/-- The buffer holds whole frames. -/
structure Aligned (b : Buffer) : Prop where
  wf : b.Wf
  size : w.frameBytes ∣ b.size
  readp : w.frameBytes ∣ b.readp - b.buf
  writep : w.frameBytes ∣ b.writep - b.buf

/-! ### A round -/

variable {w} {s : State} {pauses : ℕ → Pause} {b : Buffer} {data : List UInt8}

/-- What `writep` is moved by. -/
def advance (w : Build) (s : State) : ℕ := passBytes w s * w.frameBytes / 4

theorem advance_s16 (s : State) : advance .s16 s = passBytes .s16 s :=
  Nat.mul_div_cancel _ (by decide)

theorem advance_s32 (s : State) : advance .s32 s = 2 * passBytes .s32 s := by
  have h8 : passBytes .s32 s * Build.s32.frameBytes = 2 * passBytes .s32 s * 4 := by
    rw [show Build.s32.frameBytes = 8 from rfl]
    omega
  rw [advance, h8, Nat.mul_div_cancel _ (by decide)]

theorem passBytes_s16 (s : State) : passBytes .s16 s =
    min s.data.length (min (bufSpace s.outputbuf) (bufContWrite s.outputbuf)) := by
  rw [passBytes, show Build.s16.frameBytes / 4 = 1 from rfl, Nat.div_one]

theorem passBytes_s32 (s : State) : passBytes .s32 s =
    min s.data.length (min (bufSpace s.outputbuf) (bufContWrite s.outputbuf) / 2) := rfl

theorem advance_le (w : Build) (s : State) :
    advance w s ≤ min (bufSpace s.outputbuf) (bufContWrite s.outputbuf) := by
  cases w with
  | s16 =>
    rw [advance_s16, passBytes_s16]
    exact Nat.min_le_right _ _
  | s32 =>
    rw [advance_s32, passBytes_s32]
    omega

/-- Where the pointers are after a round, whatever was stored. -/
theorem filled_pointers (h : s.outputbuf.Wf) :
    (filled w s).outputbuf.Wf ∧
      bufUsed (filled w s).outputbuf = bufUsed s.outputbuf + advance w s ∧
      ((filled w s).outputbuf.writep - s.outputbuf.buf =
          s.outputbuf.writep - s.outputbuf.buf + advance w s ∨
        (filled w s).outputbuf.writep - s.outputbuf.buf + s.outputbuf.size =
          s.outputbuf.writep - s.outputbuf.buf + advance w s) := by
  have hle := advance_le w s
  have hspace := h.used_add_space
  have hsize : advance w s ≤ s.outputbuf.size := by omega
  have hlen : (List.replicate (advance w s) (0 : UInt8)).length = advance w s :=
    List.length_replicate
  have hwf := wf_bufAppend h (hlen.symm ▸ hle)
  have hused := used_bufAppend h (hlen.symm ▸ hle)
  rw [hlen] at hused hwf
  refine ⟨⟨hwf.1, hwf.2, hwf.3, hwf.4, hwf.5, hwf.6, hwf.7⟩, hused, ?_⟩
  exact (ptr_advance h.wrap_eq h.writep_ge h.writep_lt hsize).2.2

/-- Where the samples fill what `writep` is moved by, they are appended. -/
theorem filled_content (h : s.outputbuf.Wf)
    (hlen : (samples w (s.data.take (passBytes w s))).length = advance w s) :
    (filled w s).outputbuf.content =
      s.outputbuf.content ++ samples w (s.data.take (passBytes w s)) := by
  have hcontent := content_bufAppend h (hlen.symm ▸ advance_le w s)
  rw [hlen] at hcontent
  exact hcontent

theorem filled_size : (filled w s).outputbuf.size = s.outputbuf.size := rfl

theorem length_filled (w : Build) (s : State) :
    (filled w s).data.length = s.data.length - passBytes w s := List.length_drop

theorem round_stay (h : s.data ≠ [] ∧ s.wait ≠ 0 ∧ s.abortSink = false)
    (hspace : (filled w s).data = [] ∨ 0 < bufSpace (filled w s).outputbuf) :
    round w pauses s = .inr (filled w s) := by
  rw [round, if_pos h, if_neg]
  rintro ⟨hdata, hzero⟩
  rcases hspace with hnil | hpos
  · exact hdata hnil
  · exact absurd hzero (Nat.ne_of_gt hpos)

theorem round_sleep (h : s.data ≠ [] ∧ s.wait ≠ 0 ∧ s.abortSink = false)
    (hdata : (filled w s).data ≠ []) (hspace : bufSpace (filled w s).outputbuf = 0) :
    round w pauses s = .inr (slept w (pauses (5 - s.wait)) (filled w s)) := by
  rw [round, if_pos h, if_pos ⟨hdata, hspace⟩]

theorem slept_counts (w : Build) (p : Pause) (s : State) :
    (slept w p s).wait = s.wait - 1 ∧ (slept w p s).data = s.data := by
  rw [slept]
  split <;> exact ⟨rfl, rfl⟩

theorem round_end (h : ¬ (s.data ≠ [] ∧ s.wait ≠ 0 ∧ s.abortSink = false)) :
    round w pauses s = .inl s := if_neg h

/-! ### Samples of 32 bits -/

/-- What is free of an aligned buffer is 7 bytes more than some frames, and what is free in one
piece is frames. -/
theorem Aligned.free (h : Aligned .s32 b) :
    bufSpace b % 8 = 7 ∧ 8 ∣ bufContWrite b := by
  have hused := h.wf.used_add_space
  have hsize : 8 ∣ b.size := h.size
  have hread : 8 ∣ b.readp - b.buf := h.readp
  have hwrite : 8 ∣ b.writep - b.buf := h.writep
  obtain ⟨_, _, _, _, _, _, _⟩ := h.wf
  unfold bufUsed at hused
  unfold bufContWrite
  constructor
  · split at hused <;> omega
  · split <;> omega

theorem Aligned.space_mod (h : Aligned .s16 b) : bufSpace b % 4 = 3 := by
  have hused := h.wf.used_add_space
  have hsize : 4 ∣ b.size := h.size
  have hread : 4 ∣ b.readp - b.buf := h.readp
  have hwrite : 4 ∣ b.writep - b.buf := h.writep
  obtain ⟨_, _, _, _, _, _, _⟩ := h.wf
  unfold bufUsed at hused
  split at hused <;> omega

theorem length_widen (bs : List UInt8) (h : 2 ∣ bs.length) : (widen bs).length = 2 * bs.length := by
  induction bs using widen.induct with
  | case1 lo hi bs ih =>
    have h' : 2 ∣ bs.length := by
      simp only [List.length_cons] at h
      omega
    simp only [widen, List.length_cons, ih h']
    omega
  | case2 bs hshort =>
    match bs with
    | [] => rfl
    | [_] =>
      rw [List.length_singleton] at h
      omega
    | lo :: hi :: bs => exact (hshort lo hi bs rfl).elim

theorem widen_append (bs bs' : List UInt8) (h : 2 ∣ bs.length) :
    widen (bs ++ bs') = widen bs ++ widen bs' := by
  induction bs using widen.induct with
  | case1 lo hi bs ih =>
    have h' : 2 ∣ bs.length := by
      simp only [List.length_cons] at h
      omega
    simp only [List.cons_append, widen, ih h']
  | case2 bs hshort =>
    match bs with
    | [] => rfl
    | [_] =>
      rw [List.length_singleton] at h
      omega
    | lo :: hi :: bs => exact (hshort lo hi bs rfl).elim

/-- The handler goes round, with half of what is free as nothing. -/
structure Spins (s : State) : Prop where
  wf : s.outputbuf.Wf
  data : s.data ≠ []
  wait : s.wait ≠ 0
  running : s.abortSink = false
  space : bufSpace s.outputbuf = 1

theorem Spins.round (h : Spins s) : round .s32 pauses s = .inr s := by
  have hnone : passBytes .s32 s = 0 := by
    rw [passBytes_s32, h.space]
    omega
  have hsame : filled .s32 s = s := by
    have hlt := h.wf.writep_lt
    have hstep : ¬ s.outputbuf.writep + 0 ≥ s.outputbuf.wrap := by omega
    rw [filled, hnone]
    simp only [List.take_zero, samples, widen, bufStore, Ring.write_nil, bufIncWritep, Nat.zero_mul,
      Nat.zero_div, if_neg hstep, List.drop_zero]
    rfl
  rw [round_stay ⟨h.data, h.wait, h.running⟩ (.inr ?_), hsame]
  rw [hsame, h.space]
  decide

/-- There is more than what fits. -/
structure Overfull (s : State) : Prop where
  aligned : Aligned .s32 s.outputbuf
  data : bufSpace s.outputbuf < 2 * s.data.length
  wait : s.wait ≠ 0
  running : s.abortSink = false

theorem Overfull.round (h : Overfull s) :
    ∃ s', round .s32 pauses s = .inr s' ∧ (Spins s' ∨ Overfull s') := by
  obtain ⟨hfree, hcont⟩ := h.aligned.free
  have hne : s.data ≠ [] := by
    rintro hnil
    have hlen := h.data
    rw [hnil, List.length_nil] at hlen
    omega
  obtain ⟨hwf, hused, hptr⟩ := filled_pointers (w := .s32) h.aligned.wf
  have hspace := h.aligned.wf.used_add_space
  have hspace' := hwf.used_add_space
  rw [filled_size, hused] at hspace'
  have hlen := length_filled .s32 s
  have hdata := h.data
  rw [advance_s32] at hused hptr hspace'
  have hbytes := passBytes_s32 s
  refine ⟨filled .s32 s, round_stay ⟨hne, h.wait, h.running⟩ (.inr (by omega)), ?_⟩
  by_cases hlast : bufSpace s.outputbuf ≤ bufContWrite s.outputbuf
  · refine .inl ⟨hwf, ?_, h.wait, h.running, by omega⟩
    exact List.ne_nil_of_length_pos (by omega)
  · -- up to the end of the buffer, and whole frames
    refine .inr ⟨⟨hwf, h.aligned.size, h.aligned.readp, ?_⟩, by omega, h.wait, h.running⟩
    have hsize : 8 ∣ s.outputbuf.size := h.aligned.size
    have hwrite : 8 ∣ s.outputbuf.writep - s.outputbuf.buf := h.aligned.writep
    show 8 ∣ (filled .s32 s).outputbuf.writep - s.outputbuf.buf
    omega

theorem overfull_run (h : Overfull s) (fuel : ℕ) :
    Loop.run (round .s32 pauses) fuel s = none := by
  refine Loop.run_trapped (P := fun s => Spins s ∨ Overfull s) ?_ fuel (.inr h)
  rintro s (hspin | hover)
  · exact ⟨s, hspin.round, .inl hspin⟩
  · exact hover.round

/-- All that is left fits. -/
structure Fitting (b : Buffer) (data : List UInt8) (s : State) : Prop where
  aligned : Aligned .s32 s.outputbuf
  space : 2 * s.data.length ≤ bufSpace s.outputbuf
  whole : 4 ∣ s.data.length
  wait : s.wait ≠ 0
  running : s.abortSink = false
  taken : ∃ n ≤ data.length, 4 ∣ n ∧ s.data = data.drop n ∧
    s.out ++ s.outputbuf.content = b.content ++ samples .s32 (data.take n)

theorem Fitting.round (h : Fitting b data s) (hne : s.data ≠ []) :
    round .s32 pauses s = .inr (filled .s32 s) ∧ Fitting b data (filled .s32 s) ∧
      (filled .s32 s).data.length < s.data.length := by
  obtain ⟨hfree, hcont⟩ := h.aligned.free
  have hpos := h.aligned.wf.contWrite_pos
  obtain ⟨hwf, hused, hptr⟩ := filled_pointers (w := .s32) h.aligned.wf
  have hspace := h.aligned.wf.used_add_space
  have hspace' := hwf.used_add_space
  rw [filled_size, hused] at hspace'
  have hlen := length_filled .s32 s
  have hdata := h.space
  have hwhole := h.whole
  have hlenpos := List.length_pos_iff.mpr hne
  have hadvance := advance_s32 s
  rw [hadvance] at hused hptr hspace'
  have hbytes := passBytes_s32 s
  have hdvd : 4 ∣ passBytes .s32 s := by omega
  have htake : (s.data.take (passBytes .s32 s)).length = passBytes .s32 s := by
    rw [List.length_take]
    omega
  have hfill : (filled .s32 s).data = [] ∨ 0 < bufSpace (filled .s32 s).outputbuf := by
    by_cases hlast : (filled .s32 s).data.length = 0
    · exact .inl (List.eq_nil_of_length_eq_zero hlast)
    · exact .inr (by omega)
  refine ⟨round_stay ⟨hne, h.wait, h.running⟩ hfill, ?_, by omega⟩
  obtain ⟨n, hn, hn4, hdrop, hcontent⟩ := h.taken
  have hrest : s.data.length = data.length - n := by rw [hdrop, List.length_drop]
  refine ⟨⟨hwf, h.aligned.size, h.aligned.readp, ?_⟩, by omega, by omega, h.wait, h.running,
    n + passBytes .s32 s, by omega, by omega, ?_, ?_⟩
  · have hsize : 8 ∣ s.outputbuf.size := h.aligned.size
    have hwrite : 8 ∣ s.outputbuf.writep - s.outputbuf.buf := h.aligned.writep
    show 8 ∣ (filled .s32 s).outputbuf.writep - s.outputbuf.buf
    omega
  · show s.data.drop _ = _
    rw [hdrop, List.drop_drop]
  · have hsamples : (samples .s32 (s.data.take (passBytes .s32 s))).length = advance .s32 s := by
      show (widen _).length = _
      rw [length_widen _ (by omega), htake, hadvance]
    show s.out ++ (filled .s32 s).outputbuf.content = _
    rw [filled_content h.aligned.wf hsamples, ← List.append_assoc, hcontent, List.append_assoc,
      List.take_add, hdrop]
    congr 1
    exact (widen_append _ _ (by rw [List.length_take]; omega)).symm

/-- With 32 bits the handler writes what fits at once, and never returns otherwise. -/
theorem writes_s32_iff (h : Aligned .s32 b) (hdata : 4 ∣ data.length) :
    Writes .s32 true pauses b data ↔ 2 * data.length ≤ bufSpace b := by
  constructor
  · rintro ⟨fuel, s, hrun, -⟩
    by_contra hover
    rw [sinkDataHandler, if_neg (by decide),
      overfull_run ⟨h, Nat.lt_of_not_le hover, Nat.succ_ne_zero 4, rfl⟩] at hrun
    cases hrun
  · intro hfit
    have hstart : Fitting b data ⟨b, data, 5, false, []⟩ :=
      ⟨h, hfit, hdata, Nat.succ_ne_zero 4, rfl, 0, Nat.zero_le _, Nat.dvd_zero 4, rfl,
        (List.append_nil _).symm⟩
    have hstep : ∀ s, Fitting b data s → (∃ r, round .s32 pauses s = .inl r) ∨
        ∃ s', round .s32 pauses s = .inr s' ∧ Fitting b data s' ∧
          s'.data.length < s.data.length := by
      intro s hs
      by_cases hnil : s.data = []
      · exact .inl ⟨s, round_end fun h => h.1 hnil⟩
      · exact .inr ⟨_, hs.round hnil⟩
    obtain ⟨fuel, r, s, hrun, hs, hend⟩ := Loop.run_ends _ hstep hstart
    have hnil : s.data = [] := by
      by_contra hne
      rw [(hs.round hne).1] at hend
      cases hend
    rw [round_end fun h => h.1 hnil] at hend
    cases hend
    obtain ⟨n, hn, -, hdrop, hcontent⟩ := hs.taken
    exact ⟨fuel, _, hrun, ⟨n, hn, hdrop, hcontent⟩, .inl hnil, hs.aligned.writep⟩

/-! ### Samples of 16 bits -/

/-- At the head of a round. -/
structure Inv (pauses : ℕ → Pause) (b : Buffer) (data : List UInt8) (s : State) : Prop where
  wf : s.outputbuf.Wf
  size : s.outputbuf.size = b.size
  wait : s.wait ≤ 5
  taken : ∃ n ≤ data.length, s.data = data.drop n ∧
    s.out ++ s.outputbuf.content = b.content ++ data.take n
  running : s.abortSink = false →
    4 ∣ s.outputbuf.writep - s.outputbuf.buf + s.data.length ∧
      (∀ i < 5 - s.wait, (pauses i).stop = false) ∧
      data.length - s.data.length + bufSpace s.outputbuf = room pauses b (5 - s.wait)
  aborted : s.abortSink = true →
    4 ∣ s.outputbuf.writep - s.outputbuf.buf ∧ ∃ i < 5, (pauses i).stop = true
  last : s.wait = 0 → s.abortSink = false →
    s.data ≠ [] ∧ data.length - s.data.length = room pauses b 4

theorem room_succ (pauses : ℕ → Pause) (b : Buffer) (k : ℕ) :
    room pauses b (k + 1) = room pauses b k + 4 * takenFrames b.size (pauses k) := by
  rw [room, room, List.range_succ, List.map_append, List.sum_append, List.map_singleton,
    List.sum_singleton, Nat.mul_add, Nat.add_assoc]

theorem room_mono (pauses : ℕ → Pause) (b : Buffer) {k n : ℕ} (h : k ≤ n) :
    room pauses b k ≤ room pauses b n := by
  induction n, h using Nat.le_induction with
  | base => exact Nat.le_refl _
  | succ n _ ih =>
    rw [room_succ]
    exact Nat.le_trans ih (Nat.le_add_right _ _)

/-- A round takes what fits. -/
theorem Inv.filled (h : Inv pauses b data s) (hsize : 4 ∣ b.size) (hwait : s.wait ≠ 0)
    (hrun : s.abortSink = false) : Inv pauses b data (filled .s16 s) := by
  obtain ⟨hwf, hused, hptr⟩ := filled_pointers (w := .s16) h.wf
  have hspace := h.wf.used_add_space
  have hspace' := hwf.used_add_space
  rw [filled_size, hused] at hspace'
  have hlen := length_filled .s16 s
  have hbytes := passBytes_s16 s
  rw [advance_s16] at hused hptr hspace'
  obtain ⟨hwhole, hstops, hroom⟩ := h.running hrun
  have hsize' := h.size
  obtain ⟨n, hn, hdrop, hcontent⟩ := h.taken
  have hrest : s.data.length = data.length - n := by rw [hdrop, List.length_drop]
  have htake : (s.data.take (passBytes .s16 s)).length = advance .s16 s := by
    rw [List.length_take, advance_s16]
    omega
  refine ⟨hwf, hsize', h.wait, ⟨n + passBytes .s16 s, by omega, ?_, ?_⟩, fun _ => ⟨?_, hstops, ?_⟩,
    fun habort => absurd (hrun.symm.trans habort) (by decide), fun hzero => absurd hzero hwait⟩
  · show s.data.drop _ = _
    rw [hdrop, List.drop_drop]
  · show s.out ++ (Sink.filled .s16 s).outputbuf.content = _
    rw [filled_content (w := .s16) h.wf htake, ← List.append_assoc, hcontent, List.append_assoc,
      List.take_add, hdrop]
    rfl
  · show 4 ∣ (Sink.filled .s16 s).outputbuf.writep - s.outputbuf.buf +
      (Sink.filled .s16 s).data.length
    omega
  · show _ = room pauses b (5 - s.wait)
    omega

/-- The output takes frames of a full buffer: what is left of it is a byte less. -/
theorem drained_full (h : s.outputbuf.Wf) (hsize : 4 ∣ s.outputbuf.size)
    (hfull : bufSpace s.outputbuf = 0) (p : Pause) :
    takenFrames s.outputbuf.size p * 4 ≤ bufUsed s.outputbuf ∧
      drained .s16 p.frames s =
        { s with
          outputbuf := bufIncReadp s.outputbuf (takenFrames s.outputbuf.size p * 4)
          out := s.out ++ s.outputbuf.content.take (takenFrames s.outputbuf.size p * 4) } := by
  have hspace := h.used_add_space
  have hframes : min p.frames (bufUsed s.outputbuf / 4) = takenFrames s.outputbuf.size p := by
    rw [takenFrames, show bufUsed s.outputbuf / 4 = s.outputbuf.size / 4 - 1 by omega]
  rw [← hframes]
  exact ⟨by omega, rfl⟩

/-- A pause, and what it may bring. -/
theorem Inv.slept (h : Inv pauses b data s) (hsize : 4 ∣ b.size) (hwait : s.wait ≠ 0)
    (hrun : s.abortSink = false) (hdata : s.data ≠ []) (hfull : bufSpace s.outputbuf = 0) :
    Inv pauses b data (slept .s16 (pauses (5 - s.wait)) s) := by
  obtain ⟨hwhole, hstops, hroom⟩ := h.running hrun
  have hspace := h.wf.used_add_space
  have hle := h.wait
  set p := pauses (5 - s.wait) with hp
  obtain ⟨hnle, hdrained⟩ := drained_full (s := { s with wait := s.wait - 1 }) h.wf
    (h.size.symm ▸ hsize) hfull p
  rw [Sink.slept, hdrained]
  simp only [h.size] at hnle ⊢
  have hn4 : 4 ∣ takenFrames b.size p * 4 := Nat.dvd_mul_left _ _
  have hn : takenFrames b.size p * 4 = 4 * takenFrames b.size p := Nat.mul_comm _ _
  generalize takenFrames b.size p * 4 = n at hnle hn hn4 ⊢
  have hwf : (bufIncReadp s.outputbuf n).Wf := wf_bufIncReadp h.wf (by omega)
  have hused := used_bufIncReadp h.wf hnle
  have hspace' := hwf.used_add_space
  have htaken : ∃ m ≤ data.length, s.data = data.drop m ∧
      s.out ++ s.outputbuf.content.take n ++ (bufIncReadp s.outputbuf n).content =
        b.content ++ data.take m := by
    obtain ⟨m, hm, hdrop, hall⟩ := h.taken
    refine ⟨m, hm, hdrop, ?_⟩
    rw [content_bufIncReadp h.wf hnle, List.append_assoc, List.take_append_drop, hall]
  have hk : 5 - (s.wait - 1) = 5 - s.wait + 1 := by omega
  cases hstop : p.stop with
  | true =>
    obtain ⟨m, hm, hdrop, hall⟩ := htaken
    refine ⟨wf_bufFlush hwf, h.size, Nat.le_trans (Nat.sub_le _ _) hle, ⟨m, hm, hdrop, ?_⟩,
      fun hno => Bool.noConfusion hno, fun _ => ⟨?_, 5 - s.wait, by omega, hp ▸ hstop⟩,
      fun _ hno => Bool.noConfusion hno⟩
    · show _ ++ (bufFlush (bufIncReadp s.outputbuf n)).content = _
      rw [content_bufFlush, List.append_nil]
      exact hall
    · show 4 ∣ s.outputbuf.buf - s.outputbuf.buf
      rw [Nat.sub_self]
      exact Nat.dvd_zero 4
  | false =>
    refine ⟨hwf, h.size, Nat.le_trans (Nat.sub_le _ _) hle, htaken, fun _ => ⟨hwhole, ?_, ?_⟩,
      fun habort => absurd (hrun.symm.trans habort) (by decide), fun hzero _ => ⟨hdata, ?_⟩⟩
    · intro i hi
      have hi' : i < 5 - (s.wait - 1) := hi
      rw [hk] at hi'
      rcases Nat.lt_succ_iff_lt_or_eq.mp hi' with hlt | rfl
      · exact hstops i hlt
      · exact hstop
    · show data.length - s.data.length + bufSpace (bufIncReadp s.outputbuf n) =
        room pauses b (5 - (s.wait - 1))
      rw [hk, room_succ, ← hp]
      have hsame : (bufIncReadp s.outputbuf n).size = s.outputbuf.size := rfl
      omega
    · show data.length - s.data.length = room pauses b 4
      have hone : 5 - s.wait = 4 := by
        have hzero' : s.wait - 1 = 0 := hzero
        omega
      rw [← hone, ← hroom, hfull, Nat.add_zero]

theorem Inv.start (h : b.Wf) (hw : 4 ∣ b.writep - b.buf) (hdata : 4 ∣ data.length) :
    Inv pauses b data ⟨b, data, 5, false, []⟩ := by
  refine ⟨h, rfl, Nat.le_refl _, ⟨0, Nat.zero_le _, rfl, (List.append_nil _).symm⟩,
    fun _ => ⟨Nat.dvd_add hw hdata, fun i hi => ?_, ?_⟩, fun hno => (Bool.false_ne_true hno).elim,
    fun hno => absurd hno (Nat.succ_ne_zero 4)⟩
  · exact absurd hi (Nat.not_lt_zero i)
  · show data.length - data.length + bufSpace b = room pauses b 0
    rw [Nat.sub_self, Nat.zero_add]
    rfl

/-- A round takes something, or a pause is used up. -/
theorem Inv.round (h : Inv pauses b data s) (hsize : 4 ∣ b.size)
    (hgo : s.data ≠ [] ∧ s.wait ≠ 0 ∧ s.abortSink = false) :
    ∃ s', round .s16 pauses s = .inr s' ∧ Inv pauses b data s' ∧
      s'.wait * (data.length + 1) + s'.data.length <
        s.wait * (data.length + 1) + s.data.length := by
  obtain ⟨hdata, hwait, hrun⟩ := hgo
  have hfilled := h.filled hsize hwait hrun
  have hlen := length_filled .s16 s
  by_cases hfull : (Sink.filled .s16 s).data ≠ [] ∧ bufSpace (Sink.filled .s16 s).outputbuf = 0
  · refine ⟨_, round_sleep ⟨hdata, hwait, hrun⟩ hfull.1 hfull.2,
      hfilled.slept hsize hwait hrun hfull.1 hfull.2, ?_⟩
    obtain ⟨k, hk⟩ := Nat.exists_eq_succ_of_ne_zero hwait
    obtain ⟨hwait', hdata'⟩ := slept_counts .s16 (pauses (5 - s.wait)) (Sink.filled .s16 s)
    have hsame : (Sink.filled .s16 s).wait = s.wait := rfl
    rw [hwait', hdata', hsame, hk, Nat.succ_sub_one, Nat.succ_mul]
    omega
  · have hstay : (Sink.filled .s16 s).data = [] ∨ 0 < bufSpace (Sink.filled .s16 s).outputbuf := by
      by_contra hno
      rw [not_or] at hno
      exact hfull ⟨hno.1, Nat.eq_zero_of_not_pos hno.2⟩
    refine ⟨_, round_stay ⟨hdata, hwait, hrun⟩ hstay, hfilled, ?_⟩
    -- where nothing fits, there is nothing free afterwards
    have hpos : 0 < passBytes .s16 s := by
      have hlenpos := List.length_pos_iff.mpr hdata
      have hcont := h.wf.contWrite_pos
      obtain ⟨hwf, hused, -⟩ := filled_pointers (w := .s16) h.wf
      have hspace := h.wf.used_add_space
      have hspace' := hwf.used_add_space
      rw [filled_size, hused, advance_s16] at hspace'
      have hbytes := passBytes_s16 s
      rcases hstay with hnil | hfree
      · rw [hnil, List.length_nil] at hlen
        omega
      · omega
    have hlenpos := List.length_pos_iff.mpr hdata
    have hsame : (Sink.filled .s16 s).wait = s.wait := rfl
    rw [hsame]
    omega

/-- With 16 bits the handler returns, and frames are whole unless it gave up. -/
theorem writes_s16_iff (h : Aligned .s16 b) (hdata : 4 ∣ data.length) :
    Writes .s16 true pauses b data ↔ Fits pauses b data .s16 := by
  have hstep : ∀ s, Inv pauses b data s → (∃ r, round .s16 pauses s = .inl r) ∨
      ∃ s', round .s16 pauses s = .inr s' ∧ Inv pauses b data s' ∧
        s'.wait * (data.length + 1) + s'.data.length <
          s.wait * (data.length + 1) + s.data.length := by
    intro s hs
    by_cases hgo : s.data ≠ [] ∧ s.wait ≠ 0 ∧ s.abortSink = false
    · exact .inr (hs.round h.size hgo)
    · exact .inl ⟨s, round_end hgo⟩
  obtain ⟨fuel, r, s, hrun, hs, hend⟩ := Loop.run_ends
    (fun s : State => s.wait * (data.length + 1) + s.data.length) hstep
    (Inv.start h.wf h.writep hdata)
  have hstop : ¬ (s.data ≠ [] ∧ s.wait ≠ 0 ∧ s.abortSink = false) := by
    intro hgo
    obtain ⟨s', hs', -⟩ := hs.round h.size hgo
    cases hs'.symm.trans hend
  obtain rfl : s = r := Sum.inl.inj ((round_end hstop).symm.trans hend)
  have hwrites : Writes .s16 true pauses b data ↔ Written .s16 true b data s := by
    constructor
    · rintro ⟨fuel', s', hrun', hs'⟩
      rw [sinkDataHandler, if_neg (by decide)] at hrun'
      exact Loop.run_unique hrun hrun' ▸ hs'
    · exact fun hwritten => ⟨fuel, s, (if_neg (by decide)).trans hrun, hwritten⟩
  rw [hwrites]
  cases habort : s.abortSink with
  | true =>
    obtain ⟨haligned, hpause⟩ := hs.aborted habort
    exact iff_of_true ⟨hs.taken, .inr (.inl habort), haligned⟩ (.inl hpause)
  | false =>
    obtain ⟨hwhole, hstops, hroom⟩ := hs.running habort
    by_cases hnil : s.data = []
    · -- all is written
      rw [hnil, List.length_nil] at hwhole hroom
      refine iff_of_true ⟨hs.taken, .inl hnil, hwhole⟩ (.inr ?_)
      have hwait : s.wait ≠ 0 := fun hzero => (hs.last hzero habort).1 hnil
      have hmono := room_mono pauses b (show 5 - s.wait ≤ 4 by omega)
      omega
    · -- it gave up, in a frame
      have hzero : s.wait = 0 := by
        by_contra hwait
        exact hstop ⟨hnil, hwait, habort⟩
      obtain ⟨-, hlast⟩ := hs.last hzero habort
      have hlenpos := List.length_pos_iff.mpr hnil
      obtain ⟨n, hn, hdrop, -⟩ := hs.taken
      have hrest : s.data.length = data.length - n := by rw [hdrop, List.length_drop]
      refine iff_of_false ?_ ?_
      · rintro ⟨-, -, haligned⟩
        have hwrite : 4 ∣ s.outputbuf.writep - s.outputbuf.buf := haligned
        have hfree := h.space_mod
        rw [room] at hlast
        omega
      · rintro (⟨i, hi, hpause⟩ | hle)
        · rw [hzero] at hstops
          exact absurd ((hstops i hi).symm.trans hpause) (by decide)
        · omega

/-- The handler returns, having written samples in their order and whole frames, if and only if
the sink is not in use; or, with samples of 16 bits, it is stopped or all fits before its fifth
pause; or, with samples of 32 bits, all fits without a pause. -/
theorem sinkDataHandler_iff (w : Build) (external : Bool) (pauses : ℕ → Pause) (b : Buffer)
    (data : List UInt8) (hb : Aligned w b) (hdata : 4 ∣ data.length) :
    Writes w external pauses b data ↔ external = false ∨ Fits pauses b data w := by
  cases external with
  | false =>
    refine iff_of_true ⟨0, _, if_pos rfl, ⟨0, Nat.zero_le _, rfl, ?_⟩, .inr (.inr (.inr rfl)),
      hb.writep⟩ (.inl rfl)
    have hnone : samples w (data.take 0) = [] := by cases w <;> rfl
    rw [hnone]
    exact (List.append_nil _).symm
  | true =>
    rw [or_iff_right (by decide)]
    cases w with
    | s16 => exact writes_s16_iff hb hdata
    | s32 => exact writes_s32_iff hb hdata

/-- A buffer of sixteen bytes, in each build. -/
theorem aligned_bufInit (w : Build) : Aligned w (bufInit ⟨0, fun _ => 0⟩ 16) := by
  refine ⟨wf_bufInit _ (by decide), ?_, ?_, ?_⟩ <;> cases w <;> decide

/-- One sample for each side fits. -/
theorem sinkDataHandler_frame :
    Writes .s32 true (fun _ => ⟨0, false⟩) (bufInit ⟨0, fun _ => 0⟩ 16) [1, 2, 3, 4] :=
  (sinkDataHandler_iff .s32 true _ _ _ (aligned_bufInit .s32) (by decide)).mpr
    (.inr (show 2 * 4 ≤ 15 by decide))

/-- Two frames for a buffer of two: one byte is left free, and the handler goes round with it. -/
theorem sinkDataHandler_spins :
    ¬ Writes .s32 true (fun _ => ⟨0, false⟩) (bufInit ⟨0, fun _ => 0⟩ 16)
      [1, 2, 3, 4, 5, 6, 7, 8] := by
  rintro ⟨fuel, s, hrun, -⟩
  rw [sinkDataHandler, if_neg (by decide),
    overfull_run ⟨aligned_bufInit .s32, by decide, by decide, rfl⟩] at hrun
  cases hrun

end Sink

end SqueezeliteMuse
