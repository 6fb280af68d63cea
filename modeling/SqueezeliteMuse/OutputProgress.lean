/-
SqueezeliteMuse/OutputProgress.lean

What a call of `_output_frames` accounts for, and that the output gets on.

While the pointers of the output are a whole number of frames apart, a call
with something to play and a `write_cb` that writes what it is given plays a
frame, signals a track start, or goes into the pause before one.  The pauses
come to an end: `Output.waits` counts the calls that may pass until a frame is
taken.

The pointers are set by the decoder, which puts whole frames into `outputbuf`,
and by `_checkfade`.  A crossfade takes no more than 90% of `outputbuf`, and
these are bytes, not frames: then `track_start` and `fade_start` are between two
frames, and are never reached.  `onGrid` is the condition that this does not
happen.

Main result: `output_progresses`, with `output_stalls` for a crossfade that is
cut to 921 bytes.
-/
import SqueezeliteMuse.OutputAccount

namespace SqueezeliteMuse

open Runs (total)

/-! ### What is to be -/

/-- What a call of `_output_frames` accounts for. -/
structure Accounted (toGain : ℕ → ℕ → ℤ) (s : Output) (avail now : ℕ) (answers : ℕ → ℤ) :
    Prop where
  /-- it returns no more than there is room for -/
  atMost : (s.outputFrames toGain avail now answers).2.1 ≤ avail
  /-- it returns the frames that were given to `write_cb` -/
  accepted : (s.outputFrames toGain avail now answers).2.1 =
    total OutputObs.given (s.outputFrames toGain avail now answers).2.2
  /-- `readp` moves by what is taken out -/
  taken : (s.outputFrames toGain avail now answers).1.outputbuf =
    s.outputbuf.taken (total OutputObs.bytes (s.outputFrames toGain avail now answers).2.2)
  /-- what is taken out is played, or skipped ahead, or skipped at the end of a crossfade -/
  bytes : ∃ n, total OutputObs.bytes (s.outputFrames toGain avail now answers).2.2 =
      (total OutputObs.loud (s.outputFrames toGain avail now answers).2.2 +
        s.skipCount (bufUsed s.outputbuf / BYTES_PER_FRAME)) * BYTES_PER_FRAME + n ∧
    CrossSkip s (s.outputFrames toGain avail now answers).1 n
  /-- where silence is written, nothing is taken out but what was skipped ahead -/
  silence : total OutputObs.loud (s.outputFrames toGain avail now answers).2.2 <
      total OutputObs.given (s.outputFrames toGain avail now answers).2.2 →
    total OutputObs.bytes (s.outputFrames toGain avail now answers).2.2 =
      s.skipCount (bufUsed s.outputbuf / BYTES_PER_FRAME) * BYTES_PER_FRAME

/-- A track start is signalled. -/
def OutputObs.isSignal : OutputObs → Bool
  | .signal .. => true
  | _ => false

/-- A call gets on: it takes out a frame, signals a track start, or changes the state. -/
def GetsOn (toGain : ℕ → ℕ → ℤ) (s : Output) (avail now : ℕ) (answers : ℕ → ℤ) : Prop :=
  BYTES_PER_FRAME ≤ total OutputObs.bytes (s.outputFrames toGain avail now answers).2.2 ∨
    (∃ o ∈ (s.outputFrames toGain avail now answers).2.2, o.isSignal = true) ∨
    (s.outputFrames toGain avail now answers).1.state ≠ s.state ∨
    (s.outputFrames toGain avail now answers).1.fade ≠ s.fade

/-- `write_cb` writes what it is given, where there is room for `avail` frames. -/
def Accepts (avail : ℕ) (answers : ℕ → ℤ) : Prop := ∀ i, (avail : ℤ) ≤ answers i

/-- A call with room for a frame. -/
def PlayCall : OutputEvent → Prop
  | .frames avail _ answers => 0 < avail ∧ Accepts avail answers
  | _ => False

/-- What is to be of every state of the output. -/
structure Progresses (toGain : ℕ → ℕ → ℤ) (s : Output) : Prop where
  trackStart : ∀ p, s.trackStart = some p → (BYTES_PER_FRAME : ℤ) ∣ p - s.outputbuf.readp
  fadeStart : s.fade ≠ .inactive → (BYTES_PER_FRAME : ℤ) ∣ s.fadeStart - s.outputbuf.readp
  fadeEnd : s.fade ≠ .inactive → (BYTES_PER_FRAME : ℤ) ∣ s.fadeEnd - s.outputbuf.readp
  accounted : ∀ avail now answers, Accepts avail answers → Accounted toGain s avail now answers
  getsOn : ∀ avail now answers, Accepts avail answers → 0 < avail → s.state = .running →
    bufUsed s.outputbuf ≠ 0 → GetsOn toGain s avail now answers
  /-- calls and nothing else do not go on for ever without a frame -/
  plays : s.state = .running → bufUsed s.outputbuf ≠ 0 → ∃ n, ∀ evs, (∀ e ∈ evs, PlayCall e) →
    n < evs.length → 0 < total OutputObs.bytes ((outputMachine toGain).run s evs).2

variable {s s' : Output} {toGain : ℕ → ℕ → ℤ}

/-! ### Up to the loop -/

/-- Skip ahead takes the frames it is to skip, a piece at a time. -/
theorem skipLoop_took (fuel : ℕ) {skip : ℕ} (h : Grid s) (hfuel : skip ≤ fuel)
    (hle : skip * BYTES_PER_FRAME ≤ bufUsed s.outputbuf) :
    total OutputObs.bytes (skipLoop fuel skip s.outputbuf).2 = skip * BYTES_PER_FRAME ∧
      total OutputObs.given (skipLoop fuel skip s.outputbuf).2 = 0 ∧
      total OutputObs.loud (skipLoop fuel skip s.outputbuf).2 = 0 ∧
      (skipLoop fuel skip s.outputbuf).1 = s.outputbuf.taken (skip * BYTES_PER_FRAME) := by
  induction fuel generalizing s skip with
  | zero =>
      obtain rfl : skip = 0 := Nat.le_zero.mp hfuel
      rw [Nat.zero_mul, Buffer.taken_zero h.wf]
      exact ⟨rfl, rfl, rfl, rfl⟩
  | succ fuel ih =>
      rw [skipLoop]
      split
      · rename_i hzero
        rw [hzero, Nat.zero_mul, Buffer.taken_zero h.wf]
        exact ⟨rfl, rfl, rfl, rfl⟩
      · rename_i hskip
        have hused : bufUsed s.outputbuf ≠ 0 := by
          simp only [BYTES_PER_FRAME] at hle
          omega
        -- each piece is a frame at least
        have hpiece := h.contRead_pos hused
        obtain ⟨cont, hcont⟩ : ∃ cont, min skip (bufContRead s.outputbuf / BYTES_PER_FRAME) = cont :=
          ⟨_, rfl⟩
        have hpos : 0 < cont := hcont ▸ Nat.lt_min.mpr ⟨Nat.pos_of_ne_zero hskip, hpiece⟩
        have hcs : cont ≤ skip := hcont ▸ Nat.min_le_left _ _
        have hmul := Nat.mul_le_mul_right BYTES_PER_FRAME hcs
        have hsize : cont * BYTES_PER_FRAME ≤ s.outputbuf.size := by
          have hlt := h.wf.used_lt
          omega
        have hbuf := Buffer.bufIncReadp_eq h.wf hsize
        have hgrid : Grid (s.advance (cont * BYTES_PER_FRAME)) :=
          h.moved (Nat.dvd_mul_left _ _) hbuf h.trackStart h.fadeStart h.fadeEnd
        have hrest : (skip - cont) * BYTES_PER_FRAME ≤
            bufUsed (s.advance (cont * BYTES_PER_FRAME)).outputbuf := by
          show _ ≤ bufUsed (bufIncReadp s.outputbuf (cont * BYTES_PER_FRAME))
          rw [used_bufIncReadp h.wf (by omega), Nat.sub_mul]
          omega
        obtain ⟨hbytes, hgiven, hloud, hend⟩ := ih hgrid (by omega) hrest
        have hsum : cont * BYTES_PER_FRAME + (skip - cont) * BYTES_PER_FRAME =
            skip * BYTES_PER_FRAME := by
          rw [← Nat.add_mul, Nat.add_sub_cancel' hcs]
        simp only [hcont, Runs.total_cons]
        refine ⟨?_, ?_, ?_, ?_⟩
        · rw [← hsum]
          exact congrArg _ hbytes
        · exact (Nat.zero_add _).trans hgiven
        · exact (Nat.zero_add _).trans hloud
        · refine hend.trans ?_
          show (bufIncReadp s.outputbuf _).taken _ = _
          rw [hbuf, Buffer.taken_taken, hsum]

/-- Two states that do not differ in the track start and the fade. -/
structure SameMarks (s s' : Output) : Prop where
  trackStart : s'.trackStart = s.trackStart
  fade : s'.fade = s.fade
  fadeMode : s'.fadeMode = s.fadeMode
  fadeStart : s'.fadeStart = s.fadeStart
  fadeEnd : s'.fadeEnd = s.fadeEnd

theorem SameMarks.trans {s₁ s₂ s₃ : Output} (h : SameMarks s₁ s₂) (h' : SameMarks s₂ s₃) :
    SameMarks s₁ s₃ :=
  ⟨h'.trackStart.trans h.trackStart, h'.fade.trans h.fade, h'.fadeMode.trans h.fadeMode,
    h'.fadeStart.trans h.fadeStart, h'.fadeEnd.trans h.fadeEnd⟩

theorem marks_startBuffer (s : Output) (frames : ℕ) : SameMarks s (s.startBuffer frames) := by
  unfold Output.startBuffer
  split <;> exact ⟨rfl, rfl, rfl, rfl, rfl⟩

theorem marks_skipAhead (s : Output) (frames : ℕ) : SameMarks s (s.skipAhead frames).1 := by
  unfold Output.skipAhead
  split <;> exact ⟨rfl, rfl, rfl, rfl, rfl⟩

theorem marks_pauseFor (s : Output) (avail frames now : ℕ) :
    SameMarks s (s.pauseFor avail frames now).1 := by
  unfold Output.pauseFor
  split
  · split <;> exact ⟨rfl, rfl, rfl, rfl, rfl⟩
  split
  · split <;> exact ⟨rfl, rfl, rfl, rfl, rfl⟩
  · exact ⟨rfl, rfl, rfl, rfl, rfl⟩

/-- The frames that skip ahead takes are in `outputbuf`. -/
theorem skipCount_le (s : Output) :
    s.skipCount (bufUsed s.outputbuf / BYTES_PER_FRAME) * BYTES_PER_FRAME ≤ bufUsed s.outputbuf := by
  have hle : s.skipCount (bufUsed s.outputbuf / BYTES_PER_FRAME) ≤
      bufUsed s.outputbuf / BYTES_PER_FRAME := by
    unfold Output.skipCount
    split
    · exact Nat.min_le_left _ _
    · exact Nat.zero_le _
  exact Nat.le_trans (Nat.mul_le_mul_right _ hle) (Nat.div_mul_le_self _ _)

/-- What is seen of a call before its loop. -/
def Output.skipObs (s : Output) : List OutputObs :=
  ((s.startBuffer (bufUsed s.outputbuf / BYTES_PER_FRAME)).skipAhead
    (bufUsed s.outputbuf / BYTES_PER_FRAME)).2

/-- A call up to its loop skips ahead, and leaves the track start and the fade alone. -/
structure Begun (s : Output) (s' : Output) (log : List OutputObs) : Prop where
  grid : Grid s'
  marks : SameMarks s s'
  outputbuf : s'.outputbuf = s.outputbuf.taken (total OutputObs.bytes log)
  bytes : total OutputObs.bytes log =
    s.skipCount (bufUsed s.outputbuf / BYTES_PER_FRAME) * BYTES_PER_FRAME
  given : total OutputObs.given log = 0
  loud : total OutputObs.loud log = 0

theorem begun_beginFrames (h : Grid s) (avail now : ℕ) :
    Begun s (s.beginFrames avail now).1 s.skipObs := by
  obtain ⟨frames, hframes⟩ : ∃ frames, bufUsed s.outputbuf / BYTES_PER_FRAME = frames := ⟨_, rfl⟩
  have hstart := same_startBuffer s frames
  have hgrid : Grid (s.startBuffer frames) := by
    have hmarks := marks_startBuffer s frames
    exact h.same hstart.outputbuf hmarks.trackStart hmarks.fadeStart hmarks.fadeEnd
  have hcount := skipCount_startBuffer s frames
  have hle := skipCount_le s
  rw [hframes] at hle
  -- the buffer that skip ahead leaves
  have hskip : total OutputObs.bytes ((s.startBuffer frames).skipAhead frames).2 =
        s.skipCount frames * BYTES_PER_FRAME ∧
      total OutputObs.given ((s.startBuffer frames).skipAhead frames).2 = 0 ∧
      total OutputObs.loud ((s.startBuffer frames).skipAhead frames).2 = 0 ∧
      ((s.startBuffer frames).skipAhead frames).1.outputbuf =
        s.outputbuf.taken (s.skipCount frames * BYTES_PER_FRAME) := by
    unfold Output.skipAhead
    split
    · have htook := skipLoop_took ((s.startBuffer frames).skipCount frames) hgrid
        (Nat.le_refl _) (by rw [hstart.outputbuf, hcount]; exact hle)
      rw [← hcount, ← hstart.outputbuf]
      exact htook
    · rename_i hstate
      have hzero : s.skipCount frames = 0 := by
        rw [← hcount]
        exact if_neg hstate
      rw [hzero, Nat.zero_mul, Buffer.taken_zero h.wf]
      exact ⟨rfl, rfl, rfl, hstart.outputbuf⟩
  obtain ⟨hbytes, hgiven, hloud, hbuf⟩ := hskip
  have hmarks : SameMarks s (s.beginFrames avail now).1 := by
    simp only [Output.beginFrames, hframes]
    exact ((marks_startBuffer s _).trans (marks_skipAhead _ _)).trans (marks_pauseFor _ _ _ _)
  have hout : (s.beginFrames avail now).1.outputbuf =
      s.outputbuf.taken (s.skipCount frames * BYTES_PER_FRAME) := by
    simp only [Output.beginFrames, hframes]
    exact (same_pauseFor _ _ _ _).outputbuf.trans hbuf
  refine ⟨?_, hmarks, ?_, ?_, ?_, ?_⟩
  · apply h.moved (Nat.dvd_mul_left _ _) hout
    · rw [hmarks.trackStart]
      exact h.trackStart
    · rw [hmarks.fadeStart]
      exact h.fadeStart
    · rw [hmarks.fadeEnd]
      exact h.fadeEnd
  · rw [hout, Output.skipObs, hframes, hbytes]
  · rw [Output.skipObs, hframes, hbytes]
  · rw [Output.skipObs, hframes, hgiven]
  · rw [Output.skipObs, hframes, hloud]

/-! ### A call -/

variable (toGain) in
/-- A call keeps the pointers on the grid, whatever `write_cb` answers. -/
theorem grid_outputFrames (h : Grid s) (avail now : ℕ) (answers : ℕ → ℤ) :
    Grid (s.outputFrames toGain avail now answers).1 := by
  have hbegun := begun_beginFrames h avail now
  show Grid (Playing.loop toGain _ now _ answers _).1.out
  rcases (s.beginFrames avail now).2.2.eq_false_or_eq_true with hsilent | hloud
  · rw [hsilent, (loop_silent toGain now _ answers _ .none).1]
    exact hbegun.grid
  · rw [hloud]
    exact (took_loop toGain False now _ answers _ hbegun.grid False.elim).grid

theorem le_avail (s : Output) (avail now : ℕ) : (s.beginFrames avail now).2.1 ≤ avail :=
  Nat.min_le_right _ _

variable (toGain) in
/-- A call accounts for what it takes. -/
theorem accounted (h : Grid s) {avail : ℕ} (now : ℕ) {answers : ℕ → ℤ}
    (hans : Accepts avail answers) : Accounted toGain s avail now answers := by
  have hbegun := begun_beginFrames h avail now
  have hle := le_avail s avail now
  have hans' : ∀ i, ((s.beginFrames avail now).2.1 : ℤ) ≤ answers i := fun i =>
    Int.le_trans (Int.ofNat_le.mpr hle) (hans i)
  obtain ⟨hcount, hgiven⟩ := count_loop toGain (s.beginFrames avail now).2.2 now
    (s.beginFrames avail now).2.1 answers
    (s.playing (s.beginFrames avail now).1 (s.beginFrames avail now).2.1)
    (Nat.le_refl _) (Nat.le_refl _) hans'
  have hlog : (s.outputFrames toGain avail now answers).2.2 = s.skipObs ++
      (Playing.loop toGain (s.beginFrames avail now).2.2 now (s.beginFrames avail now).2.1 answers
        (s.playing (s.beginFrames avail now).1 (s.beginFrames avail now).2.1)).2 := rfl
  have hframes : (s.outputFrames toGain avail now answers).2.1 =
      (Playing.loop toGain (s.beginFrames avail now).2.2 now (s.beginFrames avail now).2.1 answers
        (s.playing (s.beginFrames avail now).1 (s.beginFrames avail now).2.1)).1.frames := rfl
  have hout : (s.outputFrames toGain avail now answers).1 =
      (Playing.loop toGain (s.beginFrames avail now).2.2 now (s.beginFrames avail now).2.1 answers
        (s.playing (s.beginFrames avail now).1 (s.beginFrames avail now).2.1)).1.out := rfl
  change _ + (s.beginFrames avail now).2.1 = (s.beginFrames avail now).2.1 + _ at hcount
  change _ ≤ (s.beginFrames avail now).2.1 at hgiven
  have hreturned := Nat.add_right_cancel (hcount.trans (Nat.add_comm _ _))
  have hatMost : (s.outputFrames toGain avail now answers).2.1 ≤ avail := by
    rw [hframes, hreturned]
    omega
  have haccepted : (s.outputFrames toGain avail now answers).2.1 =
      total OutputObs.given (s.outputFrames toGain avail now answers).2.2 := by
    rw [hframes, hlog, Runs.total_append, hbegun.given, Nat.zero_add, hreturned]
  rcases (s.beginFrames avail now).2.2.eq_false_or_eq_true with hsilent | hloud
  · -- silence
    obtain ⟨hbytes, hzero⟩ := bytes_silent toGain now (s.beginFrames avail now).2.1 answers
      (s.playing (s.beginFrames avail now).1 (s.beginFrames avail now).2.1)
    have hall : total OutputObs.bytes (s.outputFrames toGain avail now answers).2.2 =
        total OutputObs.bytes s.skipObs := by
      rw [hlog, hsilent, Runs.total_append, hbytes, Nat.add_zero]
    refine ⟨hatMost, haccepted, ?_, ⟨0, ?_, .inl rfl⟩, fun _ => hall.trans hbegun.bytes⟩
    · rw [hall, hout, hsilent, (loop_silent toGain now _ answers _ .none).1]
      exact hbegun.outputbuf
    · rw [hall, hbegun.bytes, hlog, hsilent, Runs.total_append, hbegun.loud, hzero]
      simp only [Nat.zero_add, Nat.add_zero]
  · have htook := took_loop toGain True now (s.beginFrames avail now).2.1 answers
      (s.playing (s.beginFrames avail now).1 (s.beginFrames avail now).2.1) hbegun.grid
      fun _ => hans'
    rw [hloud] at hlog hout
    have hall : total OutputObs.loud (s.outputFrames toGain avail now answers).2.2 =
        total OutputObs.given (s.outputFrames toGain avail now answers).2.2 := by
      rw [hlog, Runs.total_append, Runs.total_append, hbegun.loud, hbegun.given, htook.given]
    refine ⟨hatMost, haccepted, ?_, ?_, fun hlt => absurd hlt (by rw [hall]; exact Nat.lt_irrefl _)⟩
    · rw [hout, htook.outputbuf, hlog, Runs.total_append]
      show (s.beginFrames avail now).1.outputbuf.taken _ = _
      rw [hbegun.outputbuf, Buffer.taken_taken]
    · obtain ⟨n, hn, hskip⟩ := htook.skipped trivial
      refine ⟨n, ?_, ?_⟩
      · rw [hlog, Runs.total_append, Runs.total_append, hbegun.bytes, hbegun.loud, hn, Nat.add_mul,
          Nat.zero_add]
        omega
      · rcases hskip with rfl | ⟨rfl, hcross, hon, hoff⟩
        · exact .inl rfl
        · have hmarks := hbegun.marks
          refine .inr ⟨?_, hmarks.fadeMode.symm.trans hcross, fun hne => hon ?_, ?_⟩
          · show (s.beginFrames avail now).1.durBytes = s.durBytes
            unfold Output.durBytes Output.durFrames
            rw [hmarks.fadeStart, hmarks.fadeEnd, hbegun.outputbuf]
            rfl
          · exact hmarks.fade.trans hne
          · rw [hout]
            exact hoff

/-! ### Getting on -/

theorem contFrames_pos (h : Grid s) (hu : bufUsed s.outputbuf ≠ 0) : 0 < s.contFrames := by
  have hread := h.contRead_pos hu
  unfold Output.contFrames
  split
  · rename_i p hp
    split
    · rename_i hahead
      exact Nat.lt_min.mpr ⟨hread, Grid.ahead_pos (h.trackStart p hp) h.readp hahead⟩
    · exact hread
  · exact hread

variable (toGain) in
/-- A round starts a track, or takes a frame. -/
theorem round_progresses {answer : ℤ} {x : Playing} (now : ℕ) (h : Grid x.out)
    (hu : bufUsed x.out.outputbuf ≠ 0) (hsize : 0 < x.size) (hans : (x.size : ℤ) ≤ answer)
    (hne : x.out.trackStart ≠ some x.out.outputbuf.readp) :
    BYTES_PER_FRAME ≤ total OutputObs.bytes (Playing.round toGain false now answer x).2.1 := by
  obtain ⟨-, hcont⟩ := took_fadeChunk toGain True h x.out.contFrames
  have hpos := hcont (contFrames_pos h hu)
  obtain ⟨hkeep, -⟩ := fadeChunk_cases toGain x x.out.contFrames
  obtain ⟨faded, hfaded⟩ : ∃ faded, Playing.fadeChunk toGain x x.out.contFrames = faded := ⟨_, rfl⟩
  rw [hfaded] at hpos hkeep
  have hframes : Playing.outFrames false faded.1 faded.2.1 = min faded.1.size faded.2.1 := rfl
  have hwrote : 0 < Playing.wrote answer (min faded.1.size faded.2.1) := by
    unfold Playing.wrote
    omega
  unfold Playing.round
  rw [if_neg Bool.false_ne_true, if_neg hne]
  simp only [hfaded, Runs.total_append]
  unfold Playing.writeChunk
  rw [hframes, if_neg (Nat.ne_of_gt hwrote), if_neg Bool.false_ne_true]
  rw [(totals_written faded.1 _ _).1]
  have hmul := Nat.mul_le_mul_right BYTES_PER_FRAME (Nat.succ_le_of_lt hwrote)
  omega

variable (toGain) in
/-- So does a loop that is not silent. -/
theorem loop_progresses {n : ℕ} (answers : ℕ → ℤ) {x : Playing} (now : ℕ) (h : Grid x.out)
    (hu : bufUsed x.out.outputbuf ≠ 0) (hsize : 0 < x.size) (hn : x.size = n)
    (hans : (x.size : ℤ) ≤ answers 0) :
    (x.out.trackStart = some x.out.outputbuf.readp ∧
        (Playing.loop toGain false now n answers x).1.out = (x.out.startTrack now).1 ∧
        (Playing.loop toGain false now n answers x).2 = (x.out.startTrack now).2) ∨
      BYTES_PER_FRAME ≤ total OutputObs.bytes (Playing.loop toGain false now n answers x).2 := by
  obtain ⟨k, rfl⟩ : ∃ k, n = k + 1 := ⟨n - 1, by omega⟩
  rw [Playing.loop, if_neg (by omega)]
  by_cases hreach : x.out.trackStart = some x.out.outputbuf.readp
  · have hround : Playing.round toGain false now (answers 0) x =
        ({ x with out := (x.out.startTrack now).1, frames := x.frames - x.size },
          (x.out.startTrack now).2, false) := by
      unfold Playing.round
      rw [if_neg Bool.false_ne_true, if_pos hreach]
    refine .inl ⟨hreach, ?_, ?_⟩
    · simp only [hround, Bool.false_eq_true, if_false]
    · simp only [hround, Bool.false_eq_true, if_false]
  · have htakes := round_progresses toGain now h hu hsize hans hreach
    by_cases hmore : (Playing.round toGain false now (answers 0) x).2.2 = true
    · simp only [if_pos hmore, Runs.total_append]
      exact .inr (Nat.le_trans htakes (Nat.le_add_right _ _))
    · simp only [if_neg hmore]
      exact .inr htakes

/-- The state in which a call gets to its loop, when it plays. -/
def Output.resumed (s : Output) : Output := { s with state := .running }

/-- Where there is no skip ahead and no wait, the loop is not silent. -/
theorem beginFrames_running (hu : 0 < bufUsed s.outputbuf / BYTES_PER_FRAME)
    (hstate : s.state = .running ∨ (s.state = .pauseFrames ∧ s.pauseFrames = 0))
    (avail now : ℕ) :
    s.beginFrames avail now =
        (s.resumed, min (bufUsed s.outputbuf / BYTES_PER_FRAME) avail, false) ∧
      s.skipObs = [] := by
  obtain ⟨frames, hframes⟩ : ∃ frames, bufUsed s.outputbuf / BYTES_PER_FRAME = frames := ⟨_, rfl⟩
  have hbuffer : s.state ≠ .buffer ∧ s.state ≠ .skipFrames := by
    rcases hstate with hs | ⟨hs, -⟩ <;> rw [hs] <;> decide
  have hstart : s.startBuffer frames = s := if_neg fun hb => hbuffer.1 hb.1
  have hskip : s.skipAhead frames = (s, []) := if_neg hbuffer.2
  have hcount : s.skipCount frames = 0 := if_neg hbuffer.2
  have hpause : s.pauseFor avail frames now = (s.resumed, frames, false) := by
    unfold Output.pauseFor
    rcases hstate with hs | ⟨hs, hzero⟩
    · have hsame : s.resumed = s := by
        rw [Output.resumed, ← hs]
      rw [if_neg (by rw [hs]; decide), if_neg (by rw [hs]; decide), hsame]
    · rw [if_pos hs, if_pos hzero]
      rfl
  have hquiet : s.resumed.silenceFor avail frames false = (frames, false) := by
    refine if_neg ?_
    rintro (hq | hzero)
    · cases hq
    · omega
  constructor
  · simp only [Output.beginFrames, hframes, hstart, hskip, hcount, Nat.sub_zero, hpause, hquiet]
  · rw [Output.skipObs, hframes, hstart, hskip]

variable (toGain) in
/-- A call in which nothing is waited for starts a track, or takes a frame. -/
theorem outputFrames_running (h : Grid s) (hu : bufUsed s.outputbuf ≠ 0)
    (hstate : s.state = .running ∨ (s.state = .pauseFrames ∧ s.pauseFrames = 0))
    {avail : ℕ} (now : ℕ) {answers : ℕ → ℤ} (hpos : 0 < avail) (hans : Accepts avail answers) :
    (s.trackStart = some s.outputbuf.readp ∧
        (s.outputFrames toGain avail now answers).1 = (s.resumed.startTrack now).1 ∧
        (s.outputFrames toGain avail now answers).2.2 = (s.resumed.startTrack now).2) ∨
      BYTES_PER_FRAME ≤
        total OutputObs.bytes (s.outputFrames toGain avail now answers).2.2 := by
  have hframes : 0 < bufUsed s.outputbuf / BYTES_PER_FRAME :=
    Nat.div_pos (Nat.le_of_dvd (Nat.pos_of_ne_zero hu) h.used) (by decide)
  obtain ⟨hbegin, hobs⟩ := beginFrames_running hframes hstate avail now
  have hgrid : Grid s.resumed := h.same rfl rfl rfl rfl
  have hsize : 0 < min (bufUsed s.outputbuf / BYTES_PER_FRAME) avail :=
    Nat.lt_min.mpr ⟨hframes, hpos⟩
  have hans' : ((min (bufUsed s.outputbuf / BYTES_PER_FRAME) avail : ℕ) : ℤ) ≤ answers 0 :=
    Int.le_trans (Int.ofNat_le.mpr (Nat.min_le_right _ _)) (hans 0)
  have hloop := loop_progresses toGain answers
    (x := s.playing s.resumed (min (bufUsed s.outputbuf / BYTES_PER_FRAME) avail)) now hgrid hu
    hsize rfl hans'
  have hlog : (s.outputFrames toGain avail now answers).2.2 =
      s.skipObs ++ (Playing.loop toGain (s.beginFrames avail now).2.2 now
        (s.beginFrames avail now).2.1 answers
        (s.playing (s.beginFrames avail now).1 (s.beginFrames avail now).2.1)).2 := rfl
  rw [hobs, List.nil_append, hbegin] at hlog
  rcases hloop with ⟨hreach, hout, hsignal⟩ | htakes
  · refine .inl ⟨hreach, ?_, hlog.trans hsignal⟩
    show (Playing.loop toGain (s.beginFrames avail now).2.2 now
        (s.beginFrames avail now).2.1 answers
        (s.playing (s.beginFrames avail now).1 (s.beginFrames avail now).2.1)).1.out = _
    rw [hbegin]
    exact hout
  · exact .inr (by rw [hlog]; exact htakes)

/-- A track start is signalled, or put off by a pause. -/
theorem startTrack_cases (s : Output) (now : ℕ) :
    (∃ o ∈ (s.startTrack now).2, o.isSignal = true) ∨
      (s.startTrack now).1.state = .pauseFrames := by
  unfold Output.startTrack
  split
  · exact .inr rfl
  · exact .inl ⟨_, List.mem_cons_self, rfl⟩

variable (toGain) in
theorem getsOn (h : Grid s) {avail : ℕ} (now : ℕ) {answers : ℕ → ℤ} (hans : Accepts avail answers)
    (hpos : 0 < avail) (hstate : s.state = .running) (hu : bufUsed s.outputbuf ≠ 0) :
    GetsOn toGain s avail now answers := by
  rcases outputFrames_running toGain h hu (.inl hstate) now hpos hans with
    ⟨-, hout, hlog⟩ | htakes
  · rcases startTrack_cases s.resumed now with hsignal | hpause
    · exact .inr (.inl (by rw [hlog]; exact hsignal))
    · refine .inr (.inr (.inl ?_))
      rw [hout, hpause, hstate]
      decide
  · exact .inl htakes

/-! ### Pauses come to an end -/

/-- The calls that may pass at a track start until a frame is taken: those of the two pauses, and
the two that begin them. -/
def Output.trackWaits (s : Output) : ℕ :=
  if s.trackDelay = 0 then 1
  else if s.delayActive then 1 + s.nextSampleRate * s.trackDelay / 2000
  else 2 + s.currentSampleRate * s.trackDelay / 2000 + s.nextSampleRate * s.trackDelay / 2000

/-- The calls that may pass until a frame is taken. -/
def Output.waits (s : Output) : ℕ :=
  (if s.state = .pauseFrames then s.pauseFrames else 0) +
    if s.trackStart = some s.outputbuf.readp then s.trackWaits else 0

/-- The output plays, or is in a pause, and there is something to play. -/
def Awake (s : Output) : Prop :=
  Grid s ∧ bufUsed s.outputbuf ≠ 0 ∧ (s.state = .running ∨ s.state = .pauseFrames)

theorem waits_of_pause (h : s.state = .pauseFrames) :
    s.waits = s.pauseFrames + if s.trackStart = some s.outputbuf.readp then s.trackWaits else 0 := by
  rw [Output.waits, if_pos h]

theorem waits_of_running (h : s.state = .running) :
    s.waits = if s.trackStart = some s.outputbuf.readp then s.trackWaits else 0 := by
  rw [Output.waits, if_neg (by rw [h]; decide), Nat.zero_add]

/-- A track start that is reached is one wait less. -/
theorem startTrack_waits (h : Awake s) (hstate : s.state = .running)
    (hreach : s.trackStart = some s.outputbuf.readp) (now : ℕ) :
    Awake (s.startTrack now).1 ∧ (s.startTrack now).1.waits < s.waits := by
  obtain ⟨hgrid, hu, -⟩ := h
  rw [waits_of_running hstate, if_pos hreach]
  unfold Output.startTrack
  split
  · -- the first half of the delay
    rename_i hdelay
    refine ⟨⟨hgrid.same rfl rfl rfl rfl, hu, .inr rfl⟩, ?_⟩
    rw [waits_of_pause (s := s.delayTrack) rfl, if_pos (show s.delayTrack.trackStart =
      some s.delayTrack.outputbuf.readp from hreach)]
    have hafter : s.delayTrack.trackWaits = 1 + s.nextSampleRate * s.trackDelay / 2000 :=
      (if_neg hdelay.1).trans (if_pos rfl)
    rw [hafter]
    unfold Output.trackWaits
    rw [if_neg hdelay.1, if_neg (by rw [hdelay.2]; decide)]
    show s.currentSampleRate * s.trackDelay / 2000 + _ < _
    omega
  · rename_i hnow
    have hgrid' : Grid (s.beginTrack now) :=
      hgrid.moved (Nat.dvd_zero _) (Buffer.taken_zero hgrid.wf).symm (fun _ hp => (nomatch hp))
        hgrid.fadeStart hgrid.fadeEnd
    have hnone : ¬ (s.beginTrack now).trackStart = some (s.beginTrack now).outputbuf.readp :=
      fun hp => (nomatch hp)
    by_cases hzero : s.trackDelay = 0
    · have hkeep : (s.beginTrack now).state = .running := by
        show (if s.trackDelay ≠ 0 then OutputState.pauseFrames else s.state) = _
        rw [if_neg (not_not.mpr hzero), hstate]
      refine ⟨⟨hgrid', hu, .inl hkeep⟩, ?_⟩
      rw [waits_of_running (s := s.beginTrack now) hkeep, if_neg hnone, Output.trackWaits,
        if_pos hzero]
      decide
    · -- the second half of the delay
      have hactive : s.delayActive = true := by
        simpa [hzero] using hnow
      have hkeep : (s.beginTrack now).state = .pauseFrames := if_pos hzero
      have hpause : (s.beginTrack now).pauseFrames = s.nextSampleRate * s.trackDelay / 2000 :=
        if_pos hzero
      refine ⟨⟨hgrid', hu, .inr hkeep⟩, ?_⟩
      rw [waits_of_pause (s := s.beginTrack now) hkeep, if_neg hnone, hpause, Output.trackWaits,
        if_neg hzero, if_pos hactive]
      omega

variable (toGain) in
/-- A call in a pause makes the pause shorter. -/
theorem outputFrames_pause (hstate : s.state = .pauseFrames)
    (hzero : s.pauseFrames ≠ 0) {avail : ℕ} (now : ℕ) (answers : ℕ → ℤ) (hpos : 0 < avail) :
    ∃ k, 0 < k ∧ k ≤ s.pauseFrames ∧ (s.outputFrames toGain avail now answers).1 =
      { s with pauseFrames := s.pauseFrames - k } := by
  obtain ⟨frames, hframes⟩ : ∃ frames, bufUsed s.outputbuf / BYTES_PER_FRAME = frames := ⟨_, rfl⟩
  have hstart : s.startBuffer frames = s := if_neg fun hb => by
    rw [hstate] at hb
    cases hb.1
  have hskip : s.skipAhead frames = (s, []) := if_neg (by rw [hstate]; decide)
  have hmax : 0 < MAX_SILENCE_FRAMES := by decide
  refine ⟨min (min avail s.pauseFrames) MAX_SILENCE_FRAMES, by omega, by omega, ?_⟩
  have hpause : ∀ n, s.pauseFor avail n now =
      ({ s with pauseFrames := s.pauseFrames - min (min avail s.pauseFrames) MAX_SILENCE_FRAMES },
        min (min avail s.pauseFrames) MAX_SILENCE_FRAMES, true) := by
    intro n
    unfold Output.pauseFor
    rw [if_pos hstate, if_neg hzero]
  have hsilent : (s.beginFrames avail now).2.2 = true := by
    simp only [Output.beginFrames, hframes, hstart, hskip, hpause]
    unfold Output.silenceFor
    split <;> rfl
  have hout : (s.beginFrames avail now).1 =
      { s with pauseFrames := s.pauseFrames - min (min avail s.pauseFrames) MAX_SILENCE_FRAMES } := by
    simp only [Output.beginFrames, hframes, hstart, hskip, hpause]
  show (Playing.loop toGain (s.beginFrames avail now).2.2 now (s.beginFrames avail now).2.1 answers
    (s.playing (s.beginFrames avail now).1 (s.beginFrames avail now).2.1)).1.out = _
  rw [hsilent, (loop_silent toGain now _ answers _ .none).1]
  exact hout

/-- A call takes a frame, or is one of those that are waited for. -/
theorem outputStep_waits {e : OutputEvent} (h : Awake s) (he : PlayCall e) :
    0 < total OutputObs.bytes (outputStep toGain s e).2 ∨
      (Awake (outputStep toGain s e).1 ∧ (outputStep toGain s e).1.waits < s.waits) := by
  cases e with
  | frames avail now answers =>
      obtain ⟨hpos, hans⟩ := he
      by_cases hpause : s.state = .pauseFrames ∧ s.pauseFrames ≠ 0
      · obtain ⟨k, hk, hle, hout⟩ := outputFrames_pause toGain hpause.1 hpause.2 now
          answers hpos
        obtain ⟨hgrid, hu, -⟩ := h
        refine .inr ?_
        show Awake (s.outputFrames toGain avail now answers).1 ∧
          (s.outputFrames toGain avail now answers).1.waits < _
        rw [hout]
        refine ⟨⟨hgrid.same rfl rfl rfl rfl, hu, .inr hpause.1⟩, ?_⟩
        have hafter := waits_of_pause (s := { s with pauseFrames := s.pauseFrames - k }) hpause.1
        rw [hafter, waits_of_pause hpause.1]
        show s.pauseFrames - k + (if s.trackStart = some s.outputbuf.readp then s.trackWaits
          else 0) < _
        omega
      · have hstate : s.state = .running ∨ (s.state = .pauseFrames ∧ s.pauseFrames = 0) := by
          rcases h.2.2 with hs | hs
          · exact .inl hs
          · exact .inr ⟨hs, by_contra fun hne => hpause ⟨hs, hne⟩⟩
        have hresumed : Awake s.resumed := ⟨h.1.same rfl rfl rfl rfl, h.2.1, .inl rfl⟩
        have hwaits : s.resumed.waits ≤ s.waits := Nat.add_le_add_right (Nat.zero_le _) _
        rcases outputFrames_running toGain h.1 h.2.1 hstate now hpos hans with
          ⟨hreach, hout, -⟩ | htakes
        · refine .inr ?_
          show Awake (s.outputFrames toGain avail now answers).1 ∧
            (s.outputFrames toGain avail now answers).1.waits < _
          rw [hout]
          obtain ⟨hawake, hlt⟩ := startTrack_waits hresumed rfl hreach now
          exact ⟨hawake, Nat.lt_of_lt_of_le hlt hwaits⟩
        · exact .inl (Nat.lt_of_lt_of_le (by decide) htakes)
  | _ => exact he.elim

/-- On the grid, all is as it is to be. -/
theorem Grid.progresses (toGain : ℕ → ℕ → ℤ) (h : Grid s) : Progresses toGain s := by
  have hdvd : ∀ p : ℕ, BYTES_PER_FRAME ∣ p → (BYTES_PER_FRAME : ℤ) ∣ p - s.outputbuf.readp := by
    intro p hp
    exact Int.dvd_sub (Int.natCast_dvd_natCast.mpr hp) (Int.natCast_dvd_natCast.mpr h.readp)
  refine ⟨fun p hp => hdvd p (h.trackStart p hp), fun _ => hdvd _ h.fadeStart,
    fun _ => hdvd _ h.fadeEnd, fun _ now _ hans => accounted toGain h now hans,
    fun _ now _ hans hpos hstate hu => getsOn toGain h now hans hpos hstate hu,
    fun hstate hu => ⟨s.waits, fun evs hevs hlen => ?_⟩⟩
  exact (outputMachine toGain).run_progresses (I := Awake) (P := fun _ e => PlayCall e)
    (μ := Output.waits) (fun t e ht he => outputStep_waits ht he) ⟨h, hu, .inl hstate⟩
    ((outputMachine toGain).along_of_forall hevs s) hlen

/-! ### The decoder and the controller -/

/-- A block begins at a frame, as what `malloc` returns does. -/
def Block.whole (b : Block) : Bool := b.addr % BYTES_PER_FRAME = 0

/-- There is memory to resize a buffer. -/
def resizeWhole : Option Block → Option Block → Bool
  | some blk, _ => blk.whole
  | none, some blk => blk.whole
  | none, none => false

/-- A track that is announced while another is played starts at a frame of it, and where
`outputbuf` is resized, there is memory. -/
def publishWhole (s : Output) (rate : ℕ) (first second : Option Block) : Bool :=
  !(s.decodeState = .running ∧ s.newStream) ||
    ((s.announce rate).overlap % BYTES_PER_FRAME = 0 &&
      (!(s.fadeMode = .crossfade ∧ bufUsed s.outputbuf = 0 ∧ s.outputbuf.size = OUTPUTBUF_SIZE ∧
        s.outputbuf.readp = s.outputbuf.buf) || resizeWhole first second))

theorem min_dvd {k m n : ℕ} (hm : k ∣ m) (hn : k ∣ n) : k ∣ min m n := by
  rcases Nat.le_total m n with hle | hle
  · rwa [Nat.min_eq_left hle]
  · rwa [Nat.min_eq_right hle]

theorem dvd_fadeBytes (s : Output) : BYTES_PER_FRAME ∣ s.fadeBytes := by
  unfold Output.fadeBytes
  split
  · exact Nat.dvd_mul_left _ _
  · have hword : BYTES_PER_FRAME ∣ 2 ^ 32 := by decide
    rw [Nat.dvd_mod_iff hword, Nat.mul_assoc]
    exact Nat.dvd_mul_left_of_dvd (Nat.dvd_mul_right _ _) _

/-- A buffer that is resized is on the grid. -/
theorem grid_bufResize (h : Grid s) {first second : Option Block}
    (hsize : s.outputbuf.size = OUTPUTBUF_SIZE) (hmem : resizeWhole first second = true) :
    Grid { s with outputbuf := bufResize s.outputbuf OUTPUTBUF_SIZE_CROSSFADE first second } := by
  have hreset : ∀ blk : Block, ∀ size, blk.whole = true → BYTES_PER_FRAME ∣ size → 0 < size →
      Grid { s with outputbuf := bufReset s.outputbuf blk size } := by
    intro blk size hblk hdvd hpos
    have haddr : BYTES_PER_FRAME ∣ blk.addr := Nat.dvd_of_mod_eq_zero (of_decide_eq_true hblk)
    exact ⟨wf_bufReset s.outputbuf blk hpos, rfl, haddr, hdvd, haddr, haddr, h.trackStart, h.fadeStart,
      h.fadeEnd⟩
  have hne : OUTPUTBUF_SIZE_CROSSFADE ≠ s.outputbuf.size := by
    rw [hsize]
    decide
  unfold bufResize
  rw [if_neg hne]
  match first, second with
  | some blk, _ => exact hreset blk _ hmem (by decide) (by decide)
  | none, some blk => exact hreset blk _ hmem h.size (by rw [hsize]; decide)
  | none, none => cases hmem

theorem grid_checkfadeStart (h : Grid s) {first second : Option Block}
    (hoverlap : s.overlap % BYTES_PER_FRAME = 0)
    (hmem : s.fadeMode = .crossfade → bufUsed s.outputbuf = 0 →
      s.outputbuf.size = OUTPUTBUF_SIZE → s.outputbuf.readp = s.outputbuf.buf →
      resizeWhole first second = true) : Grid (s.checkfadeStart first second) := by
  have hbuf : s.outputbuf = s.outputbuf.taken 0 := (Buffer.taken_zero h.wf).symm
  unfold Output.checkfadeStart
  split
  · -- fade in
    refine h.moved (Nat.dvd_zero _) hbuf h.trackStart h.writep ?_
    apply h.dvd_afterPtr h.writep
    exact min_dvd (dvd_fadeBytes s) (Nat.dvd_sub h.size (Nat.dvd_refl _))
  split
  swap
  · exact h
  rename_i hcross
  split
  · rename_i hused
    split
    · exact h
    · -- the new track starts among the frames of the old one
      rename_i hrate
      have hsame : s.overlap = s.crossBytes := if_pos ⟨hcross, hused, not_not.mp hrate⟩
      have hdvd : BYTES_PER_FRAME ∣ Output.beforeWritep s.outputbuf s.crossBytes := by
        apply h.dvd_beforeWritep
        rw [← hsame]
        exact Nat.dvd_of_mod_eq_zero hoverlap
      refine h.moved (Nat.dvd_zero _) hbuf ?_ hdvd h.writep
      rintro p hp
      cases hp
      exact hdvd
  · rename_i hempty
    split
    · rename_i hresize
      exact grid_bufResize h hresize.1
        (hmem hcross (not_not.mp hempty) hresize.1 hresize.2)
    · exact h

theorem grid_publish (h : Grid s) {rate : ℕ} {first second : Option Block}
    (hwhole : publishWhole s rate first second = true) :
    Grid (s.publish rate first second).1 := by
  unfold Output.publish
  split
  swap
  · exact h
  rename_i hrun
  have hannounce : Grid (s.announce rate) := by
    refine h.moved (Nat.dvd_zero _) (Buffer.taken_zero h.wf).symm ?_ h.fadeStart h.fadeEnd
    rintro p hp
    cases hp
    exact h.writep
  simp only [publishWhole, hrun, and_self, decide_true, Bool.not_true, Bool.false_or,
    Bool.and_eq_true, Bool.or_eq_true, Bool.not_eq_true', decide_eq_true_eq,
    decide_eq_false_iff_not] at hwhole
  show Grid (if s.fadeMode = .none then _ else _)
  split
  · exact hannounce
  · refine grid_checkfadeStart hannounce hwhole.1 fun hcross hempty hsize hread => ?_
    exact hwhole.2.resolve_left fun hno => hno ⟨hcross, hempty, hsize, hread⟩

theorem grid_checkfadeEnd (h : Grid s) : Grid s.checkfadeEnd := by
  unfold Output.checkfadeEnd
  split
  · refine h.moved (Nat.dvd_zero _) (Buffer.taken_zero h.wf).symm h.trackStart ?_ h.writep
    exact h.dvd_beforeWritep (min_dvd h.used (dvd_fadeBytes s))
  · exact h

/-- Whole frames are put into `outputbuf`. -/
theorem grid_decoded (h : Grid s) {bs : List UInt8} (hwhole : bs.length % BYTES_PER_FRAME = 0) :
    Grid (s.decoded bs) := by
  have hdvd : BYTES_PER_FRAME ∣ bs.length := Nat.dvd_of_mod_eq_zero hwhole
  unfold Output.decoded
  split
  swap
  · exact h
  rename_i hroom
  refine ⟨wf_bufAppend h.wf hroom.2.2, h.base, h.buf, h.size, h.readp, ?_, h.trackStart,
    h.fadeStart, h.fadeEnd⟩
  show BYTES_PER_FRAME ∣ if _ then _ else _
  split
  · exact Nat.dvd_sub (Nat.dvd_add h.writep hdvd) h.size
  · exact Nat.dvd_add h.writep hdvd

theorem grid_control (h : Grid s) (c : Control) : Grid (s.control c) := by
  cases c with
  | start threshold replayGain fadeMode fadeSecs invert channels =>
      exact h.same (bufLimit_base h.wf h.base) rfl rfl rfl
  | updateDecode run =>
      show Grid (s.updateDecode run)
      unfold Output.updateDecode
      split
      · split <;> exact h.same rfl rfl rfl rfl
      · exact h.same rfl rfl rfl rfl
      · exact h.same rfl rfl rfl rfl
      · exact h
  | decodeFlush | codecOpen | pause | skip | unpause | enable | volume | updateOutput =>
      exact h.same rfl rfl rfl rfl

/-! ### Runs -/

/-- The decoder puts whole frames into `outputbuf`, and a track starts at a frame. -/
def onGrid (s : Output) : OutputEvent → Bool
  | .publish rate first second => publishWhole s rate first second
  | .decoded bs => bs.length % BYTES_PER_FRAME = 0
  | _ => true

theorem grid_outputStep {e : OutputEvent} (h : Grid s) (he : onGrid s e = true) :
    Grid (outputStep toGain s e).1 := by
  cases e with
  | frames avail now answers => exact grid_outputFrames toGain h avail now answers
  | publish rate first second => exact grid_publish h he
  | decoded bs => exact grid_decoded h (of_decide_eq_true he)
  | decodeDone ok =>
      show Grid (s.decodeDone ok)
      unfold Output.decodeDone
      split
      swap
      · exact h
      show Grid (if s.fadeMode = .none then _ else _)
      split
      · exact h.same rfl rfl rfl rfl
      · exact grid_checkfadeEnd (h.same rfl rfl rfl rfl)
  | flushBuffer =>
      show Grid s.flushBuffer.1
      unfold Output.flushBuffer
      split
      · exact ⟨wf_bufFlush h.wf, h.base, h.buf, h.size, h.buf, h.buf, h.trackStart, h.fadeStart,
          h.fadeEnd⟩
      · exact h
  | flushOutput =>
      show Grid s.flushOutput
      unfold Output.flushOutput
      split
      · exact h.same rfl rfl rfl rfl
      · exact h
  | control c =>
      simp only [outputStep]
      split
      · exact grid_control h c
      · exact h

/-- The output accounts for every frame and gets on, in every state that is reached while tracks
start at frames. -/
theorem output_progresses (toGain : ℕ → ℕ → ℤ) (blk : Block) (size rate rateDelay : ℕ)
    (idle : Bool) (evs : List OutputEvent) (hsize : BYTES_PER_FRAME ≤ size)
    (hblk : blk.whole = true)
    (hwhole : (outputMachine toGain).Along (fun s e => onGrid s e = true)
      (outputInit blk size rate rateDelay idle) evs) :
    Progresses toGain
      ((outputMachine toGain).run (outputInit blk size rate rateDelay idle) evs).1 := by
  have haddr : BYTES_PER_FRAME ∣ blk.addr := Nat.dvd_of_mod_eq_zero (of_decide_eq_true hblk)
  have hpos : 0 < size - size % BYTES_PER_FRAME := by
    simp only [BYTES_PER_FRAME] at *
    omega
  have hinit : Grid (outputInit blk size rate rateDelay idle) :=
    ⟨wf_bufInit blk hpos, rfl, haddr, Nat.dvd_sub_mod size, haddr, haddr,
      fun p hp => (by cases hp), Nat.dvd_zero _, Nat.dvd_zero _⟩
  exact ((outputMachine toGain).run_invariant (I := Grid) (fun s e h he => grid_outputStep h he)
    hinit hwhole).progresses toGain

/-- A crossfade of ten frames, in a buffer of 64 bytes of which 57 may be taken. -/
theorem output_progresses_run :
    Progresses (fun _ _ => 0) ((outputMachine (fun _ _ => 0)).run
      (outputInit ⟨100, fun _ => 0⟩ 64 44100 0 false)
      (started ++ [.publish 44100 none none, .decoded (List.replicate 40 1),
        .frames 10 0 (fun _ => 10), .decodeDone true, .control (.updateDecode false),
        .control (.start 0 0 .crossfade 10 false 0)] ++ started ++
        [.publish 44100 none none, .decoded (List.replicate 20 2),
        .frames 10 0 (fun _ => 10)])).1 :=
  output_progresses _ _ _ _ _ _ _ (by decide) (by decide) (by decide +kernel)

/-- A buffer of 1024 bytes is full of a track when the next one is announced for a crossfade. -/
def crossfadeCut : List OutputEvent :=
  started ++ [.publish 44100 none none, .decoded (List.replicate 1020 1),
    .frames 10 0 (fun _ => 10), .decodeDone true, .control (.updateDecode false),
    .control (.start 0 0 .crossfade 10 false 0)] ++ started ++
    [.publish 44100 none none, .frames 100 0 (fun _ => 100)]

/-- 921 bytes are taken for the crossfade, and the track starts between two frames: the output
plays up to the frame before it, and no further. -/
theorem output_stalls :
    ¬ Progresses (fun _ _ => 0) ((outputMachine (fun _ _ => 0)).run
      (outputInit ⟨100, fun _ => 0⟩ 1024 44100 0 false) crossfadeCut).1 := by
  intro h
  have hcall := h.getsOn 100 0 (fun _ => 100) (fun _ => Int.le_refl _) (by decide)
    (by decide +kernel) (by decide +kernel)
  have hnone : ¬ GetsOn (fun _ _ => 0) ((outputMachine (fun _ _ => 0)).run
      (outputInit ⟨100, fun _ => 0⟩ 1024 44100 0 false) crossfadeCut).1 100 0
      (fun _ => 100) := by
    unfold GetsOn
    decide +kernel
  exact hnone hcall

end SqueezeliteMuse
