/-
SqueezeliteMuse/OutputAccount.lean

What a call of `_output_frames` takes out of `outputbuf`.

Three pointers besides `readp` and `writep` cut a chunk short: `track_start`,
`fade_start` and `fade_end`.  Each distance is divided by `BYTES_PER_FRAME`, so
what counts is that all of them are a whole number of frames apart (`Grid`).

`Took` is what a part of a call does: `readp` moves by the bytes that are taken
out, these are the frames written that are not silent, and what is skipped at
the end of a crossfade besides, once at most.  Each part of the loop takes, and
two parts one after the other do.
-/
import SqueezeliteMuse.TrackStart

namespace SqueezeliteMuse

open Runs (total)

/-- The bytes that are taken out of `outputbuf`. -/
def OutputObs.bytes : OutputObs → ℕ
  | .consume bytes => bytes
  | _ => 0

/-- The frames that are given to `write_cb`. -/
def OutputObs.given : OutputObs → ℕ
  | .write frames .. => frames
  | _ => 0

/-- The frames that are given to `write_cb` and are not silence. -/
def OutputObs.loud : OutputObs → ℕ
  | .write frames false .. => frames
  | _ => 0

/-! ### The frame grid -/

/-- `readp` moved on, as a position in the ring. -/
def Buffer.taken (b : Buffer) (n : ℕ) : Buffer :=
  { b with readp := b.buf + (b.readp - b.buf + n) % b.size }

namespace Buffer

variable {b : Buffer} {n : ℕ}

theorem taken_zero (h : b.Wf) : b.taken 0 = b := by
  have hge := h.readp_ge
  have hread : b.buf + (b.readp - b.buf + 0) % b.size = b.readp := by
    rw [Nat.add_zero, Nat.mod_eq_of_lt h.readOff_lt]
    omega
  rw [taken, hread]

theorem taken_taken (b : Buffer) (n k : ℕ) : (b.taken n).taken k = b.taken (n + k) := by
  simp only [taken, Nat.add_sub_cancel_left, Nat.mod_add_mod, Nat.add_assoc]

theorem wf_taken (h : b.Wf) (n : ℕ) : (b.taken n).Wf where
  readp_ge := Nat.le_add_right _ _
  readp_lt := by
    show b.buf + _ < b.wrap
    rw [h.wrap_eq]
    exact Nat.add_lt_add_left (Nat.mod_lt _ h.size_pos) _
  writep_ge := h.writep_ge
  writep_lt := h.writep_lt
  wrap_eq := h.wrap_eq
  size_le := h.size_le
  base_le := h.base_le

theorem bufIncReadp_eq (h : b.Wf) (hn : n ≤ b.size) : bufIncReadp b n = b.taken n := by
  obtain ⟨hge, -, hptr⟩ := ptr_advance h.wrap_eq h.readp_ge h.readp_lt hn
  have hlt : (if b.readp + n ≥ b.wrap then b.readp + n - b.size else b.readp + n) - b.buf <
      b.size := (wf_bufIncReadp h hn).readOff_lt
  have hread : (if b.readp + n ≥ b.wrap then b.readp + n - b.size else b.readp + n) =
      b.buf + (b.readp - b.buf + n) % b.size := by
    rcases hptr with hptr | hptr
    · rw [← hptr, Nat.mod_eq_of_lt hlt, Nat.add_sub_cancel' hge]
    · rw [← hptr, Nat.add_mod_right, Nat.mod_eq_of_lt hlt, Nat.add_sub_cancel' hge]
  rw [bufIncReadp, taken, hread]

end Buffer

/-- The pointers of the output are a whole number of frames apart. -/
structure Grid (s : Output) : Prop where
  wf : s.outputbuf.Wf
  base : s.outputbuf.size = s.outputbuf.baseSize
  buf : BYTES_PER_FRAME ∣ s.outputbuf.buf
  size : BYTES_PER_FRAME ∣ s.outputbuf.size
  readp : BYTES_PER_FRAME ∣ s.outputbuf.readp
  writep : BYTES_PER_FRAME ∣ s.outputbuf.writep
  trackStart : ∀ p, s.trackStart = some p → BYTES_PER_FRAME ∣ p
  fadeStart : BYTES_PER_FRAME ∣ s.fadeStart
  fadeEnd : BYTES_PER_FRAME ∣ s.fadeEnd

/-- The end of a crossfade takes its frames a second time. -/
def CrossSkip (s s' : Output) (n : ℕ) : Prop :=
  n = 0 ∨ (n = s.durBytes ∧ s.fadeMode = .crossfade ∧ s.fade ≠ .inactive ∧ s'.fade = .inactive)

/-- The output has got from one state to another, and has taken what the log says.  `full` is
that `write_cb` writes all it is given. -/
structure Took (full : Prop) (s s' : Output) (log : List OutputObs) : Prop where
  grid : Grid s'
  outputbuf : s'.outputbuf = s.outputbuf.taken (total OutputObs.bytes log)
  given : total OutputObs.given log = total OutputObs.loud log
  fadeMode : s'.fadeMode = s.fadeMode
  inactive : s.fade = .inactive → s'.fade = .inactive
  fadePtrs : s.fadeMode = .crossfade → s'.fadeStart = s.fadeStart ∧ s'.fadeEnd = s.fadeEnd
  skipped : full → ∃ n, total OutputObs.bytes log =
    total OutputObs.loud log * BYTES_PER_FRAME + n ∧ CrossSkip s s' n

variable {s s' : Output} {toGain : ℕ → ℕ → ℤ} {full : Prop}

namespace Grid

theorem used (h : Grid s) : BYTES_PER_FRAME ∣ bufUsed s.outputbuf := by
  unfold bufUsed
  split
  · exact Nat.dvd_sub h.writep h.readp
  · exact Nat.dvd_sub h.size (Nat.dvd_sub h.readp h.writep)

/-- What can be read in one piece is a frame at least, where there is one. -/
theorem contRead_pos (h : Grid s) (hu : bufUsed s.outputbuf ≠ 0) :
    0 < bufContRead s.outputbuf / BYTES_PER_FRAME := by
  have hwrap : BYTES_PER_FRAME ∣ s.outputbuf.wrap := by
    rw [h.wf.wrap_eq]
    exact Nat.dvd_add h.buf h.size
  have hdvd : BYTES_PER_FRAME ∣ bufContRead s.outputbuf := by
    unfold bufContRead
    split
    · exact Nat.dvd_sub h.writep h.readp
    · exact Nat.dvd_sub hwrap h.readp
  have hpos := h.wf.contRead_pos (Nat.pos_of_ne_zero hu)
  exact Nat.div_pos (Nat.le_of_dvd hpos hdvd) (by decide)

/-- A pointer of the grid that is ahead is a frame ahead at least. -/
theorem ahead_pos {p q : ℕ} (hp : BYTES_PER_FRAME ∣ p) (hq : BYTES_PER_FRAME ∣ q) (hlt : q < p) :
    0 < (p - q) / BYTES_PER_FRAME :=
  Nat.div_pos (Nat.le_of_dvd (Nat.sub_pos_of_lt hlt) (Nat.dvd_sub hp hq)) (by decide)

theorem dvd_durBytes (s : Output) : BYTES_PER_FRAME ∣ s.durBytes := by
  have hword : BYTES_PER_FRAME ∣ 2 ^ 32 := by decide
  exact (Nat.dvd_mod_iff hword).mpr (Nat.dvd_mul_left _ _)

theorem dvd_afterPtr (h : Grid s) {p n : ℕ} (hp : BYTES_PER_FRAME ∣ p)
    (hn : BYTES_PER_FRAME ∣ n) : BYTES_PER_FRAME ∣ Output.afterPtr s.outputbuf p n := by
  unfold Output.afterPtr
  split
  · exact Nat.dvd_sub (Nat.dvd_add hp hn) h.size
  · exact Nat.dvd_add hp hn

theorem dvd_beforeWritep (h : Grid s) {n : ℕ} (hn : BYTES_PER_FRAME ∣ n) :
    BYTES_PER_FRAME ∣ Output.beforeWritep s.outputbuf n := by
  unfold Output.beforeWritep
  split
  · exact Nat.dvd_sub (Nat.dvd_add h.writep h.size) hn
  · exact Nat.dvd_sub h.writep hn

/-- Where `outputbuf` has moved on by whole frames, and the other pointers are on the grid. -/
theorem moved (h : Grid s) {n : ℕ} (hn : BYTES_PER_FRAME ∣ n)
    (hbuf : s'.outputbuf = s.outputbuf.taken n)
    (htrack : ∀ p, s'.trackStart = some p → BYTES_PER_FRAME ∣ p)
    (hstart : BYTES_PER_FRAME ∣ s'.fadeStart) (hend : BYTES_PER_FRAME ∣ s'.fadeEnd) : Grid s' where
  wf := by
    rw [hbuf]
    exact Buffer.wf_taken h.wf n
  base := by
    rw [hbuf]
    exact h.base
  buf := by
    rw [hbuf]
    exact h.buf
  size := by
    rw [hbuf]
    exact h.size
  readp := by
    rw [hbuf]
    show BYTES_PER_FRAME ∣ s.outputbuf.buf + _ % s.outputbuf.size
    apply Nat.dvd_add h.buf
    rw [Nat.dvd_mod_iff h.size]
    exact Nat.dvd_add (Nat.dvd_sub h.readp h.buf) hn
  writep := by
    rw [hbuf]
    exact h.writep
  trackStart := htrack
  fadeStart := hstart
  fadeEnd := hend

/-- A state with the same pointers is on the grid too. -/
theorem same (h : Grid s) (hbuf : s'.outputbuf = s.outputbuf)
    (htrack : s'.trackStart = s.trackStart) (hstart : s'.fadeStart = s.fadeStart)
    (hend : s'.fadeEnd = s.fadeEnd) : Grid s' := by
  apply h.moved (Nat.dvd_zero _)
  · rw [hbuf, Buffer.taken_zero h.wf]
  · rw [htrack]
    exact h.trackStart
  · rw [hstart]
    exact h.fadeStart
  · rw [hend]
    exact h.fadeEnd

end Grid

namespace Took

/-- Nothing is taken by a step that leaves the pointers alone. -/
theorem still {log : List OutputObs} (h : Grid s) (hbytes : total OutputObs.bytes log = 0)
    (hgiven : total OutputObs.given log = 0) (hloud : total OutputObs.loud log = 0)
    (hbuf : s'.outputbuf = s.outputbuf)
    (htrack : ∀ p, s'.trackStart = some p → s.trackStart = some p)
    (hstart : s'.fadeStart = s.fadeStart) (hend : s'.fadeEnd = s.fadeEnd)
    (hmode : s'.fadeMode = s.fadeMode) (hfade : s.fade = .inactive → s'.fade = .inactive) :
    Took full s s' log := by
  have hsame : s'.outputbuf = s.outputbuf.taken 0 := by rw [hbuf, Buffer.taken_zero h.wf]
  refine ⟨?_, by rw [hbytes]; exact hsame, hgiven.trans hloud.symm, hmode, hfade,
    fun _ => ⟨hstart, hend⟩, fun _ => ⟨0, by rw [hbytes, hloud, Nat.zero_mul], .inl rfl⟩⟩
  apply h.moved (Nat.dvd_zero _) hsame
  · exact fun p hp => h.trackStart p (htrack p hp)
  · rw [hstart]
    exact h.fadeStart
  · rw [hend]
    exact h.fadeEnd

theorem refl (h : Grid s) : Took full s s [] :=
  still h rfl rfl rfl rfl (fun _ hp => hp) rfl rfl rfl id

theorem trans {s₁ s₂ s₃ : Output} {log log' : List OutputObs} (h : Took full s₁ s₂ log)
    (h' : Took full s₂ s₃ log') : Took full s₁ s₃ (log ++ log') where
  grid := h'.grid
  outputbuf := by rw [h'.outputbuf, h.outputbuf, Buffer.taken_taken, Runs.total_append]
  given := by rw [Runs.total_append, Runs.total_append, h.given, h'.given]
  fadeMode := h'.fadeMode.trans h.fadeMode
  inactive hoff := h'.inactive (h.inactive hoff)
  fadePtrs hcross := by
    obtain ⟨hstart, hend⟩ := h.fadePtrs hcross
    obtain ⟨hstart', hend'⟩ := h'.fadePtrs (h.fadeMode.trans hcross)
    exact ⟨hstart'.trans hstart, hend'.trans hend⟩
  skipped hfull := by
    obtain ⟨n, hn, hskip⟩ := h.skipped hfull
    obtain ⟨k, hk, hskip'⟩ := h'.skipped hfull
    refine ⟨n + k, ?_, ?_⟩
    · rw [Runs.total_append, Runs.total_append, hn, hk, Nat.add_mul]
      omega
    · rcases hskip with rfl | ⟨rfl, hcross, hon, hoff⟩
      · rcases hskip' with rfl | ⟨rfl, hcross, hon, hoff⟩
        · exact .inl rfl
        · -- the crossfade ends in the second part, and is the one of the first
          have hmode : s₁.fadeMode = .crossfade := h.fadeMode.symm.trans hcross
          obtain ⟨hstart, hend⟩ := h.fadePtrs hmode
          have hsize : s₂.outputbuf.size = s₁.outputbuf.size := by
            rw [h.outputbuf]
            rfl
          refine .inr ⟨?_, hmode, fun hne => hon (h.inactive hne), hoff⟩
          rw [Nat.zero_add]
          unfold Output.durBytes Output.durFrames
          rw [hstart, hend, hsize]
      · rcases hskip' with rfl | ⟨rfl, -, hon', -⟩
        · exact .inr ⟨rfl, hcross, hon, h'.inactive hoff⟩
        · exact absurd hoff hon'

end Took

/-! ### The parts of the loop -/

theorem took_fadeReached (h : Grid s) : Took full s s.fadeReached [] := by
  unfold Output.fadeReached
  split
  · rename_i hdue
    refine Took.still h rfl rfl rfl rfl (fun _ hp => hp) rfl rfl rfl fun hoff => ?_
    rw [hdue.1] at hoff
    cases hoff
  · exact Took.refl h

/-- The end of a fade: what was crossfaded is skipped, or nothing is taken. -/
theorem took_fadeEnded (h : Grid s) (hactive : s.fade = .active) :
    Took full s s.fadeEnded.1 s.fadeEnded.2 := by
  have hon : s.fade ≠ .inactive := by
    rw [hactive]
    decide
  unfold Output.fadeEnded
  split
  swap
  · exact Took.refl h
  unfold Output.fadeComplete
  split
  · -- fade up after fade down
    rename_i hmode
    have hbuf : s.outputbuf = s.outputbuf.taken 0 := (Buffer.taken_zero h.wf).symm
    refine ⟨?_, hbuf, rfl, rfl, fun hoff => absurd hoff hon, fun hcross => ?_,
      fun _ => ⟨0, rfl, .inl rfl⟩⟩
    · refine h.moved (Nat.dvd_zero _) hbuf h.trackStart h.readp ?_
      exact h.dvd_afterPtr h.readp (Grid.dvd_durBytes s)
    · rw [hmode.1] at hcross
      cases hcross
  split
  · rename_i hcross
    split
    · -- the frames of the crossfade are skipped
      rename_i hused
      have hle : s.durBytes ≤ s.outputbuf.size :=
        Nat.le_trans hused (Nat.le_of_lt h.wf.used_lt)
      have hbuf := Buffer.bufIncReadp_eq h.wf hle
      refine ⟨?_, hbuf, rfl, rfl, fun _ => rfl, fun _ => ⟨rfl, rfl⟩,
        fun _ => ⟨s.durBytes, (Nat.zero_add _).symm, .inr ⟨rfl, hcross, hon, rfl⟩⟩⟩
      exact h.moved (Grid.dvd_durBytes s) hbuf h.trackStart h.fadeStart h.fadeEnd
    · exact Took.still h rfl rfl rfl rfl (fun _ hp => hp) rfl rfl rfl fun _ => rfl
  · exact Took.still h rfl rfl rfl rfl (fun _ hp => hp) rfl rfl rfl fun _ => rfl

variable (toGain) in
theorem took_fadeGains (x : Playing) (h : Grid x.out) (cur dur : ℕ) :
    Took full x.out (Playing.fadeGains toGain x cur dur).out [] := by
  unfold Playing.fadeGains
  split
  · exact Took.refl h
  · exact Took.refl h
  · split
    · exact Took.refl h
    · exact Took.still h rfl rfl rfl rfl (fun _ hp => hp) rfl rfl rfl fun _ => rfl

variable (toGain) (full) in
/-- An active fade leaves a frame of the chunk, where there is one. -/
theorem took_fadeActive (x : Playing) (h : Grid x.out) (hactive : x.out.fade = .active)
    (cont : ℕ) :
    Took full x.out (Playing.fadeActive toGain x cont).1.out
        (Playing.fadeActive toGain x cont).2.2 ∧
      (0 < cont → 0 < (Playing.fadeActive toGain x cont).2.1) := by
  have hended : Took full x.out x.out.fadeEnded.1 x.out.fadeEnded.2 := took_fadeEnded h hactive
  unfold Playing.fadeActive
  split
  · exact ⟨hended, id⟩
  · constructor
    · have hgains := hended.trans (took_fadeGains toGain
        { x with out := x.out.fadeEnded.1 } hended.grid
        (if x.out.curFrames ≥ x.out.durFrames then 0 else x.out.curFrames) x.out.durFrames)
      rwa [List.append_nil] at hgains
    · intro hcont
      show 0 < x.out.fadeEnded.1.contInFade cont
      unfold Output.contInFade
      split
      · rename_i hahead
        exact Nat.lt_min.mpr ⟨hcont, Grid.ahead_pos hended.grid.fadeEnd hended.grid.readp hahead⟩
      · exact hcont

variable (toGain) (full) in
/-- So does a fade that is due, or none. -/
theorem took_fadeChunk {x : Playing} (h : Grid x.out) (cont : ℕ) :
    Took full x.out (Playing.fadeChunk toGain x cont).1.out
        (Playing.fadeChunk toGain x cont).2.2 ∧
      (0 < cont → 0 < (Playing.fadeChunk toGain x cont).2.1) := by
  have hreached : Took full x.out x.out.fadeReached [] := took_fadeReached h
  have hbefore : 0 < cont → 0 < x.out.contBeforeFade cont := by
    intro hcont
    unfold Output.contBeforeFade
    split
    · rename_i hahead
      exact Nat.lt_min.mpr ⟨hcont, Grid.ahead_pos h.fadeStart h.readp hahead.2⟩
    · exact hcont
  unfold Playing.fadeChunk
  split
  · rename_i hactive
    obtain ⟨htook, hcont⟩ := took_fadeActive toGain full
      { x with out := x.out.fadeReached } hreached.grid hactive (x.out.contBeforeFade cont)
    exact ⟨hreached.trans htook, fun hpos => hcont (hbefore hpos)⟩
  · exact ⟨hreached, hbefore⟩

/-- What the log of a chunk amounts to. -/
theorem totals_written (x : Playing) (frames n : ℕ) :
    total OutputObs.bytes [Playing.writeCall false x frames, .consume n] = n ∧
      total OutputObs.given [Playing.writeCall false x frames, .consume n] = frames ∧
      total OutputObs.loud [Playing.writeCall false x frames, .consume n] = frames := by
  simp [Playing.writeCall, OutputObs.bytes, OutputObs.given, OutputObs.loud]

/-- A chunk that is written is taken out. -/
theorem took_writeChunk {answer : ℤ} {x : Playing} {cont : ℕ} (h : Grid x.out)
    (hcont : cont * BYTES_PER_FRAME ≤ x.out.outputbuf.size)
    (hfull : full → (x.size : ℤ) ≤ answer) :
    Took full x.out (Playing.writeChunk false answer x cont).1.out
      (Playing.writeChunk false answer x cont).2.1 := by
  have hframes : Playing.outFrames false x cont = min x.size cont := rfl
  unfold Playing.writeChunk
  rw [hframes]
  split
  · rename_i hnone
    refine ⟨h, (Buffer.taken_zero h.wf).symm, rfl, rfl, id, fun _ => ⟨rfl, rfl⟩, fun hf => ?_⟩
    -- nothing is written only where nothing is given
    have hans := hfull hf
    have hzero : min x.size cont = 0 := by
      unfold Playing.wrote at hnone
      omega
    exact ⟨0, by rw [hzero]; rfl, .inl rfl⟩
  · rw [if_neg Bool.false_ne_true]
    have hle : Playing.wrote answer (min x.size cont) * BYTES_PER_FRAME ≤
        x.out.outputbuf.size := by
      refine Nat.le_trans (Nat.mul_le_mul_right _ ?_) hcont
      exact Nat.le_trans (wrote_le _ _) (Nat.min_le_right _ _)
    have hbuf := Buffer.bufIncReadp_eq h.wf hle
    obtain ⟨hbytes, hgiven, hloud⟩ := totals_written x (min x.size cont)
      (Playing.wrote answer (min x.size cont) * BYTES_PER_FRAME)
    refine ⟨?_, by rw [hbytes]; exact hbuf, hgiven.trans hloud.symm, rfl, id,
      fun _ => ⟨rfl, rfl⟩, fun hf => ?_⟩
    · exact h.moved (Nat.dvd_mul_left _ _) hbuf h.trackStart h.fadeStart h.fadeEnd
    · have hans := hfull hf
      have hall : Playing.wrote answer (min x.size cont) = min x.size cont := by
        unfold Playing.wrote
        omega
      exact ⟨0, by rw [hbytes, hloud, hall, Nat.add_zero], .inl rfl⟩

/-- A track start takes nothing. -/
theorem took_startTrack (h : Grid s) (now : ℕ) :
    Took full s (s.startTrack now).1 (s.startTrack now).2 := by
  unfold Output.startTrack
  split
  · exact Took.still h rfl rfl rfl rfl (fun _ hp => hp) rfl rfl rfl id
  · exact Took.still h rfl rfl rfl rfl (fun _ hp => (nomatch hp)) rfl rfl rfl id

variable (toGain) in
/-- A round of the loop that is not silent. -/
theorem took_round {answer : ℤ} {x : Playing} (now : ℕ) (h : Grid x.out)
    (hfull : full → (x.size : ℤ) ≤ answer) :
    Took full x.out (Playing.round toGain false now answer x).1.out
      (Playing.round toGain false now answer x).2.1 := by
  unfold Playing.round
  rw [if_neg Bool.false_ne_true]
  split
  · exact took_startTrack h now
  · obtain ⟨htook, -⟩ := took_fadeChunk toGain full h x.out.contFrames
    obtain ⟨hsize, hfade⟩ := fadeChunk_cases toGain x x.out.contFrames
    refine htook.trans (took_writeChunk htook.grid ?_ (by rw [hsize]; exact hfull))
    rw [htook.outputbuf]
    refine Nat.le_trans (Nat.mul_le_mul_right _ ?_) (contFrames_le h.wf)
    rcases hfade with ⟨hle, -⟩ | ⟨-, heq, -⟩
    · exact hle
    · exact Nat.le_of_eq heq

theorem size_writeChunk_le (silence : Bool) (answer : ℤ) (x : Playing) (cont : ℕ) :
    (Playing.writeChunk silence answer x cont).1.size ≤ x.size := by
  unfold Playing.writeChunk
  split
  · exact Nat.le_refl _
  split
  · exact Nat.sub_le _ _
  · exact Nat.sub_le _ _

variable (toGain) in
theorem size_round_le (silence : Bool) (now : ℕ) (answer : ℤ) (x : Playing) :
    (Playing.round toGain silence now answer x).1.size ≤ x.size := by
  unfold Playing.round
  split
  · exact size_writeChunk_le _ _ _ _
  split
  · exact Nat.le_refl _
  · obtain ⟨hsize, -⟩ := fadeChunk_cases toGain x x.out.contFrames
    rw [← hsize]
    exact size_writeChunk_le _ _ _ _

variable (toGain) (full) in
theorem took_loop (now fuel : ℕ) (answers : ℕ → ℤ) (x : Playing) (h : Grid x.out)
    (hfull : full → ∀ i, (x.size : ℤ) ≤ answers i) :
    Took full x.out (Playing.loop toGain false now fuel answers x).1.out
      (Playing.loop toGain false now fuel answers x).2 := by
  induction fuel generalizing answers x with
  | zero => exact Took.refl h
  | succ fuel ih =>
      rw [Playing.loop]
      split
      · exact Took.refl h
      · have hround := took_round toGain now h fun hf => hfull hf 0
        by_cases hmore : (Playing.round toGain false now (answers 0) x).2.2 = true
        · simp only [if_pos hmore]
          refine hround.trans (ih _ _ hround.grid fun hf i => ?_)
          have hle := size_round_le toGain false now (answers 0) x
          exact Int.le_trans (Int.ofNat_le.mpr hle) (hfull hf (i + 1))
        · simp only [if_neg hmore]
          exact hround

/-! ### What is counted -/

/-- A `write_cb` that writes all it is given leaves the chunk short by what it was given, or was
given nothing. -/
theorem count_writeChunk (silence : Bool) (answer : ℤ) (x : Playing) (cont : ℕ)
    (hpos : 0 < x.size) (hans : (x.size : ℤ) ≤ answer) :
    ((Playing.writeChunk silence answer x cont).2.2 = true ∧
        (Playing.writeChunk silence answer x cont).1.frames = x.frames ∧
        (Playing.writeChunk silence answer x cont).1.size +
          total OutputObs.given (Playing.writeChunk silence answer x cont).2.1 = x.size ∧
        (Playing.writeChunk silence answer x cont).1.size < x.size) ∨
      ((Playing.writeChunk silence answer x cont).2.2 = false ∧
        (Playing.writeChunk silence answer x cont).1.frames = x.frames - x.size ∧
        total OutputObs.given (Playing.writeChunk silence answer x cont).2.1 = 0) := by
  have hle : Playing.outFrames silence x cont ≤ x.size := by
    unfold Playing.outFrames
    split <;> omega
  have hall : Playing.wrote answer (Playing.outFrames silence x cont) =
      Playing.outFrames silence x cont := by
    unfold Playing.wrote
    omega
  unfold Playing.writeChunk
  rw [hall]
  split
  · rename_i hnone
    exact .inr ⟨rfl, rfl, by simp [Playing.writeCall, OutputObs.given, hnone]⟩
  split
  · refine .inl ⟨rfl, rfl, ?_, ?_⟩
    · simp only [Playing.writeCall, OutputObs.given, Runs.total_cons, Runs.total_nil]
      omega
    · show x.size - _ < x.size
      omega
  · refine .inl ⟨rfl, rfl, ?_, ?_⟩
    · simp only [Playing.writeCall, OutputObs.given, Runs.total_cons, Runs.total_nil]
      omega
    · show x.size - _ < x.size
      omega

theorem frames_fadeGains (x : Playing) (cur dur : ℕ) :
    (Playing.fadeGains toGain x cur dur).frames = x.frames := by
  unfold Playing.fadeGains
  split
  · rfl
  · rfl
  · split <;> rfl

variable (toGain) in
theorem frames_fadeChunk (x : Playing) (cont : ℕ) :
    (Playing.fadeChunk toGain x cont).1.frames = x.frames := by
  unfold Playing.fadeChunk
  split
  · unfold Playing.fadeActive
    split
    · rfl
    · exact frames_fadeGains _ _ _
  · rfl

variable (toGain) in
theorem count_round (silence : Bool) (now : ℕ) {answer : ℤ} {x : Playing} (hpos : 0 < x.size)
    (hans : (x.size : ℤ) ≤ answer) :
    ((Playing.round toGain silence now answer x).2.2 = true ∧
        (Playing.round toGain silence now answer x).1.frames = x.frames ∧
        (Playing.round toGain silence now answer x).1.size +
          total OutputObs.given (Playing.round toGain silence now answer x).2.1 = x.size ∧
        (Playing.round toGain silence now answer x).1.size < x.size) ∨
      ((Playing.round toGain silence now answer x).2.2 = false ∧
        (Playing.round toGain silence now answer x).1.frames = x.frames - x.size ∧
        total OutputObs.given (Playing.round toGain silence now answer x).2.1 = 0) := by
  unfold Playing.round
  split
  · rename_i hsilent
    rw [hsilent]
    exact count_writeChunk true _ _ _ hpos hans
  split
  · refine .inr ⟨rfl, rfl, ?_⟩
    unfold Output.startTrack
    split <;> rfl
  · rename_i hloud _
    obtain rfl : silence = false := Bool.eq_false_iff.mpr hloud
    obtain ⟨hsize, hfade⟩ := fadeChunk_cases toGain x x.out.contFrames
    have hgiven : total OutputObs.given (Playing.fadeChunk toGain x x.out.contFrames).2.2 = 0 := by
      rcases hfade with ⟨-, hobs, -⟩ | ⟨-, -, hobs, -⟩
      · rw [hobs]
        rfl
      · rw [hobs]
        rfl
    have hframes : (Playing.fadeChunk toGain x x.out.contFrames).1.frames = x.frames :=
      frames_fadeChunk toGain x x.out.contFrames
    have hchunk := count_writeChunk false answer
      (Playing.fadeChunk toGain x x.out.contFrames).1 (Playing.fadeChunk toGain x x.out.contFrames).2.1
      (by rw [hsize]; exact hpos) (by rw [hsize]; exact hans)
    simp only [Runs.total_append, hgiven, Nat.zero_add]
    rw [hsize, hframes] at hchunk
    exact hchunk

variable (toGain) in
/-- The frames that are returned are those that were given to `write_cb`. -/
theorem count_loop (silence : Bool) (now fuel : ℕ) (answers : ℕ → ℤ) (x : Playing)
    (hfuel : x.size ≤ fuel) (hframes : x.size ≤ x.frames)
    (hans : ∀ i, (x.size : ℤ) ≤ answers i) :
    (Playing.loop toGain silence now fuel answers x).1.frames + x.size =
        x.frames + total OutputObs.given (Playing.loop toGain silence now fuel answers x).2 ∧
      total OutputObs.given (Playing.loop toGain silence now fuel answers x).2 ≤ x.size := by
  induction fuel generalizing answers x with
  | zero =>
      have hzero : x.size = 0 := Nat.le_zero.mp hfuel
      rw [hzero]
      exact ⟨rfl, Nat.le_refl _⟩
  | succ fuel ih =>
      rw [Playing.loop]
      split
      · rename_i hzero
        rw [hzero]
        exact ⟨rfl, Nat.le_refl _⟩
      · rename_i hgo
        rcases count_round toGain silence now (Nat.pos_of_ne_zero hgo) (hans 0) with
          ⟨hmore, hkeep, hsum, hlt⟩ | ⟨hstop, hcut, hgiven⟩
        · simp only [if_pos hmore, Runs.total_append]
          obtain ⟨hrest, hle⟩ := ih (fun i => answers (i + 1))
            (Playing.round toGain silence now (answers 0) x).1 (by omega) (by omega) fun i => by
              have hi := hans (i + 1)
              omega
          constructor <;> omega
        · simp only [hstop, Bool.false_eq_true, if_false, hcut, hgiven]
          constructor <;> omega

variable (toGain) in
/-- Silence takes nothing. -/
theorem bytes_silent (now fuel : ℕ) (answers : ℕ → ℤ) (x : Playing) :
    total OutputObs.bytes (Playing.loop toGain true now fuel answers x).2 = 0 ∧
      total OutputObs.loud (Playing.loop toGain true now fuel answers x).2 = 0 := by
  have hround : ∀ answer : ℤ, ∀ y : Playing,
      total OutputObs.bytes (Playing.round toGain true now answer y).2.1 = 0 ∧
        total OutputObs.loud (Playing.round toGain true now answer y).2.1 = 0 := by
    intro answer y
    show total _ (Playing.writeChunk true answer y _).2.1 = 0 ∧
      total _ (Playing.writeChunk true answer y _).2.1 = 0
    unfold Playing.writeChunk
    split
    · exact ⟨rfl, rfl⟩
    · rw [if_pos rfl]
      exact ⟨rfl, rfl⟩
  induction fuel generalizing answers x with
  | zero => exact ⟨rfl, rfl⟩
  | succ fuel ih =>
      rw [Playing.loop]
      split
      · exact ⟨rfl, rfl⟩
      · obtain ⟨hbytes, hloud⟩ := hround (answers 0) x
        by_cases hmore : (Playing.round toGain true now (answers 0) x).2.2 = true
        · obtain ⟨hbytes', hloud'⟩ := ih (fun i => answers (i + 1))
            (Playing.round toGain true now (answers 0) x).1
          simp only [if_pos hmore, Runs.total_append, hbytes, hloud, hbytes', hloud', and_self]
        · simp only [if_neg hmore]
          exact ⟨hbytes, hloud⟩

end SqueezeliteMuse
