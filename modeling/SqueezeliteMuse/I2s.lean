/-
SqueezeliteMuse/I2s.lean

The output thread of output_i2s.c: how many frames it asks for, and what it drops.

Each iteration asks `_output_frames` for `iframes` frames, which `_i2s_write_frames` copies to
`obuf` one behind the other, and sends them; or it drops them.  In START_AT, what is estimated to
be in the DMA buffers is to be dropped (`discard`), but not when resuming.  `discard` is an `int`,
`iframes` and `device_frames` are unsigned: all are words of 32 bits here.  `_output_frames` is the
one of `Output`, from any state of the output, which the controller and the decoder may change
between two iterations.

`watchI2s` is what is required of it: between 1 and `FRAME_BLOCK` frames are asked for, nothing is
copied beyond `obuf`, the estimate is not beyond the DMA buffers, and what is to be dropped is
dropped, no more and no less, before the next frames are sent.

Main result: `i2s_drops`: it is so in every run in which the estimate does not go below 0, and
no more frames are dropped at once than are to be dropped.
-/
import SqueezeliteMuse.OutputAccount

namespace SqueezeliteMuse

open Runs (total)

/-! ### The code -/

/-- `FRAME_BLOCK` -/
def FRAME_BLOCK : ℕ := MAX_SILENCE_FRAMES

/-- `DMA_BUF_LEN` -/
def DMA_BUF_LEN : ℕ := 512

/-- `DMA_BUF_COUNT` -/
def DMA_BUF_COUNT : ℕ := 12

/-- `dma_buf_frames`: with an spdif output there are more buffers, of half the length, and a frame
takes twice the space. -/
def dmaBufFrames (spdif : Bool) : ℕ :=
  if spdif then DMA_BUF_COUNT * DMA_BUF_LEN / 2 else DMA_BUF_COUNT * DMA_BUF_LEN

/-- The variables of `output_thread_i2s`. -/
structure I2sThread where
  spdif : Bool
  iframes : BitVec 32
  discard : BitVec 32
  fullness : BitVec 32

/-- An iteration: the output when it is locked, the time then, the time for `_output_frames`, and
the time when all is sent. -/
structure I2sIteration where
  output : Output
  updated : BitVec 32
  now : ℕ
  sent : BitVec 32

/-- What can be seen of the thread. -/
inductive I2sObs
  /-- frames are asked for, with the estimate of what is in the DMA buffers -/
  | ask (iframes deviceFrames : ℕ)
  /-- frames are copied to `obuf`, behind so many -/
  | copy (oframes frames : ℕ)
  /-- what is in the pipe in START_AT, and the frames sent then -/
  | startAt (inPipe frames : ℕ)
  | drop (frames : ℕ)
  | send (frames : ℕ)
  deriving DecidableEq

/-- The frames of a call of `write_cb`. -/
def OutputObs.called : OutputObs → Option ℕ
  | .write frames .. => some frames
  | _ => none

/-- `_i2s_write_frames`, one call after the other. -/
def i2sWriteFrames (oframes : ℕ) : List ℕ → List I2sObs
  | [] => []
  | frames :: calls => .copy oframes frames :: i2sWriteFrames (oframes + frames) calls

namespace I2sThread

/-- `_output_frames(iframes)`, whose `write_cb` takes all it is given. -/
def frames (toGain : ℕ → ℕ → ℤ) (t : I2sThread) (e : I2sIteration) :
    Output × ℕ × List OutputObs :=
  e.output.outputFrames toGain t.iframes.toNat e.now fun _ => t.iframes.toNat

/-- `oframes` after it. -/
def oframes (toGain : ℕ → ℕ → ℤ) (t : I2sThread) (e : I2sIteration) : ℕ :=
  total OutputObs.given (t.frames toGain e).2.2

/-- The frames that are estimated to be consumed from the DMA buffers. -/
def consumed (t : I2sThread) (e : I2sIteration) : BitVec 32 :=
  (e.updated - t.fullness) * BitVec.ofNat 32 e.output.currentSampleRate / 1000#32

/-- `output.device_frames` -/
def deviceFrames (t : I2sThread) (e : I2sIteration) : BitVec 32 :=
  BitVec.ofNat 32 (dmaBufFrames t.spdif) - t.consumed e

/-- What is to be discarded in START_AT: whatever is in the pipe, but not when resuming. -/
def inPipe (t : I2sThread) (e : I2sIteration) : BitVec 32 :=
  if e.output.framesPlayed ≠ 0 then 0 else t.deviceFrames e

/-- `discard ? min(FRAME_BLOCK, discard) : FRAME_BLOCK` -/
def nextFrames (discard : BitVec 32) : BitVec 32 :=
  if discard ≠ 0 then
    if (FRAME_BLOCK : ℤ) < discard.toInt then BitVec.ofNat 32 FRAME_BLOCK else discard
  else BitVec.ofNat 32 FRAME_BLOCK

/-- An iteration of `output_thread_i2s`. -/
def iterate (toGain : ℕ → ℕ → ℤ) (t : I2sThread) (e : I2sIteration) : I2sThread × List I2sObs :=
  if e.output.state = .off then (t, [])
  else
    let asked := .ask t.iframes.toNat (t.deviceFrames e).toNat ::
      i2sWriteFrames 0 ((t.frames toGain e).2.2.filterMap OutputObs.called)
    let oframes := t.oframes toGain e
    if (t.frames toGain e).1.state = .startAt then
      ({ t with discard := t.inPipe e, fullness := e.sent },
        asked ++ [.startAt (t.inPipe e).toNat oframes])
    else if t.discard ≠ 0 then
      ({ t with
          discard := t.discard - BitVec.ofNat 32 oframes
          iframes := nextFrames (t.discard - BitVec.ofNat 32 oframes) },
        asked ++ [.drop oframes])
    else ({ t with fullness := e.sent }, asked ++ [.send oframes])

end I2sThread

/-- The thread, from its start. -/
def i2sStart (spdif : Bool) (started : BitVec 32) : I2sThread where
  spdif := spdif
  iframes := BitVec.ofNat 32 FRAME_BLOCK
  discard := 0
  fullness := started

/-- `output_thread_i2s` -/
def i2sMachine (toGain : ℕ → ℕ → ℤ) : Runs.Machine I2sThread I2sIteration I2sObs where
  step := I2sThread.iterate toGain

/-! ### What is required -/

/-- The observer: how many frames are to be dropped yet. -/
def watchI2s (dma : ℕ) : ℕ → I2sObs → Option ℕ
  | owed, .ask iframes deviceFrames =>
      if 1 ≤ iframes ∧ iframes ≤ FRAME_BLOCK ∧ deviceFrames ≤ dma then some owed else none
  | owed, .copy oframes frames => if oframes + frames ≤ FRAME_BLOCK then some owed else none
  | _, .startAt inPipe _ => some inPipe
  | owed, .drop frames => if frames ≤ owed then some (owed - frames) else none
  | owed, .send _ => if owed = 0 then some 0 else none

/-- The estimate does not go below 0, and no more is dropped than is to be dropped. -/
def I2sKeeps (toGain : ℕ → ℕ → ℤ) (t : I2sThread) (e : I2sIteration) : Prop :=
  e.output.state ≠ .off →
    (t.consumed e).toNat ≤ dmaBufFrames t.spdif ∧
      ((t.frames toGain e).1.state ≠ .startAt → t.discard ≠ 0 →
        t.oframes toGain e ≤ t.discard.toNat)

instance (toGain : ℕ → ℕ → ℤ) (t : I2sThread) (e : I2sIteration) :
    Decidable (I2sKeeps toGain t e) := inferInstanceAs (Decidable (_ → _ ∧ (_ → _ → _)))

/-! ### Words -/

section Words

theorem dmaBufFrames_le (spdif : Bool) : dmaBufFrames spdif ≤ 6144 := by
  cases spdif <;> decide

variable {t : I2sThread} {e : I2sIteration}

/-- Without a borrow the estimate is what it is to be. -/
theorem deviceFrames_toNat (h : (t.consumed e).toNat ≤ dmaBufFrames t.spdif) :
    (t.deviceFrames e).toNat = dmaBufFrames t.spdif - (t.consumed e).toNat := by
  have hle := dmaBufFrames_le t.spdif
  have hofNat : (BitVec.ofNat 32 (dmaBufFrames t.spdif)).toNat = dmaBufFrames t.spdif := by
    rw [BitVec.toNat_ofNat, Nat.mod_eq_of_lt (by omega)]
  rw [I2sThread.deviceFrames, BitVec.toNat_sub_of_le, hofNat]
  rw [BitVec.le_def, hofNat]
  exact h

theorem inPipe_le (h : (t.consumed e).toNat ≤ dmaBufFrames t.spdif) :
    (t.inPipe e).toNat ≤ dmaBufFrames t.spdif := by
  have hdevice := deviceFrames_toNat h
  unfold I2sThread.inPipe
  split
  · exact Nat.zero_le _
  · omega

theorem toNat_discard {d : BitVec 32} {n : ℕ} (h : n ≤ d.toNat) :
    (d - BitVec.ofNat 32 n).toNat = d.toNat - n := by
  have hlt := d.isLt
  have hofNat : (BitVec.ofNat 32 n).toNat = n := by
    rw [BitVec.toNat_ofNat, Nat.mod_eq_of_lt (by omega)]
  rw [BitVec.toNat_sub_of_le, hofNat]
  rw [BitVec.le_def, hofNat]
  exact h

/-- The next frames are a block, or what is left to be discarded. -/
theorem nextFrames_range {d : BitVec 32} (h : d.toNat ≤ 6144) :
    1 ≤ (I2sThread.nextFrames d).toNat ∧ (I2sThread.nextFrames d).toNat ≤ FRAME_BLOCK := by
  have hblock : (BitVec.ofNat 32 FRAME_BLOCK).toNat = FRAME_BLOCK := by decide
  have hvalue : FRAME_BLOCK = 2048 := rfl
  have hint : d.toInt = d.toNat := BitVec.toInt_eq_toNat_of_lt (by omega)
  unfold I2sThread.nextFrames
  split
  · rename_i hne
    have hpos : d.toNat ≠ 0 := fun hzero => hne (BitVec.eq_of_toNat_eq hzero)
    split
    · rw [hblock]
      omega
    · omega
  · rw [hblock]
    omega

end Words

/-! ### The frames of an iteration -/

section Frames

theorem skipLoop_given (fuel : ℕ) : ∀ {skip : ℕ} {b : Buffer},
    total OutputObs.given (skipLoop fuel skip b).2 = 0 := by
  induction fuel with
  | zero => exact rfl
  | succ fuel ih =>
    intro skip b
    unfold skipLoop
    split
    · rfl
    · rw [Runs.total_cons, ih]
      rfl

theorem skipAhead_given (s : Output) (frames : ℕ) :
    total OutputObs.given (s.skipAhead frames).2 = 0 := by
  unfold Output.skipAhead
  split
  · exact skipLoop_given _
  · rfl

variable (toGain : ℕ → ℕ → ℤ)

/-- `_output_frames` gives no more to `write_cb` than it is asked for. -/
theorem given_le (s : Output) (avail now : ℕ) :
    total OutputObs.given (s.outputFrames toGain avail now fun _ => avail).2.2 ≤ avail := by
  have hle : (s.beginFrames avail now).2.1 ≤ avail := Nat.min_le_right _ _
  let x := s.playing (s.beginFrames avail now).1 (s.beginFrames avail now).2.1
  obtain ⟨-, hgiven⟩ := count_loop toGain (s.beginFrames avail now).2.2 now
    (s.beginFrames avail now).2.1 (fun _ => avail) x (Nat.le_refl _) (Nat.le_refl _)
    (fun _ => Int.ofNat_le.mpr hle)
  show total OutputObs.given (_ ++ (Playing.loop toGain _ now _ _ x).2) ≤ avail
  rw [Runs.total_append, skipAhead_given, Nat.zero_add]
  exact Nat.le_trans hgiven hle

theorem oframes_le (t : I2sThread) (e : I2sIteration) :
    t.oframes toGain e ≤ t.iframes.toNat := given_le toGain e.output t.iframes.toNat e.now

/-- What is copied ends where the frames end. -/
theorem watch_copies (dma owed : ℕ) (log : List OutputObs) : ∀ {oframes : ℕ},
    oframes + total OutputObs.given log ≤ FRAME_BLOCK →
    Runs.watch (watchI2s dma) owed (i2sWriteFrames oframes (log.filterMap OutputObs.called)) =
      some owed := by
  induction log with
  | nil => exact fun _ => rfl
  | cons o log ih =>
    intro oframes h
    rw [Runs.total_cons] at h
    have hrest : ∀ n, n ≤ o.given → oframes + n + total OutputObs.given log ≤ FRAME_BLOCK :=
      fun n hn => by omega
    cases o with
    | write frames =>
      have hcopy : watchI2s dma owed (.copy oframes frames) = some owed :=
        if_pos (by have := hrest frames (Nat.le_refl _); omega)
      rw [List.filterMap_cons_some (by rfl), i2sWriteFrames, Runs.watch_cons, hcopy]
      exact ih (hrest frames (Nat.le_refl _))
    | publish => exact ih (hrest 0 (Nat.zero_le _))
    | consume => exact ih (hrest 0 (Nat.zero_le _))
    | signal => exact ih (hrest 0 (Nat.zero_le _))
    | flush => exact ih (hrest 0 (Nat.zero_le _))

end Frames

/-! ### The thread -/

section Thread

variable (toGain : ℕ → ℕ → ℤ)

/-- What holds between two iterations; `owed` frames are to be dropped yet. -/
structure I2sThread.Due (spdif : Bool) (t : I2sThread) (owed : ℕ) : Prop where
  same : t.spdif = spdif
  least : 1 ≤ t.iframes.toNat
  most : t.iframes.toNat ≤ FRAME_BLOCK
  left : t.discard.toNat = owed
  pipe : owed ≤ dmaBufFrames spdif

/-- The part of an iteration before the frames are sent or dropped. -/
theorem watch_asked {spdif : Bool} {t : I2sThread} {e : I2sIteration} {owed : ℕ}
    (h : t.Due spdif owed) (hkeeps : (t.consumed e).toNat ≤ dmaBufFrames t.spdif) :
    Runs.watch (watchI2s (dmaBufFrames spdif)) owed
      (.ask t.iframes.toNat (t.deviceFrames e).toNat ::
        i2sWriteFrames 0 ((t.frames toGain e).2.2.filterMap OutputObs.called)) = some owed := by
  have hdevice := deviceFrames_toNat hkeeps
  have hframes : t.oframes toGain e ≤ t.iframes.toNat := oframes_le toGain t e
  have hmost := h.most
  have hask : watchI2s (dmaBufFrames spdif) owed
      (.ask t.iframes.toNat (t.deviceFrames e).toNat) = some owed :=
    if_pos ⟨h.least, h.most, by rw [hdevice, h.same]; exact Nat.sub_le _ _⟩
  have hroom : 0 + total OutputObs.given (t.frames toGain e).2.2 ≤ FRAME_BLOCK := by
    show 0 + t.oframes toGain e ≤ FRAME_BLOCK
    omega
  have hcopies := watch_copies (dmaBufFrames spdif) owed (t.frames toGain e).2.2 hroom
  rw [Runs.watch_cons, hask, Option.bind_some, hcopies]

/-- An iteration. -/
theorem iterate_watched {spdif : Bool} (t : I2sThread) (owed : ℕ) (e : I2sIteration)
    (h : t.Due spdif owed) (hkeeps : I2sKeeps toGain t e) :
    ∃ owed', Runs.watch (watchI2s (dmaBufFrames spdif)) owed (t.iterate toGain e).2 =
      some owed' ∧ (t.iterate toGain e).1.Due spdif owed' := by
  by_cases hoff : e.output.state = .off
  · rw [I2sThread.iterate, if_pos hoff]
    exact ⟨owed, rfl, h⟩
  obtain ⟨hestimate, hdrop⟩ := hkeeps hoff
  have hasked := watch_asked toGain h hestimate
  obtain ⟨hspdif, hleast, hmost, howed, hpipe⟩ := h
  rw [I2sThread.iterate, if_neg hoff]
  dsimp only
  by_cases hstart : (t.frames toGain e).1.state = .startAt
  · rw [if_pos hstart]
    refine ⟨(t.inPipe e).toNat, ?_, hspdif, hleast, hmost, rfl, ?_⟩
    · rw [Runs.watch_append, hasked]
      rfl
    · rw [← hspdif]
      exact inPipe_le hestimate
  rw [if_neg hstart]
  by_cases hdiscard : t.discard ≠ 0
  · have hle := hdrop hstart hdiscard
    have hleft := toNat_discard hle
    have hbound := dmaBufFrames_le spdif
    rw [if_pos hdiscard]
    refine ⟨owed - t.oframes toGain e, ?_, hspdif, ?_, ?_, by rw [← howed]; exact hleft, by omega⟩
    · have hwatch : watchI2s (dmaBufFrames spdif) owed (.drop (t.oframes toGain e)) =
          some (owed - t.oframes toGain e) := if_pos (by omega)
      rw [Runs.watch_append, hasked, Option.bind_some, Runs.watch_cons, hwatch]
      rfl
    · exact (nextFrames_range (by omega)).1
    · exact (nextFrames_range (by omega)).2
  · have hzero : t.discard = 0 := Decidable.not_not.mp hdiscard
    have hnone : owed = 0 := by
      rw [← howed, hzero]
      rfl
    subst hnone
    rw [if_neg hdiscard]
    refine ⟨0, ?_, hspdif, hleast, hmost, howed, hpipe⟩
    rw [Runs.watch_append, hasked]
    rfl

/-- In every run in which the estimate of what is in the DMA buffers does not go below 0 and no
iteration drops more than is to be dropped, the thread asks for 1 to `FRAME_BLOCK` frames, stays
in `obuf`, and drops what was in the pipe in START_AT before it sends again. -/
theorem i2s_drops (spdif : Bool) (started : BitVec 32) (es : List I2sIteration)
    (h : (i2sMachine toGain).Along (I2sKeeps toGain) (i2sStart spdif started) es) :
    ∃ owed, Runs.watch (watchI2s (dmaBufFrames spdif)) 0
        ((i2sMachine toGain).run (i2sStart spdif started) es).2 = some owed ∧
      ((i2sMachine toGain).run (i2sStart spdif started) es).1.Due spdif owed :=
  (i2sMachine toGain).run_watched (fun t owed e => iterate_watched toGain t owed e)
    ⟨rfl, by show 1 ≤ (BitVec.ofNat 32 FRAME_BLOCK).toNat; decide, Nat.le_refl _, rfl,
      Nat.zero_le _⟩ h

end Thread

/-- An output that is to start at a time, of which nothing has been played. -/
def waiting : Output :=
  { outputInit ⟨0, fun _ => 0⟩ 64 44100 0 false with state := .startAt, pauseFrames := 100 }

/-- An output that runs, and has nothing to play but silence. -/
def running : Output := { outputInit ⟨0, fun _ => 0⟩ 64 44100 0 false with state := .running }

/-- In START_AT for so many milliseconds after the last frames were sent; then it starts. -/
def waited (elapsed : BitVec 32) : List I2sIteration :=
  [⟨waiting, elapsed, 0, elapsed⟩, ⟨running, elapsed, 100, elapsed⟩,
    ⟨running, elapsed, 100, elapsed⟩]

/-- After 10 milliseconds there are 5703 frames in the pipe, which are dropped block by block. -/
theorem i2s_drops_waited : ∃ owed, Runs.watch (watchI2s (dmaBufFrames false)) 0
      ((i2sMachine fun _ _ => 0).run (i2sStart false 0) (waited 10)).2 = some owed ∧
    ((i2sMachine fun _ _ => 0).run (i2sStart false 0) (waited 10)).1.Due false owed :=
  i2s_drops (fun _ _ => 0) false 0 (waited 10) (by decide)

/-- After 120 milliseconds there are 852, and 2048 are dropped at once. -/
theorem i2s_drops_too_much : Runs.watch (watchI2s (dmaBufFrames false)) 0
    ((i2sMachine fun _ _ => 0).run (i2sStart false 0) (waited 120)).2 = none := by
  decide

end SqueezeliteMuse
