/-
SqueezeliteMuse/Output.lean

The output of output.c: `outputbuf`, into which the decoder puts frames and out
of which `_output_frames` takes them, and the struct `output` that the decoder,
the output thread and the controller share.

Every section under `outputbuf->mutex` is one event, and so is every section
under `decode.mutex`; `output_flush`, which takes the mutex twice, is two.  The
decoder announces a track by `output.track_start`, an address in `outputbuf`,
and `_output_frames` compares it with `readp`.  What an observer sees is the
track starts that are announced (as the number of bytes of `outputbuf` before
them), the bytes taken out of `outputbuf`, and the track starts that are
signalled.

`write_cb` is an argument, one answer for each call, and so is `to_gain` of a
quotient of floats.  A `write_cb` writes at most the frames it is given.  What it
does with the samples is left out.  External sources (`output.external`) and DSD
are left out, and `decode_newstream` is taken to keep the mutex, as it does
when nothing is resampled.
-/
import SqueezeliteMuse.Lib.Runs
import SqueezeliteMuse.Buffer
import Mathlib.Data.Int.Notation

namespace SqueezeliteMuse

/-! ### The data -/

/-- `BYTES_PER_FRAME`, as the build sets it -/
def BYTES_PER_FRAME : ℕ := 4

/-- `OUTPUTBUF_SIZE` -/
def OUTPUTBUF_SIZE : ℕ := 1450 * 1024

/-- `OUTPUTBUF_SIZE_CROSSFADE` -/
def OUTPUTBUF_SIZE_CROSSFADE : ℕ := OUTPUTBUF_SIZE * 12 / 10

/-- `MAX_SILENCE_FRAMES` -/
def MAX_SILENCE_FRAMES : ℕ := 2048

/-- `FIXED_ONE` -/
def FIXED_ONE : ℤ := 0x10000

/-- `MAX_SCALESAMPLE` -/
def MAX_SCALESAMPLE : ℤ := 0x7fffffffffff

/-- `output_state` -/
inductive OutputState
  | off | stopped | buffer | running | pauseFrames | skipFrames | startAt
  deriving DecidableEq, Repr

/-- `state <= OUTPUT_BUFFER` -/
def OutputState.quiet : OutputState → Bool
  | .off | .stopped | .buffer => true
  | _ => false

/-- `fade_state` -/
inductive FadeState
  | inactive | due | active
  deriving DecidableEq, Repr

/-- `fade_dir` -/
inductive FadeDir
  | up | down | cross
  deriving DecidableEq, Repr

/-- `fade_mode` -/
inductive FadeMode
  | none | crossfade | fadeIn | fadeOut | inOut
  deriving DecidableEq, Repr

/-- `decode_state` -/
inductive DecodeState
  | stopped | ready | running | complete | error
  deriving DecidableEq, Repr

/-- Where the controller is in `decode_flush(); output_flush();`. -/
inductive FlushPhase
  | idle | decodeFlushed | bufFlushed
  deriving DecidableEq, Repr

/-- `struct outputstate`, with `outputbuf`, and `state` and `new_stream` of the decoder.
`pause_frames`, `skip_frames` and `start_at` are one union, `pauseFrames`. -/
structure Output where
  state : OutputState
  channels : ℕ
  trackStarted : Bool
  startFrames : ℕ
  framesPlayed : ℕ
  currentSampleRate : ℕ
  defaultSampleRate : ℕ
  errorOpening : Bool
  trackStartTime : ℕ
  currentReplayGain : ℤ
  pauseFrames : ℕ
  nextSampleRate : ℕ
  trackStart : Option ℕ
  gainL : ℤ
  gainR : ℤ
  invert : Bool
  nextReplayGain : ℤ
  threshold : ℕ
  fade : FadeState
  fadeStart : ℕ
  fadeEnd : ℕ
  fadeDir : FadeDir
  fadeMode : FadeMode
  fadeSecs : ℕ
  rateDelay : ℕ
  delayActive : Bool
  outputbuf : Buffer
  decodeState : DecodeState
  newStream : Bool
  flushPhase : FlushPhase

/-- What can be seen of the output. -/
inductive OutputObs
  /-- a track start is announced, `ahead` bytes after `readp`, with its sample rate -/
  | publish (ahead rate : ℕ)
  /-- so many bytes are taken out of `outputbuf` -/
  | consume (bytes : ℕ)
  /-- a track start is signalled: `track_started`, `frames_played`, `current_sample_rate` -/
  | signal (started : Bool) (played rate : ℕ)
  /-- a call of `write_cb` -/
  | write (frames : ℕ) (silence : Bool) (gainL gainR : ℤ) (flags : ℕ)
      (crossGainIn crossGainOut : ℤ) (crossPtr : ℕ)
  /-- `outputbuf` is flushed -/
  | flush
  deriving DecidableEq

/-- `gain` -/
def gain (gain sample : ℤ) : ℤ :=
  max (min (gain * sample) MAX_SCALESAMPLE) (-MAX_SCALESAMPLE) / 0x10000

/-- The skip-ahead loop of `_output_frames`: the buffer it leaves, and each advance of `readp`. -/
def skipLoop : ℕ → ℕ → Buffer → Buffer × List OutputObs
  | 0, _, b => (b, [])
  | fuel + 1, skip, b =>
      if skip = 0 then (b, [])
      else
        let cont := min skip (bufContRead b / BYTES_PER_FRAME)
        ((skipLoop fuel (skip - cont) (bufIncReadp b (cont * BYTES_PER_FRAME))).1,
          .consume (cont * BYTES_PER_FRAME) ::
            (skipLoop fuel (skip - cont) (bufIncReadp b (cont * BYTES_PER_FRAME))).2)

/-- A difference of two addresses in frames, as the `frames_t` it is used as. -/
def frameCount (d : ℤ) : ℕ := (d.tdiv BYTES_PER_FRAME % 2 ^ 32).toNat

namespace Output

/-! ### `_checkfade` -/

/-- The bytes of a fade, at the rate of the next track. -/
def fadeBytes (s : Output) : ℕ :=
  let bytes := s.nextSampleRate * BYTES_PER_FRAME * s.fadeSecs % 2 ^ 32
  if s.fadeMode = .inOut then bytes / 2 / BYTES_PER_FRAME * BYTES_PER_FRAME else bytes

/-- The bytes of a crossfade: max of current remaining samples from previous track, and of 90%
of outputbuf. -/
def crossBytes (s : Output) : ℕ :=
  min (min s.fadeBytes (bufUsed s.outputbuf)) (s.outputbuf.size * 9 / 10)

/-- `writep - bytes`, back into the buffer. -/
def beforeWritep (b : Buffer) (bytes : ℕ) : ℕ :=
  if b.writep < b.buf + bytes then b.writep + b.size - bytes else b.writep - bytes

/-- `p + bytes`, back into the buffer. -/
def afterPtr (b : Buffer) (p bytes : ℕ) : ℕ :=
  if p + bytes ≥ b.wrap then p + bytes - b.size else p + bytes

/-- `_checkfade(true)`, with what the calls of `malloc` in `_buf_resize` return. -/
def checkfadeStart (s : Output) (first second : Option Block) : Output :=
  if s.fadeMode = .fadeIn ∨ (s.fadeMode = .inOut ∧ bufUsed s.outputbuf = 0) then
    { s with
      fade := .due
      fadeDir := .up
      fadeStart := s.outputbuf.writep
      fadeEnd := afterPtr s.outputbuf s.outputbuf.writep
        (min s.fadeBytes (s.outputbuf.size - BYTES_PER_FRAME)) }
  else if s.fadeMode = .crossfade then
    if bufUsed s.outputbuf ≠ 0 then
      -- crossfade disabled if sample rates differ
      if s.nextSampleRate ≠ s.currentSampleRate then s
      else
        { s with
          fade := .due
          fadeDir := .cross
          fadeStart := beforeWritep s.outputbuf s.crossBytes
          fadeEnd := s.outputbuf.writep
          trackStart := some (beforeWritep s.outputbuf s.crossBytes) }
    else if s.outputbuf.size = OUTPUTBUF_SIZE ∧ s.outputbuf.readp = s.outputbuf.buf then
      { s with outputbuf := bufResize s.outputbuf OUTPUTBUF_SIZE_CROSSFADE first second }
    else s
  else s

/-- `_checkfade(false)` -/
def checkfadeEnd (s : Output) : Output :=
  if s.fadeMode = .fadeOut ∨ s.fadeMode = .inOut then
    { s with
      fade := .due
      fadeDir := .down
      fadeStart := beforeWritep s.outputbuf (min (bufUsed s.outputbuf) s.fadeBytes)
      fadeEnd := s.outputbuf.writep }
  else s

/-! ### `_output_frames`, before its loop -/

/-- Start when threshold met. -/
def startBuffer (s : Output) (frames : ℕ) : Output :=
  if s.state = .buffer ∧ frames * BYTES_PER_FRAME > s.threshold * s.nextSampleRate / 10 ∧
      frames > s.startFrames then
    { s with state := .running }
  else s

/-- The frames that skip ahead consumes. -/
def skipCount (s : Output) (frames : ℕ) : ℕ :=
  if s.state = .skipFrames then min frames s.pauseFrames else 0

/-- Skip ahead: consume outputbuf but play nothing. -/
def skipAhead (s : Output) (frames : ℕ) : Output × List OutputObs :=
  if s.state = .skipFrames then
    let skipped := skipLoop (s.skipCount frames) (s.skipCount frames) s.outputbuf
    ({ s with
        outputbuf := skipped.1
        framesPlayed := s.framesPlayed + s.skipCount frames
        state := .running },
      skipped.2)
  else (s, [])

/-- The test of start at for the time being reached; `now + 10000` is a `u32_t`. -/
def startReached (s : Output) (now : ℕ) : Bool :=
  now ≥ s.pauseFrames || s.pauseFrames > (now + 10000) % 2 ^ 32

/-- `delta_frames` -/
def deltaFrames (s : Output) (now : ℕ) : ℕ :=
  (s.pauseFrames - now) * s.currentSampleRate % 2 ^ 32 / 1000

/-- Pause frames, and start at: play silence for required frames. -/
def pauseFor (s : Output) (avail frames now : ℕ) : Output × ℕ × Bool :=
  if s.state = .pauseFrames then
    if s.pauseFrames = 0 then ({ s with state := .running }, frames, false)
    else
      ({ s with
          pauseFrames := s.pauseFrames - min (min avail s.pauseFrames) MAX_SILENCE_FRAMES },
        min (min avail s.pauseFrames) MAX_SILENCE_FRAMES, true)
  else if s.state = .startAt then
    if s.startReached now then ({ s with state := .running }, frames, false)
    else (s, min (min avail (s.deltaFrames now)) MAX_SILENCE_FRAMES, true)
  else (s, frames, false)

/-- Play silence if buffering or no frames. -/
def silenceFor (s : Output) (avail frames : ℕ) (silence : Bool) : ℕ × Bool :=
  if s.state.quiet ∨ frames = 0 then (min avail MAX_SILENCE_FRAMES, true) else (frames, silence)

/-! ### The loop of `_output_frames` -/

/-- `delay`, on a change of rate. -/
def trackDelay (s : Output) : ℕ :=
  if s.currentSampleRate ≠ s.nextSampleRate then s.rateDelay else 0

/-- The first half of the delay: the track start is not processed. -/
def delayTrack (s : Output) : Output :=
  { s with
    state := .pauseFrames
    pauseFrames := s.currentSampleRate * s.trackDelay / 2000
    delayActive := true }

/-- The second half of the delay, and the track start. -/
def beginTrack (s : Output) (now : ℕ) : Output :=
  { s with
    state := if s.trackDelay ≠ 0 then .pauseFrames else s.state
    pauseFrames := if s.trackDelay ≠ 0 then s.nextSampleRate * s.trackDelay / 2000
      else s.pauseFrames
    delayActive := if s.trackDelay ≠ 0 then false else s.delayActive
    framesPlayed := 0
    trackStarted := true
    trackStartTime := now
    currentSampleRate := s.nextSampleRate
    currentReplayGain :=
      if s.fade = .inactive ∨ s.fadeMode ≠ .crossfade then s.nextReplayGain
      else s.currentReplayGain
    trackStart := none }

/-- A track start is reached.  Silence delay is added in two halves, before and after track
start. -/
def startTrack (s : Output) (now : ℕ) : Output × List OutputObs :=
  if s.trackDelay ≠ 0 ∧ s.delayActive = false then (s.delayTrack, [])
  else
    (s.beginTrack now,
      [.signal (s.beginTrack now).trackStarted (s.beginTrack now).framesPlayed
        (s.beginTrack now).currentSampleRate])

/-- `cont_frames`, reduced so we find the next track start at beginning of next chunk. -/
def contFrames (s : Output) : ℕ :=
  match s.trackStart with
  | some p =>
      if p > s.outputbuf.readp then
        min (bufContRead s.outputbuf / BYTES_PER_FRAME)
          ((p - s.outputbuf.readp) / BYTES_PER_FRAME)
      else bufContRead s.outputbuf / BYTES_PER_FRAME
  | none => bufContRead s.outputbuf / BYTES_PER_FRAME

/-- A fade that is due begins at its start. -/
def fadeReached (s : Output) : Output :=
  if s.fade = .due ∧ s.fadeStart = s.outputbuf.readp then { s with fade := .active } else s

/-- `cont_frames`, reduced while a fade is due. -/
def contBeforeFade (s : Output) (cont : ℕ) : ℕ :=
  if s.fade = .due ∧ s.fadeStart > s.outputbuf.readp then
    min cont ((s.fadeStart - s.outputbuf.readp) / BYTES_PER_FRAME)
  else cont

/-- `cur_f`: position within fade. -/
def curFrames (s : Output) : ℕ :=
  if s.outputbuf.readp ≥ s.fadeStart then frameCount ((s.outputbuf.readp : ℤ) - s.fadeStart)
  else frameCount ((s.outputbuf.readp : ℤ) + s.outputbuf.size - s.fadeStart)

/-- `dur_f` -/
def durFrames (s : Output) : ℕ :=
  if s.fadeEnd ≥ s.fadeStart then frameCount ((s.fadeEnd : ℤ) - s.fadeStart)
  else frameCount ((s.fadeEnd : ℤ) + s.outputbuf.size - s.fadeStart)

/-- `dur_f * BYTES_PER_FRAME` -/
def durBytes (s : Output) : ℕ := s.durFrames * BYTES_PER_FRAME % 2 ^ 32

/-- The end of a fade: fade up after fade down, or skip what was crossfaded, or nothing. -/
def fadeComplete (s : Output) : Output × List OutputObs :=
  if s.fadeMode = .inOut ∧ s.fadeDir = .down then
    ({ s with
        fadeDir := .up
        fadeStart := s.outputbuf.readp
        fadeEnd := afterPtr s.outputbuf s.outputbuf.readp s.durBytes },
      [])
  else if s.fadeMode = .crossfade then
    if bufUsed s.outputbuf ≥ s.durBytes then
      ({ s with
          outputbuf := bufIncReadp s.outputbuf s.durBytes
          fade := .inactive
          currentReplayGain := s.nextReplayGain },
        [.consume s.durBytes])
    else ({ s with fade := .inactive, currentReplayGain := s.nextReplayGain }, [])
  else ({ s with fade := .inactive }, [])

/-- An active fade, once it is found whether it is complete. -/
def fadeEnded (s : Output) : Output × List OutputObs :=
  if s.curFrames ≥ s.durFrames then s.fadeComplete else (s, [])

/-- `cont_frames`, reduced in an active fade so we get to end of fade at start of chunk. -/
def contInFade (s : Output) (cont : ℕ) : ℕ :=
  if s.fadeEnd > s.outputbuf.readp then
    min cont ((s.fadeEnd - s.outputbuf.readp) / BYTES_PER_FRAME)
  else cont

/-- Frames taken out of `outputbuf`, and played. -/
def played (s : Output) (frames : ℕ) : Output :=
  { s with
    outputbuf := bufIncReadp s.outputbuf (frames * BYTES_PER_FRAME)
    framesPlayed := s.framesPlayed + frames }

end Output

/-- The local variables of `_output_frames` in its loop, and the state. -/
structure Playing where
  out : Output
  size : ℕ
  frames : ℕ
  gainL : ℤ
  gainR : ℤ
  crossGainIn : ℤ
  crossGainOut : ℤ
  crossPtr : ℕ

namespace Playing

/-- `if (output.invert)` -/
def inverted (s : Output) (gain : ℤ) : ℤ := if s.invert then -gain else gain

/-- A replay gain, where there is one. -/
def replay (g replayGain : ℤ) : ℤ := if replayGain ≠ 0 then gain g replayGain else g

/-- The gains of a fade in progress: fade in, in-out, out are handled via altering standard
gain, a crossfade by the two other gains. -/
def fadeGains (toGain : ℕ → ℕ → ℤ) (x : Playing) (cur dur : ℕ) : Playing :=
  match x.out.fadeDir with
  | .up =>
      { x with
        gainL := inverted x.out (gain x.gainL (toGain cur dur))
        gainR := inverted x.out (gain x.gainR (toGain cur dur)) }
  | .down =>
      { x with
        gainL := inverted x.out (gain x.gainL (toGain (dur - cur) dur))
        gainR := inverted x.out (gain x.gainR (toGain (dur - cur) dur)) }
  | .cross =>
      if bufUsed x.out.outputbuf / BYTES_PER_FRAME > dur + x.size then
        { x with
          crossGainIn := replay (toGain cur dur) x.out.nextReplayGain
          crossGainOut := replay (FIXED_ONE - toGain cur dur) x.out.currentReplayGain
          gainL := inverted x.out x.out.gainL
          gainR := inverted x.out x.out.gainR
          crossPtr := x.out.fadeEnd + cur * BYTES_PER_FRAME }
      else { x with out := { x.out with fade := .inactive } }

/-- An active fade in a chunk.  If it is complete and goes on, it has begun anew. -/
def fadeActive (toGain : ℕ → ℕ → ℤ) (x : Playing) (cont : ℕ) : Playing × ℕ × List OutputObs :=
  if x.out.fadeEnded.1.fade = .inactive then
    ({ x with out := x.out.fadeEnded.1 }, cont, x.out.fadeEnded.2)
  else
    (fadeGains toGain { x with out := x.out.fadeEnded.1 }
        (if x.out.curFrames ≥ x.out.durFrames then 0 else x.out.curFrames) x.out.durFrames,
      x.out.fadeEnded.1.contInFade cont, x.out.fadeEnded.2)

/-- The part of a chunk that deals with a fade. -/
def fadeChunk (toGain : ℕ → ℕ → ℤ) (x : Playing) (cont : ℕ) : Playing × ℕ × List OutputObs :=
  if x.out.fadeReached.fade = .active then
    fadeActive toGain { x with out := x.out.fadeReached } (x.out.contBeforeFade cont)
  else ({ x with out := x.out.fadeReached }, x.out.contBeforeFade cont, [])

/-- What `write_cb` writes of `frames`, by its answer. -/
def wrote (answer : ℤ) (frames : ℕ) : ℕ := min answer.toNat frames

/-- `out_frames`: the frames given to `write_cb`. -/
def outFrames (silence : Bool) (x : Playing) (cont : ℕ) : ℕ :=
  if silence then x.size else min x.size cont

/-- The call of `write_cb`. -/
def writeCall (silence : Bool) (x : Playing) (frames : ℕ) : OutputObs :=
  .write frames silence x.gainL x.gainR x.out.channels x.crossGainIn x.crossGainOut x.crossPtr

/-- The part of a chunk that writes it, and takes it out of `outputbuf`.  The last component
says whether the loop goes on. -/
def writeChunk (silence : Bool) (answer : ℤ) (x : Playing) (cont : ℕ) :
    Playing × List OutputObs × Bool :=
  if wrote answer (outFrames silence x cont) = 0 then
    ({ x with frames := x.frames - x.size }, [writeCall silence x (outFrames silence x cont)],
      false)
  else if silence then
    ({ x with size := x.size - wrote answer (outFrames silence x cont) },
      [writeCall silence x (outFrames silence x cont)], true)
  else
    ({ x with
        size := x.size - wrote answer (outFrames silence x cont)
        out := x.out.played (wrote answer (outFrames silence x cont)) },
      [writeCall silence x (outFrames silence x cont),
        .consume (wrote answer (outFrames silence x cont) * BYTES_PER_FRAME)],
      true)

/-- One round of the loop. -/
def round (toGain : ℕ → ℕ → ℤ) (silence : Bool) (now : ℕ) (answer : ℤ) (x : Playing) :
    Playing × List OutputObs × Bool :=
  if silence then writeChunk silence answer x x.out.contFrames
  else if x.out.trackStart = some x.out.outputbuf.readp then
    ({ x with out := (x.out.startTrack now).1, frames := x.frames - x.size },
      (x.out.startTrack now).2, false)
  else
    let faded := fadeChunk toGain x x.out.contFrames
    ((writeChunk silence answer faded.1 faded.2.1).1,
      faded.2.2 ++ (writeChunk silence answer faded.1 faded.2.1).2.1,
      (writeChunk silence answer faded.1 faded.2.1).2.2)

/-- The loop.  Every round but the last writes a frame. -/
def loop (toGain : ℕ → ℕ → ℤ) (silence : Bool) (now : ℕ) :
    ℕ → (ℕ → ℤ) → Playing → Playing × List OutputObs
  | 0, _, x => (x, [])
  | fuel + 1, answers, x =>
      if x.size = 0 then (x, [])
      else
        let r := round toGain silence now (answers 0) x
        if r.2.2 then
          ((loop toGain silence now fuel (fun i => answers (i + 1)) r.1).1,
            r.2.1 ++ (loop toGain silence now fuel (fun i => answers (i + 1)) r.1).2)
        else (r.1, r.2.1)

end Playing

namespace Output

/-- `_output_frames` up to its loop: the state, `frames` and `silence`. -/
def beginFrames (s : Output) (avail now : ℕ) : Output × ℕ × Bool :=
  let frames := bufUsed s.outputbuf / BYTES_PER_FRAME
  let s₁ := ((s.startBuffer frames).skipAhead frames).1
  let paused := s₁.pauseFor avail (frames - (s.startBuffer frames).skipCount frames) now
  let quiet := paused.1.silenceFor avail paused.2.1 paused.2.2
  (paused.1, min quiet.1 avail, quiet.2)

/-- The local variables at the start of the loop.  The gains are read before anything else. -/
def playing (s s' : Output) (frames : ℕ) : Playing where
  out := s'
  size := frames
  frames := frames
  gainL := Playing.inverted s (Playing.replay s.gainL s.currentReplayGain)
  gainR := Playing.inverted s (Playing.replay s.gainR s.currentReplayGain)
  crossGainIn := 0
  crossGainOut := 0
  crossPtr := 0

/-- `_output_frames`: the state, the frames it returns, and what is seen of it. -/
def outputFrames (toGain : ℕ → ℕ → ℤ) (s : Output) (avail now : ℕ) (answers : ℕ → ℤ) :
    Output × ℕ × List OutputObs :=
  let begun := s.beginFrames avail now
  let looped := Playing.loop toGain begun.2.2 now begun.2.1 answers (s.playing begun.1 begun.2.1)
  (looped.1.out, looped.1.frames,
    ((s.startBuffer (bufUsed s.outputbuf / BYTES_PER_FRAME)).skipAhead
      (bufUsed s.outputbuf / BYTES_PER_FRAME)).2 ++ looped.2)

/-! ### The decoder -/

/-- The bytes of the old track behind the start of the new one, in a crossfade. -/
def overlap (s : Output) : ℕ :=
  if s.fadeMode = .crossfade ∧ bufUsed s.outputbuf ≠ 0 ∧ s.nextSampleRate = s.currentSampleRate
  then s.crossBytes else 0

/-- A new stream is announced, before its first frame is decoded. -/
def announce (s : Output) (rate : ℕ) : Output :=
  { s with nextSampleRate := rate, trackStart := some s.outputbuf.writep, newStream := false }

/-- The section of a codec that sets `track_start` and `next_sample_rate`. -/
def publish (s : Output) (rate : ℕ) (first second : Option Block) : Output × List OutputObs :=
  if s.decodeState = .running ∧ s.newStream then
    let s' := if s.fadeMode = .none then s.announce rate
      else (s.announce rate).checkfadeStart first second
    (s', [.publish (bufUsed s'.outputbuf - (s.announce rate).overlap) rate])
  else (s, [])

/-- Frames decoded, as many as there is room for. -/
def decoded (s : Output) (bs : List UInt8) : Output :=
  if s.decodeState = .running ∧ s.newStream = false ∧
      bs.length ≤ min (bufSpace s.outputbuf) (bufContWrite s.outputbuf) then
    { s with outputbuf := bufIncWritep (bufStore s.outputbuf bs) bs.length }
  else s

/-- The decoder is done. -/
def decodeDone (s : Output) (ok : Bool) : Output :=
  if s.decodeState = .running then
    let s' := { s with decodeState := if ok then .complete else .error }
    if s.fadeMode = .none then s' else s'.checkfadeEnd
  else s

/-! ### The controller -/

/-- The first section of `output_flush`: `buf_flush`. -/
def flushBuffer (s : Output) : Output × List OutputObs :=
  if s.flushPhase = .decodeFlushed then
    ({ s with outputbuf := bufFlush s.outputbuf, flushPhase := .bufFlushed }, [.flush])
  else (s, [])

/-- The second section of `output_flush`. -/
def flushOutput (s : Output) : Output :=
  if s.flushPhase = .bufFlushed then
    { s with
      fade := .inactive
      state := if s.state ≠ .off then .stopped else .off
      currentSampleRate :=
        if s.state ≠ .off ∧ s.errorOpening then s.defaultSampleRate else s.currentSampleRate
      delayActive := if s.state ≠ .off then false else s.delayActive
      framesPlayed := 0
      flushPhase := .idle }
  else s

end Output

/-- The other sections of the controller, with the values they are told. -/
inductive Control
  /-- `decode_flush`, which `output_flush` follows -/
  | decodeFlush
  /-- `codec_open` -/
  | codecOpen
  /-- strm 's' -/
  | start (threshold : ℕ) (replayGain : ℤ) (fadeMode : FadeMode) (fadeSecs : ℕ) (invert : Bool)
      (channels : ℕ)
  /-- strm 'p', with its interval and the frames of it -/
  | pause (interval frames : ℕ)
  /-- strm 'a' -/
  | skip (frames : ℕ)
  /-- strm 'u' -/
  | unpause (jiffies : ℕ)
  /-- aude; `idle` is whether there is an idle timeout -/
  | enable (on idle : Bool)
  /-- audg -/
  | volume (gainL gainR : ℤ)
  /-- an update pass, under `decode.mutex`: whether decoding starts -/
  | updateDecode (run : Bool)
  /-- an update pass, under `outputbuf->mutex`: whether output starts, is found to have run
  out, or is idle for too long -/
  | updateOutput (start underrun timeout : Bool)

namespace Output

/-- `decode.state` after an update pass. -/
def updateDecode (s : Output) (run : Bool) : Output :=
  match s.decodeState with
  | .ready => if run then { s with decodeState := .running } else s
  | .complete | .error => { s with decodeState := .stopped }
  | _ => s

/-- `output.state` and `output.track_started` after an update pass. -/
def updateOutput (s : Output) (start underrun timeout : Bool) : Output :=
  let started := if start ∧ (s.state = .stopped ∨ s.state = .off) then .buffer else s.state
  let ran := if underrun ∧ started = .running then .stopped else started
  { s with trackStarted := false, state := if timeout ∧ ran = .stopped then .off else ran }

/-- A section of the controller. -/
def control (s : Output) : Control → Output
  | .decodeFlush => { s with decodeState := .stopped, flushPhase := .decodeFlushed }
  | .codecOpen => { s with newStream := true, decodeState := .ready }
  | .start threshold replayGain fadeMode fadeSecs invert channels =>
      { s with
        outputbuf := bufLimit s.outputbuf 0
        threshold := threshold
        nextReplayGain := replayGain
        fadeMode := fadeMode
        fadeSecs := fadeSecs
        invert := invert
        channels := channels }
  | .pause interval frames =>
      { s with
        pauseFrames := frames
        state := if interval ≠ 0 then .pauseFrames else if s.state ≠ .off then .stopped else .off }
  | .skip frames => { s with pauseFrames := frames, state := .skipFrames }
  | .unpause jiffies =>
      { s with pauseFrames := jiffies, state := if jiffies ≠ 0 then .startAt else .running }
  | .enable on idle =>
      { s with
        state := if on then (if s.state = .off ∧ idle = false then .stopped else s.state)
          else .off }
  | .volume gainL gainR => { s with gainL := gainL, gainR := gainR }
  | .updateDecode run => s.updateDecode run
  | .updateOutput start underrun timeout => s.updateOutput start underrun timeout

end Output

/-- What happens to the output. -/
inductive OutputEvent
  | frames (avail now : ℕ) (answers : ℕ → ℤ)
  | publish (rate : ℕ) (first second : Option Block)
  | decoded (bs : List UInt8)
  | decodeDone (ok : Bool)
  | flushBuffer
  | flushOutput
  | control (c : Control)

/-- One event.  The controller does nothing else while it is in `output_flush`. -/
def outputStep (toGain : ℕ → ℕ → ℤ) (s : Output) : OutputEvent → Output × List OutputObs
  | .frames avail now answers =>
      ((s.outputFrames toGain avail now answers).1, (s.outputFrames toGain avail now answers).2.2)
  | .publish rate first second => s.publish rate first second
  | .decoded bs => (s.decoded bs, [])
  | .decodeDone ok => (s.decodeDone ok, [])
  | .flushBuffer => s.flushBuffer
  | .flushOutput => (s.flushOutput, [])
  | .control c => (if s.flushPhase = .idle then s.control c else s, [])

/-- The output. -/
def outputMachine (toGain : ℕ → ℕ → ℤ) : Runs.Machine Output OutputEvent OutputObs where
  step := outputStep toGain

/-- `output_init_common`: an empty buffer of `size` bytes, less what is not a whole frame. -/
def outputInit (blk : Block) (size rate rateDelay : ℕ) (idle : Bool) : Output where
  state := if idle then .off else .stopped
  channels := 0
  trackStarted := false
  startFrames := 0
  framesPlayed := 0
  currentSampleRate := rate
  defaultSampleRate := rate
  errorOpening := false
  trackStartTime := 0
  currentReplayGain := 0
  pauseFrames := 0
  nextSampleRate := 0
  trackStart := none
  gainL := FIXED_ONE
  gainR := FIXED_ONE
  invert := false
  nextReplayGain := 0
  threshold := 0
  fade := .inactive
  fadeStart := 0
  fadeEnd := 0
  fadeDir := .up
  fadeMode := .none
  fadeSecs := 0
  rateDelay := rateDelay
  delayActive := false
  outputbuf := bufInit blk (size - size % BYTES_PER_FRAME)
  decodeState := .stopped
  newStream := true
  flushPhase := .idle

end SqueezeliteMuse
