/-
SqueezeliteMuse/Arbitration.lean

Who has the output: LMS, AirPlay or Bluetooth.

`output.external` names the sink that has `outputbuf`, and is 0 for LMS.  A
command of a sink first looks at it and at `output.state` without the lock, and
is carried out under the lock later; the data of a sink look at
`output.external` before the lock, and give the lock away while they wait for
room; a flush by LMS looks at it before `output_flush`.  So each of them is two
events, and others come in between.

`lms` is whether an LMS stream has the output: from its strm 's' until 'q' or
'f' or the end of its playback.  No code knows that, as the output may be
stopped or off in that time.

Main result: `arbitration`: if no command of a sink comes in that time, and no
hand-over comes between the look and the act of another party, then neither
sink touches what LMS has, LMS flushes nothing of a sink, and only the owner writes.
-/
import SqueezeliteMuse.Lib.Runs
import SqueezeliteMuse.Output

namespace SqueezeliteMuse

namespace Arbitration

/-! ### Data -/

/-- `DECODE_BT`, `DECODE_RAOP` -/
inductive Sink
  | bt | raop
  deriving DecidableEq

/-- `bt_sink_cmd_t`; `other` is what the handler does nothing for. -/
inductive BtCmd
  | audioStarted | audioStopped | play | stop | pause | rate | volume | other
  deriving DecidableEq

/-- `raop_event_t`; for `timing`, whether frames are to be skipped, or paused. -/
inductive RaopCmd
  | timing (adjust : Option Bool)
  | setup | stream | stop | flush | play | volume | other
  deriving DecidableEq

inductive Cmd
  | bt (cmd : BtCmd)
  | raop (cmd : RaopCmd)
  deriving DecidableEq

def Cmd.sink : Cmd → Sink
  | .bt _ => .bt
  | .raop _ => .raop

/-- A call of `sink_data_handler` that found a sink active: whether it has had the lock. -/
structure Writer where
  sink : Sink
  started : Bool

/-- `output.external`, `output.state`, `decode.state`, `raop_state == RAOP_PLAY`, `abort_sink`;
how far a flush of LMS is; the commands that passed their guard, and the data on their way. -/
structure Arbiter where
  external : Option Sink
  state : OutputState
  decode : DecodeState
  raopPlaying : Bool
  abortSink : Bool
  flush : FlushPhase
  passed : List Cmd
  writers : List Writer
  lms : Bool

inductive Party
  | lms
  | sink (sink : Sink)
  deriving DecidableEq

/-- What is done to the output: `outputbuf` flushed, written to, `output.state` changed. -/
inductive Obs
  | flushed (party : Party)
  | wrote (party : Party)
  | changed (party : Party)
  deriving DecidableEq

/-- The events of all parties. -/
inductive Event
  /-- strm 's'; `known` unless the codec is to be found out. -/
  | strmS (known : Bool)
  /-- strm 'q' or 'f', up to `output_flush` -/
  | strmQ
  /-- one of the two sections of `output_flush` -/
  | outputFlush
  | strmP (interval : Bool)
  | strmA
  | strmU (jiffies : Bool)
  /-- what `slimproto_run` does by itself -/
  | startDecode
  | startOutput
  | stopDecode
  | underrun
  | idle
  /-- the threads of the decoder and of the output -/
  | decoded (error : Bool)
  | decoderWrites
  | progress
  /-- the sinks: a command at its guard, under the lock; data at their test, under the lock, done -/
  | check (cmd : Cmd)
  | act (i : ℕ)
  | dataTest (sink : Sink)
  | dataStep (i : ℕ)
  | dataEnd (i : ℕ)

/-! ### The code -/

/-- `state <= OUTPUT_STOPPED` -/
def halted : OutputState → Bool
  | .off | .stopped => true
  | _ => false

/-- The guard of both command handlers. -/
def Arbiter.guard (s : Arbiter) (sink : Sink) : Bool := s.external = some sink || halted s.state

/-- `if (decode.state != DECODE_STOPPED) decode.state = DECODE_ERROR` -/
def abandon (d : DecodeState) : DecodeState := if d ≠ .stopped then .error else d

/-- `if (output.state > OUTPUT_STOPPED) output.state = OUTPUT_STOPPED` -/
def halt (state : OutputState) : OutputState := if halted state then state else .stopped

/-- The `switch` of both command handlers: the state, and whether `outputbuf` is flushed. -/
def Arbiter.act (s : Arbiter) : Cmd → Arbiter × Bool
  | .bt .audioStarted =>
      ({ s with external := some .bt, state := .stopped, decode := abandon s.decode }, true)
  | .bt .audioStopped =>
      if s.external = some .bt then ({ s with state := halt s.state, external := none }, false)
      else (s, false)
  | .bt .play => ({ s with state := .running }, false)
  | .bt .stop => ({ s with state := .stopped, abortSink := true }, true)
  | .bt .pause | .bt .rate | .bt .volume | .bt .other => (s, false)
  | .raop (.timing adjust) =>
      match s.state, adjust with
      | .running, some true => ({ s with state := .skipFrames }, false)
      | .running, some false => ({ s with state := .pauseFrames }, false)
      | _, _ => (s, false)
  | .raop .setup =>
      -- `_buf_limit` resets the pointers
      ({ s with external := some .raop, state := .stopped, decode := abandon s.decode }, true)
  | .raop .stream => ({ s with raopPlaying := false }, false)
  | .raop .stop =>
      ({ s with external := none, raopPlaying := false, state := halt s.state, abortSink := true },
        true)
  | .raop .flush =>
      ({ s with raopPlaying := false, state := halt s.state, abortSink := true }, true)
  | .raop .play =>
      ({ s with state := if s.raopPlaying then s.state else .startAt, raopPlaying := true }, false)
  | .raop .volume | .raop .other => (s, false)

/-- What a command shows. -/
def shows (s s' : Arbiter) (flushed : Bool) (sink : Sink) : List Obs :=
  (if flushed then [.flushed (.sink sink)] else []) ++
    (if s'.state ≠ s.state then [.changed (.sink sink)] else [])

/-- What the thread of `slimproto_run` does, when it is not in `output_flush`. -/
def Arbiter.slimproto (s : Arbiter) : Event → Arbiter
  | .strmS known =>
      -- the disconnection is only ordered here
      { s with
        decode := if known then .ready else s.decode
        raopPlaying := if s.external = some .raop then false else s.raopPlaying
        external := none
        lms := true }
  | .strmQ =>
      { s with
        decode := .stopped
        flush := if s.external = none then .decodeFlushed else .idle
        lms := false }
  | .strmP interval =>
      { s with
        state := if interval then .pauseFrames else if s.state = .off then .off else .stopped }
  | .strmA => { s with state := .skipFrames }
  | .strmU jiffies => { s with state := if jiffies then .startAt else .running }
  | .startDecode => if s.decode = .ready then { s with decode := .running } else s
  | .startOutput =>
      if s.external = none ∧ halted s.state = true then { s with state := .buffer } else s
  | .stopDecode =>
      if s.decode = .complete ∨ s.decode = .error then { s with decode := .stopped } else s
  | .underrun =>
      if s.external = none ∧ s.state = .running ∧ s.decode = .stopped then
        { s with state := .stopped, lms := false }
      else s
  | .idle => if s.state = .stopped then { s with state := .off } else s
  | _ => s

/-- One event. -/
def Arbiter.step (s : Arbiter) : Event → Arbiter × List Obs
  | .outputFlush =>
      match s.flush with
      | .idle => (s, [])
      | .decodeFlushed => ({ s with flush := .bufFlushed }, [.flushed .lms])
      | .bufFlushed =>
          ({ s with flush := .idle, state := if s.state ≠ .off then .stopped else .off }, [])
  | .decoded error =>
      (if s.decode = .running then { s with decode := if error then .error else .complete } else s,
        [])
  | .decoderWrites => (s, if s.decode = .running then [.wrote .lms] else [])
  | .progress =>
      (match s.state with
        | .buffer | .startAt | .pauseFrames | .skipFrames => { s with state := .running }
        | _ => s, [])
  | .check cmd => (if s.guard cmd.sink then { s with passed := s.passed ++ [cmd] } else s, [])
  | .act i =>
      match s.passed[i]? with
      | none => (s, [])
      | some cmd =>
          let r := s.act cmd
          ({ r.1 with passed := s.passed.eraseIdx i }, shows s r.1 r.2 cmd.sink)
  | .dataTest sink =>
      -- any sink will do
      (if s.external ≠ none then { s with writers := s.writers ++ [⟨sink, false⟩] } else s, [])
  | .dataStep i =>
      match s.writers[i]? with
      | none => (s, [])
      | some w =>
          if w.started && s.abortSink then ({ s with writers := s.writers.eraseIdx i }, [])
          else
            ({ s with
                writers := s.writers.set i ⟨w.sink, true⟩
                abortSink := if w.started then s.abortSink else false },
              [.wrote (.sink w.sink)])
  | .dataEnd i => ({ s with writers := s.writers.eraseIdx i }, [])
  | e => (if s.flush = .idle then s.slimproto e else s, [])

/-- The parties around the output. -/
def parties : Runs.Machine Arbiter Event Obs := ⟨Arbiter.step⟩

/-- After `output_init_common` -/
def start (idle : Bool) : Arbiter :=
  ⟨none, if idle then .off else .stopped, .stopped, false, false, .idle, [], [], false⟩

/-! ### The contract -/

/-- What may be done to the output. -/
def Arbiter.Allows (s : Arbiter) : Obs → Prop
  | .flushed (.sink _) | .changed (.sink _) => s.lms = false
  | .wrote (.sink sink) => s.lms = false ∧ s.external = some sink
  | .flushed .lms | .wrote .lms => s.external = none
  | .changed .lms => True

/-- All that an event does is allowed. -/
def Respects (s : Arbiter) (e : Event) : Prop := ∀ o ∈ (s.step e).2, s.Allows o

/-! ### Orderly events -/

/-- The commands that may flush `outputbuf`, change `output.state` or the owner. -/
def Cmd.touches : Cmd → Bool
  | .bt .audioStarted | .bt .audioStopped | .bt .play | .bt .stop => true
  | .raop (.timing _) | .raop .setup | .raop .stop | .raop .flush | .raop .play => true
  | _ => false

/-- A hand-over by a command: no data of another owner are on their way, and
none that could begin after the owner is gone; and no flush of LMS has begun. -/
def Arbiter.Free (s : Arbiter) : Cmd → Prop
  | .bt .audioStarted => s.flush ≠ .decodeFlushed ∧ (s.external ≠ some .bt → s.writers = [])
  | .raop .setup => s.flush ≠ .decodeFlushed ∧ (s.external ≠ some .raop → s.writers = [])
  | .bt .audioStopped => s.external = some .bt → s.writers = []
  | .raop .stop => s.external ≠ none → ∀ w ∈ s.writers, w.started = true
  | _ => True

/-- An event that comes between nobody's look and act: no command that touches the output comes
to its guard while a stream of LMS has the output and it is stopped or off; no hand-over comes
while another party has looked and not acted; no sink sends data while the other is active. -/
def Orderly (s : Arbiter) : Event → Prop
  | .check cmd => cmd.touches = true → s.lms = true → halted s.state = false
  | .act i => ∀ cmd, s.passed[i]? = some cmd → s.Free cmd
  | .strmS _ =>
      (∀ cmd ∈ s.passed, cmd.touches = false) ∧
        ∀ w ∈ s.writers, w.started = true ∧ s.abortSink = true
  | .dataTest sink => s.external = none ∨ s.external = some sink
  | _ => True

/-! ### The invariant -/

/-- What holds between orderly events. -/
structure Sound (s : Arbiter) : Prop where
  /-- LMS has the output only without a sink. -/
  own : s.lms = true → s.external = none
  clean : s.lms = true → ∀ cmd ∈ s.passed, cmd.touches = false
  /-- Data on their way are those of the owner, or give up. -/
  writers : ∀ w ∈ s.writers,
    s.external = some w.sink ∨ s.external = none ∧ s.abortSink = true ∧ w.started = true
  decode : s.external ≠ none → s.decode ≠ .ready ∧ s.decode ≠ .running
  flush : s.flush = .decodeFlushed → s.external = none

variable {s : Arbiter}

theorem abandon_ne (d : DecodeState) : abandon d ≠ .ready ∧ abandon d ≠ .running := by
  cases d <;> decide

/-- A command that does not touch the output leaves all but AirPlay's own state. -/
theorem act_of_not_touches {cmd : Cmd} (h : cmd.touches = false) :
    ∃ playing, s.act cmd = ({ s with raopPlaying := playing }, false) := by
  rcases cmd with cmd | cmd
  · cases cmd
    all_goals first
      | exact absurd h (by decide)
      | exact ⟨s.raopPlaying, rfl⟩
  · cases cmd
    case stream => exact ⟨false, rfl⟩
    all_goals first
      | exact ⟨s.raopPlaying, rfl⟩
      | exact absurd h (by simp [Cmd.touches])

/-- What a command leaves as it was. -/
theorem act_frame (cmd : Cmd) :
    (s.act cmd).1.lms = s.lms ∧ (s.act cmd).1.flush = s.flush ∧
      (s.act cmd).1.passed = s.passed ∧ (s.act cmd).1.writers = s.writers := by
  rcases cmd with cmd | cmd
  · cases cmd
    case audioStopped =>
      simp only [Arbiter.act]
      split <;> exact ⟨rfl, rfl, rfl, rfl⟩
    all_goals exact ⟨rfl, rfl, rfl, rfl⟩
  · cases cmd
    case timing adjust =>
      simp only [Arbiter.act]
      split <;> exact ⟨rfl, rfl, rfl, rfl⟩
    all_goals exact ⟨rfl, rfl, rfl, rfl⟩

/-- The owner after a command, and what becomes of the decoder and of `abort_sink`. -/
theorem act_owner (cmd : Cmd) :
    ((s.act cmd).1.external = s.external ∧ (s.act cmd).1.decode = s.decode ∧
        (s.abortSink = true → (s.act cmd).1.abortSink = true)) ∨
      (s.act cmd).1.external = none ∧ (s.act cmd).1.abortSink = true ∧ cmd = .raop .stop ∨
      (s.act cmd).1.external = none ∧ cmd = .bt .audioStopped ∧ s.external = some .bt ∨
      (s.act cmd).1.external = some cmd.sink ∧ (s.act cmd).1.decode = abandon s.decode ∧
        (cmd = .bt .audioStarted ∨ cmd = .raop .setup) := by
  rcases cmd with cmd | cmd
  · cases cmd
    case audioStarted => exact .inr (.inr (.inr ⟨rfl, rfl, .inl rfl⟩))
    case audioStopped =>
      simp only [Arbiter.act]
      split
      · rename_i hbt
        exact .inr (.inr (.inl ⟨rfl, by simp, hbt⟩))
      · exact .inl ⟨rfl, rfl, id⟩
    case stop => exact .inl ⟨rfl, rfl, fun _ => rfl⟩
    all_goals exact .inl ⟨rfl, rfl, id⟩
  · cases cmd
    case timing adjust =>
      simp only [Arbiter.act]
      split <;> exact .inl ⟨rfl, rfl, id⟩
    case setup => exact .inr (.inr (.inr ⟨rfl, rfl, .inr rfl⟩))
    case stop => exact .inr (.inl ⟨rfl, rfl, rfl⟩)
    case flush => exact .inl ⟨rfl, rfl, fun _ => rfl⟩
    all_goals exact .inl ⟨rfl, rfl, id⟩

/-! ### Each event -/

/-- A command under the lock keeps the invariant. -/
theorem sound_act {cmd : Cmd} (h : Sound s) (hfree : s.Free cmd) (hmem : cmd ∈ s.passed) (i : ℕ) :
    Sound { (s.act cmd).1 with passed := s.passed.eraseIdx i } := by
  obtain ⟨hlms, hflush, hpassed, hwriters⟩ := act_frame (s := s) cmd
  have hclean : (s.act cmd).1.lms = true → ∀ c ∈ s.passed.eraseIdx i, c.touches = false :=
    fun hl c hc => h.clean (hlms ▸ hl) c (List.mem_of_mem_eraseIdx hc)
  -- a command that touches the output is carried out only when LMS does not have it
  have hno : cmd.touches = true → s.lms = false := by
    intro ht
    rcases hl : s.lms with - | -
    · rfl
    · exact absurd (h.clean hl cmd hmem) (by simp [ht])
  rcases act_owner (s := s) cmd with ⟨hext, hdec, habort⟩ | ⟨hext, habort, rfl⟩ |
    ⟨hext, rfl, hbt⟩ | ⟨hext, hdec, hcmd⟩
  · refine ⟨fun hl => hext.trans (h.own (hlms ▸ hl)), hclean, fun w hw => ?_, ?_, ?_⟩
    · rcases h.writers w (hwriters ▸ hw) with hw | ⟨he, ha, hs⟩
      · exact .inl (hext.trans hw)
      · exact .inr ⟨hext.trans he, habort ha, hs⟩
    · exact fun hne => hdec ▸ h.decode (hext ▸ hne)
    · exact fun hf => hext.trans (h.flush (hflush ▸ hf))
  · refine ⟨fun _ => hext, hclean, fun w hw => .inr ⟨hext, habort, ?_⟩,
      fun hne => absurd hext hne, fun _ => hext⟩
    have hw : w ∈ s.writers := hwriters ▸ hw
    by_cases he : s.external = none
    · rcases h.writers w hw with hsome | ⟨-, -, hs⟩
      · exact absurd (he.symm.trans hsome) (by simp)
      · exact hs
    · exact hfree he w hw
  · refine ⟨fun _ => hext, hclean, fun w hw => ?_, fun hne => absurd hext hne, fun _ => hext⟩
    have hw : w ∈ s.writers := hwriters ▸ hw
    rw [hfree hbt] at hw
    exact absurd hw List.not_mem_nil
  · have htouch : cmd.touches = true := by
      rcases hcmd with rfl | rfl <;> rfl
    have hfree : s.flush ≠ .decodeFlushed ∧ (s.external ≠ some cmd.sink → s.writers = []) := by
      rcases hcmd with rfl | rfl <;> exact hfree
    refine ⟨fun hl => absurd ((hno htouch).symm.trans (hlms ▸ hl)) (by simp), hclean,
      fun w hw => .inl ?_, fun _ => ?_, fun hf => absurd (hflush ▸ hf) hfree.1⟩
    · have hw : w ∈ s.writers := hwriters ▸ hw
      by_cases he : s.external = some cmd.sink
      · rcases h.writers w hw with hsome | ⟨hnone, -⟩
        · exact hext.trans (he.symm.trans hsome)
        · exact absurd (hnone.symm.trans he) (by simp)
      · rw [hfree.2 he] at hw
        exact absurd hw List.not_mem_nil
    · show (s.act cmd).1.decode ≠ .ready ∧ (s.act cmd).1.decode ≠ .running
      rw [hdec]
      exact abandon_ne _

/-- So does what LMS does by itself. -/
theorem sound_slimproto {e : Event} (h : Sound s) (ho : Orderly s e) : Sound (s.slimproto e) := by
  obtain ⟨hown, hclean, hwriters, hdecode, hflush⟩ := h
  cases e with
  | strmS known =>
      refine ⟨fun _ => rfl, fun _ => ho.1, fun w hw => .inr ⟨rfl, (ho.2 w hw).2, (ho.2 w hw).1⟩,
        fun hne => absurd rfl hne, fun _ => rfl⟩
  | strmQ =>
      refine ⟨fun hl => absurd hl (by simp [Arbiter.slimproto]),
        fun hl => absurd hl (by simp [Arbiter.slimproto]), hwriters, fun _ => ?_, fun hf => ?_⟩
      · exact ⟨by simp [Arbiter.slimproto], by simp [Arbiter.slimproto]⟩
      · by_cases he : s.external = none
        · exact he
        · simp [Arbiter.slimproto, he] at hf
  | startDecode =>
      simp only [Arbiter.slimproto]
      split
      · rename_i hready
        exact ⟨hown, hclean, hwriters, fun hne => absurd hready (hdecode hne).1, hflush⟩
      · exact ⟨hown, hclean, hwriters, hdecode, hflush⟩
  | startOutput =>
      simp only [Arbiter.slimproto]
      split <;> exact ⟨hown, hclean, hwriters, hdecode, hflush⟩
  | stopDecode =>
      simp only [Arbiter.slimproto]
      split
      · exact ⟨hown, hclean, hwriters, fun _ => by simp, hflush⟩
      · exact ⟨hown, hclean, hwriters, hdecode, hflush⟩
  | underrun =>
      simp only [Arbiter.slimproto]
      split
      · exact ⟨fun hl => absurd hl (by simp), fun hl => absurd hl (by simp), hwriters, hdecode,
          hflush⟩
      · exact ⟨hown, hclean, hwriters, hdecode, hflush⟩
  | idle =>
      simp only [Arbiter.slimproto]
      split <;> exact ⟨hown, hclean, hwriters, hdecode, hflush⟩
  | _ => exact ⟨hown, hclean, hwriters, hdecode, hflush⟩

/-- An orderly event keeps the invariant. -/
theorem sound_step (e : Event) (h : Sound s) (ho : Orderly s e) : Sound (s.step e).1 := by
  have ⟨hown, hclean, hwriters, hdecode, hflush⟩ := h
  cases e with
  | outputFlush =>
      simp only [Arbiter.step]
      split
      · exact h
      · exact ⟨hown, hclean, hwriters, hdecode, fun hf => absurd hf (by simp)⟩
      · exact ⟨hown, hclean, hwriters, hdecode, fun hf => absurd hf (by simp)⟩
  | decoded error =>
      simp only [Arbiter.step]
      split
      · refine ⟨hown, hclean, hwriters, fun _ => ?_, hflush⟩
        cases error <;> simp
      · exact h
  | decoderWrites => exact h
  | progress =>
      simp only [Arbiter.step]
      split <;> exact ⟨hown, hclean, hwriters, hdecode, hflush⟩
  | check cmd =>
      simp only [Arbiter.step]
      split
      swap
      · exact h
      rename_i hguard
      refine ⟨hown, fun hl c hc => ?_, hwriters, hdecode, hflush⟩
      rcases List.mem_append.mp hc with hc | hc
      · exact hclean hl c hc
      · obtain rfl := List.mem_singleton.mp hc
        -- under LMS, the guard passes only where the output is stopped or off
        rcases ht : c.touches with - | -
        · rfl
        · have hhalt := ho ht hl
          have hext := hown hl
          simp [Arbiter.guard, hext, hhalt] at hguard
  | act i =>
      rcases hi : s.passed[i]? with - | cmd
      · simpa only [Arbiter.step, hi] using h
      · simp only [Arbiter.step, hi]
        exact sound_act h (ho cmd hi) (List.mem_of_getElem? hi) i
  | dataTest sink =>
      simp only [Arbiter.step]
      split
      swap
      · exact h
      rename_i hext
      refine ⟨hown, hclean, fun w hw => ?_, hdecode, hflush⟩
      rcases List.mem_append.mp hw with hw | hw
      · exact hwriters w hw
      · obtain rfl := List.mem_singleton.mp hw
        exact .inl (ho.resolve_left hext)
  | dataStep i =>
      rcases hi : s.writers[i]? with - | w
      · simpa only [Arbiter.step, hi] using h
      simp only [Arbiter.step, hi]
      split
      · exact ⟨hown, hclean, fun w hw => hwriters w (List.mem_of_mem_eraseIdx hw), hdecode, hflush⟩
      rename_i hgo
      -- who may write is the owner
      have hw := hwriters w (List.mem_of_getElem? hi)
      have hext : s.external = some w.sink := by
        rcases hw with hw | ⟨-, ha, hs⟩
        · exact hw
        · exact absurd (by simp [ha, hs]) hgo
      refine ⟨hown, hclean, fun v hv => .inl ?_, hdecode, hflush⟩
      rcases List.mem_or_eq_of_mem_set hv with hv | rfl
      · rcases hwriters v hv with hv | ⟨hnone, -⟩
        · exact hv
        · exact absurd (hnone.symm.trans hext) (by simp)
      · exact hext
  | dataEnd i =>
      exact ⟨hown, hclean, fun w hw => hwriters w (List.mem_of_mem_eraseIdx hw), hdecode, hflush⟩
  | _ =>
      simp only [Arbiter.step]
      split
      · exact sound_slimproto h ho
      · exact h

/-- What an orderly event does is allowed. -/
theorem respects_step (e : Event) (h : Sound s) : Respects s e := by
  intro o hobs
  cases e with
  | outputFlush =>
      simp only [Arbiter.step] at hobs
      split at hobs
      · exact absurd hobs List.not_mem_nil
      · rename_i hflush
        obtain rfl := List.mem_singleton.mp hobs
        exact h.flush hflush
      · exact absurd hobs List.not_mem_nil
  | decoderWrites =>
      simp only [Arbiter.step] at hobs
      split at hobs
      · rename_i hrun
        obtain rfl := List.mem_singleton.mp hobs
        by_contra hne
        exact (h.decode hne).2 hrun
      · exact absurd hobs List.not_mem_nil
  | act i =>
      rcases hi : s.passed[i]? with - | cmd
      · simp only [Arbiter.step, hi] at hobs
        exact absurd hobs List.not_mem_nil
      simp only [Arbiter.step, hi] at hobs
      have hmem := List.mem_of_getElem? hi
      rcases hl : s.lms with - | -
      · -- without LMS, a sink may do as it likes
        rw [shows] at hobs
        rcases List.mem_append.mp hobs with hobs | hobs
        · split at hobs
          · obtain rfl := List.mem_singleton.mp hobs
            exact hl
          · exact absurd hobs List.not_mem_nil
        · split at hobs
          · obtain rfl := List.mem_singleton.mp hobs
            exact hl
          · exact absurd hobs List.not_mem_nil
      · obtain ⟨playing, hact⟩ := act_of_not_touches (s := s) (h.clean hl cmd hmem)
        simp [shows, hact] at hobs
  | dataStep i =>
      rcases hi : s.writers[i]? with - | w
      · simp only [Arbiter.step, hi] at hobs
        exact absurd hobs List.not_mem_nil
      simp only [Arbiter.step, hi] at hobs
      split at hobs
      · exact absurd hobs List.not_mem_nil
      rename_i hgo
      obtain rfl := List.mem_singleton.mp hobs
      have hext : s.external = some w.sink := by
        rcases h.writers w (List.mem_of_getElem? hi) with hw | ⟨-, ha, hs⟩
        · exact hw
        · exact absurd (by simp [ha, hs]) hgo
      refine ⟨?_, hext⟩
      rcases hl : s.lms with - | -
      · rfl
      · exact absurd ((h.own hl).symm.trans hext) (by simp)
  | _ => exact absurd hobs List.not_mem_nil

/-- For every interleaving of orderly events: no sink flushes `outputbuf`, writes
to it or changes `output.state` while a stream of LMS has the output, LMS flushes
nothing while a sink is active, and only the owner writes. -/
theorem arbitration {idle : Bool} {events : List Event}
    (h : parties.Along Orderly (start idle) events) :
    parties.Along Respects (start idle) events := by
  refine parties.along_of_invariant (I := Sound) (fun s e hs ho => sound_step e hs ho)
    (fun s e hs _ => respects_step e hs) ?_ h
  exact ⟨fun _ => rfl, fun _ c hc => absurd hc List.not_mem_nil,
    fun w hw => absurd hw List.not_mem_nil, fun hne => absurd rfl hne, fun _ => rfl⟩

/-- A stream of LMS is paused, and a set-up of AirPlay flushes it. -/
theorem not_arbitration :
    ¬ ∀ (idle : Bool) (events : List Event), parties.Along Respects (start idle) events := by
  intro h
  obtain ⟨-, -, -, -, -, -, -, hact, -⟩ := h false [.strmS true, .startDecode, .decoderWrites,
    .startOutput, .progress, .strmP false, .check (.raop .setup), .act 0]
  exact Bool.noConfusion (hact (.flushed (.sink .raop)) List.mem_cons_self)

/-- AirPlay plays and stops, LMS plays, Bluetooth is refused. -/
theorem arbitration_run :
    parties.Along Respects (start false) [.check (.raop .setup), .act 0, .check (.raop .play),
      .act 0, .dataTest .raop, .dataStep 0, .dataEnd 0, .check (.raop .stop), .act 0, .strmS true,
      .startDecode, .startOutput, .decoderWrites, .progress, .check (.bt .play), .strmQ,
      .outputFlush, .outputFlush] := by
  refine arbitration ⟨fun _ hl => absurd hl (by decide), fun cmd hcmd => ?_,
    fun _ hl => absurd hl (by decide), fun cmd hcmd => ?_, .inr rfl, trivial, trivial,
    fun _ hl => absurd hl (by decide), fun cmd hcmd => ?_, ⟨?_, ?_⟩, trivial, trivial, trivial,
    trivial, fun _ _ => rfl, trivial, trivial, trivial, trivial⟩
  · cases hcmd
    exact ⟨by decide, fun _ => rfl⟩
  · cases hcmd
    trivial
  · cases hcmd
    exact fun _ w hw => absurd hw List.not_mem_nil
  · exact fun cmd hcmd => absurd hcmd List.not_mem_nil
  · exact fun w hw => absurd hw List.not_mem_nil

end Arbitration

end SqueezeliteMuse
