/-
SqueezeliteMuse/RaopSync.lean

How AirPlay keeps its place: the timing errors of decode_external.c.

Once a second or so `raop_sink_cmd_handler` is told to look at the time.  It works
out by how many milliseconds the most recent block will be early or late, takes
the mean of the errors of a window, and skips or pauses so many milliseconds
when the mean is too far off.  The window grows from 1 to `SYNC_WIN_FAST` to
`SYNC_WIN_SLOW` as things calm down.

The mean is `sum / min(count, win)`.  `sum` has everything since the last
correction or reset: nothing is taken out of it when the window is full and the
oldest error is written over, and no one reads `errors`.

A signed overflow is undefined in C, and so is the step here: it is `none`.

Main result: `decisions_mean`: as long as the window has room for another error
and nothing overflows, every decision is on the mean of the last errors.
-/
import SqueezeliteMuse.Lib.Runs
import SqueezeliteMuse.Lib.Saturate
import SqueezeliteMuse.Arbitration
import SqueezeliteMuse.Player
import SqueezeliteMuse.Rtp

namespace SqueezeliteMuse

open Saturate Arbitration

/-! ### Data -/

/-- `SYNC_WIN_SLOW` -/
def SYNC_WIN_SLOW : ℕ := 32

/-- `SYNC_WIN_CHECK` -/
def SYNC_WIN_CHECK : ℕ := 8

/-- `SYNC_WIN_FAST` -/
def SYNC_WIN_FAST : ℕ := 2

/-- `raop_sync`, without `start_time`, which is for the log. -/
structure RaopSync where
  enabled : Bool
  sum : ℤ
  count : ℕ
  win : ℕ
  errors : ℕ → ℤ
  len : ℤ
  playtime : ℕ

/-- `raop_sync`, as it is before the first stream. -/
def raopSyncInit : RaopSync where
  enabled := false
  sum := 0
  count := 0
  win := 0
  errors := fun _ => 0
  len := 0
  playtime := 0

/-- What the handler finds in `output`: whether `external` is `DECODE_RAOP`; and `level` is
`_buf_used(outputbuf)`, `now` the clock. -/
structure SyncTiming where
  external : Bool
  state : OutputState
  framesPlayedDmp : ℕ
  deviceFrames : ℕ
  framesInProcess : ℕ
  updated : ℕ
  level : ℕ
  now : ℕ

/-- What the handler does. -/
inductive SyncObs
  /-- an error comes in; with this window, what is done is decided on `mean` -/
  | decided (error : ℤ) (win : ℕ) (mean : ℤ)
  /-- `skip_frames`, and `OUTPUT_SKIP_FRAMES` -/
  | skip (frames : ℕ)
  /-- `pause_frames`, and `OUTPUT_PAUSE_FRAMES` -/
  | pause (frames : ℕ)
  /-- a stream begins -/
  | reset
  deriving DecidableEq

/-- The value of an `int` expression. -/
def cInt (z : ℤ) : Option ℤ := if InRange 32 z then some z else none

theorem cInt_of_inRange {z : ℤ} (h : InRange 32 z) : cInt z = some z := if_pos h

/-! ### The code -/

/-- `-(error * RAOP_SAMPLE_RATE) / 1000`, or `(error * RAOP_SAMPLE_RATE) / 1000`. -/
def syncCorrection (error : ℤ) : Option SyncObs :=
  if error < 0 then do
    let product ← cInt (error * RAOP_SAMPLE_RATE)
    let negated ← cInt (-product)
    some (.skip (u32 (negated.tdiv 1000)))
  else do
    let product ← cInt (error * RAOP_SAMPLE_RATE)
    some (.pause (u32 (product.tdiv 1000)))

namespace RaopSync

/-- `ms`: in how many ms will the most recent block play. -/
def headTime (s : RaopSync) (t : SyncTiming) : ℕ :=
  u32 ((u32 (((int32 (u32 (t.level - s.len))).tdiv BYTES_PER_FRAME + t.deviceFrames +
    t.framesInProcess) * 10) / (RAOP_SAMPLE_RATE / 100) : ℕ) - int32 (u32 (t.now - t.updated)))

/-- `error`; when outputbuf is empty, it means we have a network black-out or something. -/
def error (s : RaopSync) (t : SyncTiming) : ℤ :=
  int32 (if t.level ≠ 0 then u32 (u32 (s.playtime - t.now) - s.headTime t) else 0)

/-- The handler is not refused, and RAOP_TIMING goes beyond its first line. -/
def timed (s : RaopSync) (t : SyncTiming) : Bool :=
  (t.external || halted t.state) && s.enabled && t.state = .running &&
    t.deviceFrames ≤ t.framesPlayedDmp

/-- `sum = count = 0`, and the `memset` of `errors` -/
def clear (s : RaopSync) : RaopSync := { s with sum := 0, count := 0, errors := fun _ => 0 }

/-- Update sliding window. -/
def push (s : RaopSync) (error sum : ℤ) : RaopSync :=
  { s with
    errors := Function.update s.errors (s.count % s.win) error
    count := s.count + 1
    sum := sum }

/-- `raop_sync.sum / min(raop_sync.count, raop_sync.win)` -/
def mean (s : RaopSync) : ℤ := s.sum.tdiv (min s.count s.win : ℕ)

/-- Enough data, or a strong deviation. -/
def due (s : RaopSync) (error : ℤ) : Bool :=
  (s.win ≤ s.count && 10 < error.natAbs) || (SYNC_WIN_CHECK ≤ s.count && 100 < error.natAbs)

/-- Move to normal mode if possible. -/
def adapt (s : RaopSync) (error : ℤ) : RaopSync :=
  if s.win = 1 then { s with win := SYNC_WIN_FAST }
  else if s.win = SYNC_WIN_FAST ∧ SYNC_WIN_FAST ≤ s.count ∧ error.natAbs < 10 then
    { s with win := SYNC_WIN_SLOW }
  else s

/-- RAOP_TIMING, from the update of the window on. -/
def decideOn (s : RaopSync) (win : ℕ) (error : ℤ) : Option (RaopSync × List SyncObs) :=
  if s.due s.mean then do
    let correction ← syncCorrection s.mean
    some (s.clear.adapt s.mean, [.decided error win s.mean, correction])
  else some (s.adapt s.mean, [.decided error win s.mean])

/-- RAOP_TIMING -/
def timing (s : RaopSync) (t : SyncTiming) : Option (RaopSync × List SyncObs) :=
  if s.timed t then do
    let sum ← cInt (s.sum + s.error t)
    (s.push (s.error t) sum).decideOn s.win (s.error t)
  else some (s, [])

/-- RAOP_STREAM; `bt` when the device is Bluetooth. -/
def stream (s : RaopSync) (external : Bool) (state : OutputState) (bt : Bool) :
    RaopSync × List SyncObs :=
  if external || halted state then ({ s.clear with win := 1, enabled := !bt }, [.reset])
  else (s, [])

/-- `raop_sink_data_handler` -/
def data (s : RaopSync) (playtime : ℕ) (len : ℤ) : RaopSync :=
  { s with playtime := playtime, len := len }

end RaopSync

/-! ### Runs -/

/-- What touches `raop_sync`. -/
inductive SyncEvent
  | timing (t : SyncTiming)
  | stream (external : Bool) (state : OutputState) (bt : Bool)
  | data (playtime : ℕ) (len : ℤ)

/-- One event. -/
def syncStep (s : RaopSync) : SyncEvent → Option (RaopSync × List SyncObs)
  | .timing t => s.timing t
  | .stream external state bt => some (s.stream external state bt)
  | .data playtime len => some (s.data playtime len, [])

/-- The sink; `none` is what comes after something undefined. -/
def syncMachine : Runs.Machine (Option RaopSync) SyncEvent SyncObs where
  step s e :=
    match s.bind fun s => syncStep s e with
    | some (s', obs) => (some s', obs)
    | none => (none, [])

/-! ### What a decision should be on -/

/-- The mean of the last `n` numbers, or of all of them if they are fewer. -/
def lastMean (n : ℕ) (log : List ℤ) : ℤ :=
  (log.drop (log.length - n)).sum.tdiv (min log.length n : ℕ)

/-- Keep the errors since the last correction or reset, and see what is decided on. -/
def watchMean (log : List ℤ) : SyncObs → Option (List ℤ)
  | .decided error win mean =>
      if mean = lastMean win (log ++ [error]) then some (log ++ [error]) else none
  | .skip _ | .pause _ | .reset => some []

/-- The errors of a run are averaged: nothing is undefined, and every decision is on the mean of
the last errors since the last correction or reset. -/
def Averaged (es : List SyncEvent) : Prop :=
  (syncMachine.run (some raopSyncInit) es).1.isSome ∧
    (Runs.watch watchMean [] (syncMachine.run (some raopSyncInit) es).2).isSome

instance (es : List SyncEvent) : Decidable (Averaged es) := inferInstanceAs (Decidable (_ ∧ _))

/-- The window has room for another error, and no `int` overflows. -/
def RaopSync.Roomy (s : RaopSync) (t : SyncTiming) : Prop :=
  s.count < s.win ∧ InRange 32 (s.sum + s.error t) ∧
    ((s.push (s.error t) (s.sum + s.error t)).due
        (s.push (s.error t) (s.sum + s.error t)).mean →
      InRange 32 ((s.push (s.error t) (s.sum + s.error t)).mean * RAOP_SAMPLE_RATE))

/-- A step that finds the window with room. -/
def SyncRoomy : Option RaopSync → SyncEvent → Prop
  | some s, .timing t => s.timed t → s.Roomy t
  | _, _ => True

/-! ### The steps -/

/-- `sum` and `count` are those of the errors since the last correction or reset. -/
structure SyncLink (s : RaopSync) (log : List ℤ) : Prop where
  count : s.count = log.length
  sum : s.sum = log.sum

namespace SyncLink

variable {s : RaopSync} {log : List ℤ}

theorem clear (s : RaopSync) : SyncLink s.clear [] := ⟨rfl, rfl⟩

theorem adapt (h : SyncLink s log) (error : ℤ) : SyncLink (s.adapt error) log := by
  unfold RaopSync.adapt
  split
  · exact ⟨h.count, h.sum⟩
  split
  · exact ⟨h.count, h.sum⟩
  · exact h

theorem push (h : SyncLink s log) (error : ℤ) :
    SyncLink (s.push error (s.sum + error)) (log ++ [error]) where
  count := by
    rw [List.length_append, List.length_singleton, ← h.count]
    rfl
  sum := by
    rw [List.sum_append, List.sum_singleton, ← h.sum]
    rfl

/-- In a window with room nothing has been written over. -/
theorem mean (h : SyncLink s log) (hwin : s.count ≤ s.win) : s.mean = lastMean s.win log := by
  have hall : log.length - s.win = 0 := by
    rw [← h.count]
    omega
  rw [RaopSync.mean, lastMean, hall, List.drop_zero, h.count, h.sum]

end SyncLink

/-- An error that has room in the window is averaged, and a correction starts the window again. -/
theorem timing_links {s : RaopSync} {log : List ℤ} {t : SyncTiming} (h : SyncLink s log)
    (htimed : s.timed t) (hroom : s.Roomy t) :
    ∃ s' obs log', s.timing t = some (s', obs) ∧ Runs.watch watchMean log obs = some log' ∧
      SyncLink s' log' := by
  obtain ⟨hlt, hsum, hcorrect⟩ := hroom
  have hpush := h.push (s.error t)
  have hmean : (s.push (s.error t) (s.sum + s.error t)).mean =
      lastMean s.win (log ++ [s.error t]) := hpush.mean hlt
  have hwatch : watchMean log (.decided (s.error t) s.win
      (s.push (s.error t) (s.sum + s.error t)).mean) = some (log ++ [s.error t]) := if_pos hmean
  rw [RaopSync.timing, if_pos htimed, cInt_of_inRange hsum]
  simp only [Option.bind_eq_bind, Option.bind_some]
  generalize s.push (s.error t) (s.sum + s.error t) = p at hcorrect hpush hwatch
  unfold RaopSync.decideOn
  split
  · rename_i hdue
    -- the correction is defined, as its product is
    obtain ⟨c, hc, hreset⟩ : ∃ c, syncCorrection p.mean = some c ∧
        ∀ l, watchMean l c = some [] := by
      have hproduct := cInt_of_inRange (hcorrect hdue)
      unfold syncCorrection
      split
      · have hneg : InRange 32 (-(p.mean * RAOP_SAMPLE_RATE)) := by
          have hrange := hcorrect hdue
          rw [InRange, half] at hrange ⊢
          rw [RAOP_SAMPLE_RATE] at hrange ⊢
          omega
        simp only [hproduct, cInt_of_inRange hneg, Option.bind_eq_bind, Option.bind_some]
        exact ⟨_, rfl, fun _ => rfl⟩
      · simp only [hproduct, Option.bind_eq_bind, Option.bind_some]
        exact ⟨_, rfl, fun _ => rfl⟩
    rw [hc]
    refine ⟨_, _, [], rfl, ?_, (SyncLink.clear p).adapt _⟩
    rw [Runs.watch_cons, hwatch, Option.bind_some, Runs.watch_cons, hreset]
    rfl
  · refine ⟨_, _, log ++ [s.error t], rfl, ?_, hpush.adapt _⟩
    rw [Runs.watch_cons, hwatch]
    rfl

/-- Every event keeps the link, if the window has room. -/
theorem syncStep_links {s : RaopSync} {log : List ℤ} {e : SyncEvent} (h : SyncLink s log)
    (hroom : SyncRoomy (some s) e) :
    ∃ s' obs log', syncStep s e = some (s', obs) ∧ Runs.watch watchMean log obs = some log' ∧
      SyncLink s' log' := by
  cases e with
  | timing t =>
      by_cases htimed : s.timed t
      · exact timing_links h htimed (hroom htimed)
      · exact ⟨s, [], log, if_neg htimed, rfl, h⟩
  | stream external state bt =>
      by_cases hgranted : external || halted state
      · refine ⟨{ s.clear with win := 1, enabled := !bt }, [.reset], [], ?_, rfl, rfl, rfl⟩
        rw [syncStep, RaopSync.stream, if_pos hgranted]
      · refine ⟨s, [], log, ?_, rfl, h⟩
        rw [syncStep, RaopSync.stream, if_neg hgranted]
  | data playtime len => exact ⟨s.data playtime len, [], log, rfl, rfl, h.count, h.sum⟩

/-! ### Runs that find room -/

/-- **Every decision is on the mean of the last errors**, with none from before the last
correction or reset, in every run that finds the window with room for another error. -/
theorem decisions_mean {es : List SyncEvent}
    (h : syncMachine.Along SyncRoomy (some raopSyncInit) es) : Averaged es := by
  have hrun := syncMachine.run_watched (δ := watchMean)
    (R := fun o log => ∃ s, o = some s ∧ SyncLink s log) (P := SyncRoomy) ?_
    (a := []) ⟨raopSyncInit, rfl, rfl, rfl⟩ h
  · obtain ⟨log, hwatch, s, hs, -⟩ := hrun
    constructor
    · rw [hs]
      rfl
    · rw [hwatch]
      rfl
  · rintro o log e ⟨s, rfl, hlink⟩ hroom
    obtain ⟨s', obs, log', hstep, hwatch, hlink'⟩ := syncStep_links hlink hroom
    have hmachine : syncMachine.step (some s) e = (some s', obs) := by
      simp only [syncMachine, Option.bind_some, hstep]
    rw [hmachine]
    exact ⟨log', hwatch, s', rfl, hlink'⟩

instance (o : Option RaopSync) (e : SyncEvent) : Decidable (SyncRoomy o e) :=
  match o, e with
  | some s, .timing t => inferInstanceAs (Decidable (s.timed t → (_ ∧ _ ∧ (_ → _))))
  | some _, .stream .. | some _, .data .. | none, _ => .isTrue trivial

/-- The head plays in no time, and should play in `ms`. -/
def lateBy (ms : ℕ) : List SyncEvent :=
  [.data (5000 + ms) 4, .timing ⟨true, .running, 0, 0, 0, 5000, 4, 5000⟩]

/-- A window that grows to `SYNC_WIN_SLOW`, with a pause on the way. -/
theorem decisions_mean_grown :
    Averaged (.stream true .stopped false :: (lateBy 40 ++ lateBy 4 ++ lateBy 6)) :=
  decisions_mean (by decide)

/-- Three errors of 10 ms: the third decision is on 15, half of all three. -/
theorem not_averaged : ¬∀ es, Averaged es := fun h =>
  absurd (h (.stream true .stopped false :: (lateBy 10 ++ lateBy 10 ++ lateBy 10)))
    (by decide)

end SqueezeliteMuse
