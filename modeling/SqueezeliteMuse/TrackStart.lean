/-
SqueezeliteMuse/TrackStart.lean

When the output signals the start of a track.

`watchTrack` reads the log of the output.  Once a track start is announced, so
many bytes ahead, it counts the bytes that are taken out of `outputbuf`: none
may be taken beyond the track start before it is signalled, and it is signalled
once, when nothing is ahead of it any more, with the sample rate announced for
it.  A flush ends the wait.  When a track is announced while another is
pending, the address of the first is lost; nothing is asked from then on to the
next flush.

`outputbuf` is left at `readp` in three places.  A chunk never goes beyond
`track_start`, but skip ahead and the end of a crossfade do not look at it; and
`_checkfade` can put `outputbuf` elsewhere right after `track_start` was set.
`onTrack` is the condition on these three.

Main result: `track_signalled`, with `track_skipped` when skip ahead goes over a
track start.
-/
import SqueezeliteMuse.Output

namespace SqueezeliteMuse

/-- The track start that is waited for. -/
inductive Marker
  | none
  | pending (ahead rate : ℕ)
  | unbound
  deriving DecidableEq

/-- The observer. -/
def watchTrack : Marker → OutputObs → Option Marker
  | _, .flush => some .none
  | m, .write .. => some m
  | .none, .publish ahead rate => some (.pending ahead rate)
  | .none, .consume _ => some .none
  | .none, .signal .. => none
  | .pending _ _, .publish _ _ => some .unbound
  | .pending ahead rate, .consume bytes =>
      if bytes ≤ ahead then some (.pending (ahead - bytes) rate) else none
  | .pending ahead rate, .signal started played current =>
      if ahead = 0 ∧ started = true ∧ played = 0 ∧ current = rate then some .none else none
  | .unbound, _ => some .unbound

/-- What is to be of the track starts in the run of an output. -/
def TrackSignalled (toGain : ℕ → ℕ → ℤ) (s₀ : Output) (evs : List OutputEvent) : Prop :=
  ∃ m, Runs.watch watchTrack .none ((outputMachine toGain).run s₀ evs).2 = some m

/-! ### Addresses as distances -/

/-- The bytes from `readp` up to an address. -/
def Buffer.ahead (b : Buffer) (p : ℕ) : ℕ :=
  if b.readp ≤ p then p - b.readp else p + b.size - b.readp

namespace Buffer

variable {b : Buffer} {p n : ℕ}

theorem ahead_writep (h : b.Wf) : b.ahead b.writep = bufUsed b := by
  obtain ⟨_, _, _, _, _, _, _⟩ := h
  unfold ahead bufUsed
  split <;> omega

/-- `readp` moves up to an address, and not over it. -/
theorem ahead_bufIncReadp (h : b.Wf) (hlo : b.buf ≤ p) (hhi : p < b.wrap) (hn : n ≤ b.ahead p) :
    (bufIncReadp b n).ahead p = b.ahead p - n := by
  obtain ⟨_, _, _, _, _, _, _⟩ := h
  unfold ahead at hn ⊢
  simp only [bufIncReadp]
  by_cases hw : b.readp + n ≥ b.wrap
  · simp only [if_pos hw]
    split at hn <;> split <;> omega
  · simp only [if_neg hw]
    split at hn <;> split <;> omega

/-- What can be read in one piece does not reach over an address behind `readp`. -/
theorem contRead_le_ahead (h : b.Wf) (hlo : b.buf ≤ p) (hp : p < b.readp) :
    bufContRead b ≤ b.ahead p := by
  obtain ⟨_, _, _, _, _, _, _⟩ := h
  unfold ahead bufContRead
  split <;> split <;> omega

/-- An address some bytes before `writep`. -/
theorem beforeWritep_spec (h : b.Wf) (hn : n ≤ bufUsed b) :
    b.buf ≤ Output.beforeWritep b n ∧ Output.beforeWritep b n < b.wrap ∧
      b.ahead (Output.beforeWritep b n) = bufUsed b - n := by
  have hlt := h.used_lt
  obtain ⟨_, _, _, _, _, _, _⟩ := h
  unfold ahead Output.beforeWritep
  unfold bufUsed at *
  split at hn <;> split <;> split <;> omega

end Buffer

/-! ### The link -/

/-- The decoder cannot put frames into `outputbuf` before it has announced a track. -/
def Output.closed (s : Output) : Prop := ¬ (s.decodeState = .running ∧ s.newStream = false)

/-- What is always so. -/
structure Sound (s : Output) : Prop where
  wf : s.outputbuf.Wf
  base : s.outputbuf.size = s.outputbuf.baseSize
  flushing : s.flushPhase ≠ .idle → s.decodeState = .stopped
  ready : s.decodeState = .ready → s.newStream = true

/-- `track_start` is what is waited for. -/
def Marks (s : Output) : Marker → Prop
  | .none => s.trackStart = none
  | .pending ahead rate =>
      (∃ p, s.trackStart = some p ∧ s.outputbuf.buf ≤ p ∧ p < s.outputbuf.wrap ∧
        s.outputbuf.ahead p = ahead) ∧ s.nextSampleRate = rate
  | .unbound => True

/-- `track_start` is what is waited for, or it is left from before a flush: then `outputbuf` is
empty, and stays so until a track is announced. -/
def Linked (s : Output) (m : Marker) : Prop :=
  Sound s ∧ (Marks s m ∨ (m = .none ∧ bufUsed s.outputbuf = 0 ∧ s.closed))

/-- Two states that do not differ in what the link is about. -/
structure SameTrack (s s' : Output) : Prop where
  outputbuf : s'.outputbuf = s.outputbuf
  trackStart : s'.trackStart = s.trackStart
  nextSampleRate : s'.nextSampleRate = s.nextSampleRate
  decodeState : s'.decodeState = s.decodeState
  newStream : s'.newStream = s.newStream
  flushPhase : s'.flushPhase = s.flushPhase

variable {s s' : Output} {m : Marker} {toGain : ℕ → ℕ → ℤ}

theorem SameTrack.refl (s : Output) : SameTrack s s := ⟨rfl, rfl, rfl, rfl, rfl, rfl⟩

theorem SameTrack.trans {s₁ s₂ s₃ : Output} (h : SameTrack s₁ s₂) (h' : SameTrack s₂ s₃) :
    SameTrack s₁ s₃ :=
  ⟨h'.outputbuf.trans h.outputbuf, h'.trackStart.trans h.trackStart,
    h'.nextSampleRate.trans h.nextSampleRate, h'.decodeState.trans h.decodeState,
    h'.newStream.trans h.newStream, h'.flushPhase.trans h.flushPhase⟩

theorem Sound.same (hs : SameTrack s s') (h : Sound s) : Sound s' where
  wf := hs.outputbuf ▸ h.wf
  base := hs.outputbuf ▸ h.base
  flushing := by
    rw [hs.flushPhase, hs.decodeState]
    exact h.flushing
  ready := by
    rw [hs.decodeState, hs.newStream]
    exact h.ready

/-- Only `track_start`, the rate, and what `readp` is measured by matter. -/
theorem Marks.keep (h : Marks s m) (htrack : s'.trackStart = s.trackStart)
    (hrate : s'.nextSampleRate = s.nextSampleRate) (hbuf : s'.outputbuf.buf = s.outputbuf.buf)
    (hwrap : s'.outputbuf.wrap = s.outputbuf.wrap) (hread : s'.outputbuf.readp = s.outputbuf.readp)
    (hsize : s'.outputbuf.size = s.outputbuf.size) : Marks s' m := by
  cases m with
  | none => exact htrack.trans h
  | pending ahead rate =>
      obtain ⟨⟨p, hp, hlo, hhi, hahead⟩, rfl⟩ := h
      refine ⟨⟨p, htrack.trans hp, hbuf ▸ hlo, hwrap ▸ hhi, ?_⟩, hrate⟩
      rw [← hahead]
      unfold Buffer.ahead
      rw [hread, hsize]
  | unbound => trivial

theorem Marks.same (hs : SameTrack s s') (h : Marks s m) : Marks s' m :=
  h.keep hs.trackStart hs.nextSampleRate (congrArg _ hs.outputbuf) (congrArg _ hs.outputbuf)
    (congrArg _ hs.outputbuf) (congrArg _ hs.outputbuf)

theorem Linked.same (hs : SameTrack s s') (h : Linked s m) : Linked s' m := by
  refine ⟨h.1.same hs, ?_⟩
  rcases h.2 with hm | ⟨rfl, hu, hc⟩
  · exact .inl (hm.same hs)
  · refine .inr ⟨rfl, hs.outputbuf ▸ hu, ?_⟩
    unfold Output.closed
    rw [hs.decodeState, hs.newStream]
    exact hc

/-- While there is something to read, `track_start` is not left from before. -/
theorem Linked.marks (h : Linked s m) (hu : bufUsed s.outputbuf ≠ 0) : Marks s m := by
  rcases h.2 with hm | ⟨-, h0, -⟩
  · exact hm
  · exact absurd h0 hu

/-! ### Bytes taken out -/

/-- So many bytes can be taken out without going beyond a track start. -/
def Output.stays (s : Output) (bytes : ℕ) : Bool :=
  match s.trackStart with
  | some p => bytes ≤ s.outputbuf.ahead p
  | none => true

/-- `readp` moved on. -/
def Output.advance (s : Output) (bytes : ℕ) : Output :=
  { s with outputbuf := bufIncReadp s.outputbuf bytes }

theorem SameTrack.advance (h : SameTrack s s') (n : ℕ) :
    SameTrack (s.advance n) (s'.advance n) where
  outputbuf := by
    show bufIncReadp s'.outputbuf n = bufIncReadp s.outputbuf n
    rw [h.outputbuf]
  trackStart := h.trackStart
  nextSampleRate := h.nextSampleRate
  decodeState := h.decodeState
  newStream := h.newStream
  flushPhase := h.flushPhase

theorem Sound.advance (h : Sound s) {n : ℕ} (hn : n ≤ s.outputbuf.size) : Sound (s.advance n) where
  wf := wf_bufIncReadp h.wf hn
  base := h.base
  flushing := h.flushing
  ready := h.ready

/-- So many bytes can be taken out before the track start that is waited for. -/
def Marker.stays : Marker → ℕ → Prop
  | .pending ahead _, bytes => bytes ≤ ahead
  | _, _ => True

/-- What is waited for after so many bytes. -/
def Marker.after : Marker → ℕ → Marker
  | .pending ahead rate, bytes => .pending (ahead - bytes) rate
  | m, _ => m

theorem Marker.stays_after {n k : ℕ} (h : m.stays (n + k)) : m.stays n ∧ (m.after n).stays k := by
  cases m with
  | none => exact ⟨trivial, trivial⟩
  | pending ahead rate =>
      simp only [stays, after] at h ⊢
      omega
  | unbound => exact ⟨trivial, trivial⟩

theorem Marker.stays.mono {n k : ℕ} (h : m.stays k) (hle : n ≤ k) : m.stays n := by
  cases m with
  | none => trivial
  | pending ahead rate => exact Nat.le_trans hle h
  | unbound => trivial

theorem watch_consume {n : ℕ} (h : m.stays n) : watchTrack m (.consume n) = some (m.after n) := by
  cases m with
  | none => rfl
  | pending ahead rate => exact if_pos h
  | unbound => rfl

theorem Marks.stays (h : Marks s m) {n : ℕ} (hn : s.stays n = true) : m.stays n := by
  cases m with
  | none => trivial
  | pending ahead rate =>
      obtain ⟨⟨p, hp, -, -, rfl⟩, -⟩ := h
      show n ≤ s.outputbuf.ahead p
      simpa [Output.stays, hp] using hn
  | unbound => trivial

/-- Bytes are taken out up to the track start at most. -/
theorem Marks.advance (h : Sound s) (hm : Marks s m) {n : ℕ} (hn : m.stays n) :
    Marks (s.advance n) (m.after n) := by
  cases m with
  | none => exact hm
  | pending ahead rate =>
      obtain ⟨⟨p, hp, hlo, hhi, rfl⟩, hrate⟩ := hm
      exact ⟨⟨p, hp, hlo, hhi, Buffer.ahead_bufIncReadp h.wf hlo hhi hn⟩, hrate⟩
  | unbound => trivial

/-! ### The parts of `_output_frames` -/

/-- Each advance of skip ahead is within the buffer. -/
theorem skipLoop_links (fuel : ℕ) {skip : ℕ} (h : Sound s) (hm : Marks s m)
    (hskip : m.stays (skip * BYTES_PER_FRAME)) :
    ∃ m', Runs.watch watchTrack m (skipLoop fuel skip s.outputbuf).2 = some m' ∧
      Sound { s with outputbuf := (skipLoop fuel skip s.outputbuf).1 } ∧
      Marks { s with outputbuf := (skipLoop fuel skip s.outputbuf).1 } m' := by
  induction fuel generalizing s m skip with
  | zero => exact ⟨m, rfl, ⟨h.wf, h.base, h.flushing, h.ready⟩, hm.same (SameTrack.refl s)⟩
  | succ fuel ih =>
      rw [skipLoop]
      split
      · exact ⟨m, rfl, ⟨h.wf, h.base, h.flushing, h.ready⟩, hm.same (SameTrack.refl s)⟩
      · have hcont : min skip (bufContRead s.outputbuf / BYTES_PER_FRAME) * BYTES_PER_FRAME ≤
            s.outputbuf.size := by
          have hle := h.wf.contRead_le
          simp only [BYTES_PER_FRAME]
          omega
        have hsplit : m.stays (min skip (bufContRead s.outputbuf / BYTES_PER_FRAME) *
            BYTES_PER_FRAME + (skip - min skip (bufContRead s.outputbuf / BYTES_PER_FRAME)) *
            BYTES_PER_FRAME) := by
          rwa [← Nat.add_mul, Nat.add_sub_of_le (Nat.min_le_left _ _)]
        obtain ⟨hfirst, hrest⟩ := Marker.stays_after hsplit
        obtain ⟨m', hw, hs', hm'⟩ := ih (h.advance hcont) (hm.advance h hfirst) hrest
        refine ⟨m', ?_, hs', hm'⟩
        rw [Runs.watch_cons, watch_consume hfirst, Option.bind_some]
        exact hw

theorem same_startBuffer (s : Output) (frames : ℕ) : SameTrack s (s.startBuffer frames) := by
  unfold Output.startBuffer
  split <;> exact ⟨rfl, rfl, rfl, rfl, rfl, rfl⟩

theorem same_pauseFor (s : Output) (avail frames now : ℕ) :
    SameTrack s (s.pauseFor avail frames now).1 := by
  unfold Output.pauseFor
  split
  · split <;> exact ⟨rfl, rfl, rfl, rfl, rfl, rfl⟩
  split
  · split <;> exact ⟨rfl, rfl, rfl, rfl, rfl, rfl⟩
  · exact SameTrack.refl s

/-- A track start is signalled when it is reached. -/
theorem startTrack_links (h : Sound s) (hm : Marks s m)
    (hreach : s.trackStart = some s.outputbuf.readp) (now : ℕ) :
    ∃ m', Runs.watch watchTrack m (s.startTrack now).2 = some m' ∧
      Sound (s.startTrack now).1 ∧ Marks (s.startTrack now).1 m' := by
  unfold Output.startTrack
  split
  · -- the first half of the delay
    have hsame : SameTrack s s.delayTrack := ⟨rfl, rfl, rfl, rfl, rfl, rfl⟩
    exact ⟨m, rfl, h.same hsame, hm.same hsame⟩
  · cases m with
    | none =>
        rw [show s.trackStart = none from hm] at hreach
        cases hreach
    | pending ahead rate =>
        obtain ⟨⟨p, hp, -, -, rfl⟩, rfl⟩ := hm
        obtain rfl : p = s.outputbuf.readp := Option.some.inj (hp.symm.trans hreach)
        have hzero : s.outputbuf.ahead s.outputbuf.readp = 0 := by simp [Buffer.ahead]
        refine ⟨.none, ?_, ⟨h.wf, h.base, h.flushing, h.ready⟩, rfl⟩
        simp [watchTrack, hzero, Output.beginTrack]
    | unbound => exact ⟨.unbound, rfl, ⟨h.wf, h.base, h.flushing, h.ready⟩, trivial⟩

/-- A crossfade ends here, and what was crossfaded is skipped. -/
def Output.crossfadeEnds (s : Output) : Bool :=
  (s.fade = .active ∨ (s.fade = .due ∧ s.fadeStart = s.outputbuf.readp)) ∧
    s.durFrames ≤ s.curFrames ∧ s.fadeMode = .crossfade ∧ s.durBytes ≤ bufUsed s.outputbuf

theorem same_fadeReached (s : Output) : SameTrack s s.fadeReached := by
  unfold Output.fadeReached
  split <;> exact ⟨rfl, rfl, rfl, rfl, rfl, rfl⟩

theorem contBeforeFade_le (s : Output) (cont : ℕ) : s.contBeforeFade cont ≤ cont := by
  unfold Output.contBeforeFade
  split <;> omega

theorem same_fadeGains (x : Playing) (cur dur : ℕ) :
    SameTrack x.out (Playing.fadeGains toGain x cur dur).out ∧
      (Playing.fadeGains toGain x cur dur).size = x.size := by
  unfold Playing.fadeGains
  split
  · exact ⟨SameTrack.refl _, rfl⟩
  · exact ⟨SameTrack.refl _, rfl⟩
  · split
    · exact ⟨SameTrack.refl _, rfl⟩
    · exact ⟨⟨rfl, rfl, rfl, rfl, rfl, rfl⟩, rfl⟩

/-- A fade that is found complete moves `readp` at the end of a crossfade only. -/
theorem fadeEnded_cases (s : Output) :
    (s.fadeEnded.2 = [] ∧ SameTrack s s.fadeEnded.1) ∨
      (s.durFrames ≤ s.curFrames ∧ s.fadeMode = .crossfade ∧ s.durBytes ≤ bufUsed s.outputbuf ∧
        s.fadeEnded.1.fade = .inactive ∧ s.fadeEnded.2 = [.consume s.durBytes] ∧
        SameTrack (s.advance s.durBytes) s.fadeEnded.1) := by
  unfold Output.fadeEnded
  split
  swap
  · exact .inl ⟨rfl, SameTrack.refl s⟩
  rename_i hend
  unfold Output.fadeComplete
  split
  · exact .inl ⟨rfl, rfl, rfl, rfl, rfl, rfl, rfl⟩
  split
  · rename_i hmode
    split
    · rename_i hused
      exact .inr ⟨hend, hmode, hused, rfl, rfl, rfl, rfl, rfl, rfl, rfl, rfl⟩
    · exact .inl ⟨rfl, rfl, rfl, rfl, rfl, rfl, rfl⟩
  · exact .inl ⟨rfl, rfl, rfl, rfl, rfl, rfl, rfl⟩

variable (toGain) in
/-- The rest of an active fade leaves all of it alone, and makes the chunk smaller at most. -/
theorem fadeActive_spec (x : Playing) (cont : ℕ) :
    (Playing.fadeActive toGain x cont).1.size = x.size ∧
      (Playing.fadeActive toGain x cont).2.1 ≤ cont ∧
      (x.out.fadeEnded.1.fade = .inactive → (Playing.fadeActive toGain x cont).2.1 = cont) ∧
      (Playing.fadeActive toGain x cont).2.2 = x.out.fadeEnded.2 ∧
      SameTrack x.out.fadeEnded.1 (Playing.fadeActive toGain x cont).1.out := by
  unfold Playing.fadeActive
  split
  · exact ⟨rfl, Nat.le_refl _, fun _ => rfl, rfl, SameTrack.refl _⟩
  · rename_i hgoes
    refine ⟨(same_fadeGains _ _ _).2, ?_, fun hoff => absurd hoff hgoes, rfl,
      (same_fadeGains { x with out := x.out.fadeEnded.1 } _ _).1⟩
    show Output.contInFade _ _ ≤ _
    unfold Output.contInFade
    split <;> omega

variable (toGain) in
/-- The part of a chunk that deals with a fade: it makes the chunk smaller at most, or is the end
of a crossfade. -/
theorem fadeChunk_cases (x : Playing) (cont : ℕ) :
    (Playing.fadeChunk toGain x cont).1.size = x.size ∧
    (((Playing.fadeChunk toGain x cont).2.1 ≤ cont ∧
        (Playing.fadeChunk toGain x cont).2.2 = [] ∧
        SameTrack x.out (Playing.fadeChunk toGain x cont).1.out) ∨
      (x.out.crossfadeEnds = true ∧
        (Playing.fadeChunk toGain x cont).2.1 = cont ∧
        (Playing.fadeChunk toGain x cont).2.2 = [.consume x.out.durBytes] ∧
        SameTrack (x.out.advance x.out.durBytes) (Playing.fadeChunk toGain x cont).1.out)) := by
  have hreached := same_fadeReached x.out
  have hle := contBeforeFade_le x.out cont
  unfold Playing.fadeChunk
  split
  swap
  · exact ⟨rfl, .inl ⟨hle, rfl, hreached⟩⟩
  rename_i hactive
  -- the fade is active, or was due until now
  have hdue : x.out.fade = .active ∨
      (x.out.fade = .due ∧ x.out.fadeStart = x.out.outputbuf.readp) := by
    unfold Output.fadeReached at hactive
    split at hactive
    · exact .inr ‹_›
    · exact .inl hactive
  have hcont : x.out.contBeforeFade cont = cont := by
    unfold Output.contBeforeFade
    rcases hdue with h | ⟨-, h⟩
    · rw [if_neg (by simp [h])]
    · rw [if_neg (by omega)]
  obtain ⟨hcur, hdur, hmode⟩ : x.out.fadeReached.curFrames = x.out.curFrames ∧
      x.out.fadeReached.durFrames = x.out.durFrames ∧
      x.out.fadeReached.fadeMode = x.out.fadeMode := by
    unfold Output.fadeReached
    split <;> exact ⟨rfl, rfl, rfl⟩
  have hbytes : x.out.fadeReached.durBytes = x.out.durBytes := by
    unfold Output.durBytes
    rw [hdur]
  obtain ⟨hsize, hsmall, hfull, hobs, hsame⟩ := fadeActive_spec toGain
    { x with out := x.out.fadeReached } (x.out.contBeforeFade cont)
  rw [hcont] at *
  refine ⟨hsize, ?_⟩
  rcases fadeEnded_cases x.out.fadeReached with
    ⟨hnone, hend⟩ | ⟨hend, hcross, hused, hoff, hskip, hadv⟩
  · exact .inl ⟨hsmall, hobs.trans hnone, (hreached.trans hend).trans hsame⟩
  · refine .inr ⟨?_, hfull hoff, by rw [hobs, ← hbytes]; exact hskip, ?_⟩
    · rw [hbytes, hreached.outputbuf] at hused
      simp only [Output.crossfadeEnds, decide_eq_true_eq]
      exact ⟨hdue, by rwa [hcur, hdur] at hend, hmode ▸ hcross, hused⟩
    · rw [hbytes] at hadv
      exact ((hreached.advance _).trans hadv).trans hsame

/-! ### The loop -/

/-- A chunk does not go beyond a track start. -/
theorem contFrames_stays (h : Sound s) (hm : Marks s m)
    (hne : s.trackStart ≠ some s.outputbuf.readp) : m.stays (s.contFrames * BYTES_PER_FRAME) := by
  cases m with
  | none => trivial
  | pending ahead rate =>
      obtain ⟨⟨p, hp, hlo, -, rfl⟩, -⟩ := hm
      show s.contFrames * BYTES_PER_FRAME ≤ s.outputbuf.ahead p
      have hread : p ≠ s.outputbuf.readp := by
        rintro rfl
        exact hne hp
      simp only [Output.contFrames, hp]
      split
      · rename_i hahead
        have hdist : s.outputbuf.ahead p = p - s.outputbuf.readp :=
          if_pos (Nat.le_of_lt hahead)
        rw [hdist]
        simp only [BYTES_PER_FRAME]
        omega
      · have hcont := Buffer.contRead_le_ahead h.wf hlo (by omega)
        simp only [BYTES_PER_FRAME]
        omega
  | unbound => trivial

theorem contFrames_le (h : s.outputbuf.Wf) :
    s.contFrames * BYTES_PER_FRAME ≤ s.outputbuf.size := by
  have hle := h.contRead_le
  unfold Output.contFrames
  split
  · split
    · simp only [BYTES_PER_FRAME]
      omega
    · simp only [BYTES_PER_FRAME]
      omega
  · simp only [BYTES_PER_FRAME]
    omega

theorem watch_writeCall (silence : Bool) (x : Playing) (frames : ℕ) (m : Marker) :
    watchTrack m (Playing.writeCall silence x frames) = some m := by
  cases m <;> rfl

/-- Silence takes nothing out. -/
theorem writeChunk_silent (answer : ℤ) (x : Playing) (cont : ℕ) (m : Marker) :
    (Playing.writeChunk true answer x cont).1.out = x.out ∧
      Runs.watch watchTrack m (Playing.writeChunk true answer x cont).2.1 = some m := by
  unfold Playing.writeChunk
  split
  · exact ⟨rfl, by simp only [Runs.watch_cons, watch_writeCall, Option.bind_some, Runs.watch_nil]⟩
  · rw [if_pos rfl]
    exact ⟨rfl, by simp only [Runs.watch_cons, watch_writeCall, Option.bind_some, Runs.watch_nil]⟩

/-- A chunk that is written, and taken out. -/
theorem writeChunk_links (answer : ℤ) {x : Playing} (cont : ℕ) (h : Sound x.out)
    (hm : Marks x.out m)
    (hsize : Playing.wrote answer (min x.size cont) * BYTES_PER_FRAME ≤ x.out.outputbuf.size)
    (hstays : m.stays (Playing.wrote answer (min x.size cont) * BYTES_PER_FRAME)) :
    ∃ m', Runs.watch watchTrack m (Playing.writeChunk false answer x cont).2.1 = some m' ∧
      Sound (Playing.writeChunk false answer x cont).1.out ∧
      Marks (Playing.writeChunk false answer x cont).1.out m' := by
  have hframes : Playing.outFrames false x cont = min x.size cont := rfl
  unfold Playing.writeChunk
  rw [hframes]
  split
  · refine ⟨m, ?_, h, hm⟩
    simp only [Runs.watch_cons, watch_writeCall, Option.bind_some, Runs.watch_nil]
  · have hplayed : ∀ n, SameTrack (x.out.advance (n * BYTES_PER_FRAME)) (x.out.played n) :=
      fun n => ⟨rfl, rfl, rfl, rfl, rfl, rfl⟩
    rw [if_neg Bool.false_ne_true]
    refine ⟨m.after (Playing.wrote answer (min x.size cont) * BYTES_PER_FRAME), ?_, ?_, ?_⟩
    · simp only [Runs.watch_cons, watch_writeCall, Option.bind_some, watch_consume hstays,
        Runs.watch_nil]
    · exact (h.advance hsize).same (hplayed _)
    · exact (hm.advance h hstays).same (hplayed _)

/-- In a round of the loop in which a crossfade ends, what is skipped and the chunk that follows
do not go beyond a track start. -/
def roundClear (answer : ℤ) (x : Playing) : Bool :=
  x.out.trackStart = some x.out.outputbuf.readp || !x.out.crossfadeEnds ||
    x.out.stays (x.out.durBytes +
      Playing.wrote answer (min x.size x.out.contFrames) * BYTES_PER_FRAME)

theorem wrote_le (answer : ℤ) (frames : ℕ) : Playing.wrote answer frames ≤ frames :=
  Nat.min_le_right _ _

variable (toGain) in
/-- A round of the loop that is not silent. -/
theorem round_links {answer : ℤ} {x : Playing} (now : ℕ) (h : Sound x.out) (hm : Marks x.out m)
    (hclear : roundClear answer x = true) :
    ∃ m', Runs.watch watchTrack m (Playing.round toGain false now answer x).2.1 = some m' ∧
      Sound (Playing.round toGain false now answer x).1.out ∧
      Marks (Playing.round toGain false now answer x).1.out m' := by
  unfold Playing.round
  rw [if_neg Bool.false_ne_true]
  split
  · rename_i hreach
    exact startTrack_links h hm hreach now
  rename_i hne
  have hcont := contFrames_le h.wf
  obtain ⟨hsize, hfade⟩ := fadeChunk_cases toGain x x.out.contFrames
  rcases hfade with ⟨hsmall, hobs, hsame⟩ | ⟨hends, hfull, hobs, hsame⟩
  · -- the chunk is within `cont_frames`
    have hle : Playing.wrote answer (min (Playing.fadeChunk toGain x x.out.contFrames).1.size
        (Playing.fadeChunk toGain x x.out.contFrames).2.1) ≤ x.out.contFrames :=
      Nat.le_trans (wrote_le _ _) (Nat.le_trans (Nat.min_le_right _ _) hsmall)
    have hbytes := Nat.mul_le_mul_right BYTES_PER_FRAME hle
    obtain ⟨m', hw, hs', hm'⟩ := writeChunk_links answer _ (h.same hsame)
      (hm.same hsame) (by rw [hsame.outputbuf]; omega)
      ((contFrames_stays h hm hne).mono hbytes)
    refine ⟨m', ?_, hs', hm'⟩
    rw [Runs.watch_append, hobs, Runs.watch_nil, Option.bind_some]
    exact hw
  · -- the skip and the chunk after it are both looked at
    have hstays : m.stays (x.out.durBytes +
        Playing.wrote answer (min x.size x.out.contFrames) * BYTES_PER_FRAME) := by
      apply hm.stays
      simpa [roundClear, hne, hends] using hclear
    obtain ⟨hfirst, hrest⟩ := Marker.stays_after hstays
    have hused : x.out.durBytes ≤ x.out.outputbuf.size := by
      have hlt := h.wf.used_lt
      simp only [Output.crossfadeEnds, decide_eq_true_eq] at hends
      omega
    have hs₁ := (h.advance hused).same hsame
    have hm₁ := (hm.advance h hfirst).same hsame
    have hle : Playing.wrote answer (min x.size x.out.contFrames) ≤ x.out.contFrames :=
      Nat.le_trans (wrote_le _ _) (Nat.min_le_right _ _)
    have hbytes := Nat.mul_le_mul_right BYTES_PER_FRAME hle
    obtain ⟨m', hw, hs', hm'⟩ := writeChunk_links answer
      (Playing.fadeChunk toGain x x.out.contFrames).2.1 hs₁ hm₁
      (by
        rw [hsize, hfull, hsame.outputbuf]
        show _ ≤ x.out.outputbuf.size
        omega)
      (by rw [hsize, hfull]; exact hrest)
    refine ⟨m', ?_, hs', hm'⟩
    rw [Runs.watch_append, hobs, Runs.watch_cons, watch_consume hfirst, Option.bind_some,
      Runs.watch_nil, Option.bind_some]
    exact hw

/-- Every round of the loop is clear. -/
def loopClear (toGain : ℕ → ℕ → ℤ) (now : ℕ) : ℕ → (ℕ → ℤ) → Playing → Bool
  | 0, _, _ => true
  | fuel + 1, answers, x =>
      x.size = 0 || (roundClear (answers 0) x &&
        (!(Playing.round toGain false now (answers 0) x).2.2 ||
          loopClear toGain now fuel (fun i => answers (i + 1))
            (Playing.round toGain false now (answers 0) x).1))

theorem loop_links (now fuel : ℕ) (answers : ℕ → ℤ) (x : Playing) (h : Sound x.out)
    (hm : Marks x.out m) (hclear : loopClear toGain now fuel answers x = true) :
    ∃ m', Runs.watch watchTrack m (Playing.loop toGain false now fuel answers x).2 = some m' ∧
      Sound (Playing.loop toGain false now fuel answers x).1.out ∧
      Marks (Playing.loop toGain false now fuel answers x).1.out m' := by
  induction fuel generalizing answers x m with
  | zero => exact ⟨m, rfl, h, hm⟩
  | succ fuel ih =>
      rw [Playing.loop]
      split
      · exact ⟨m, rfl, h, hm⟩
      · rename_i hgo
        simp only [loopClear, hgo, decide_false, Bool.false_or, Bool.and_eq_true,
          Bool.or_eq_true, Bool.not_eq_true'] at hclear
        obtain ⟨m₁, hw₁, hs₁, hm₁⟩ := round_links toGain now h hm hclear.1
        by_cases hmore : (Playing.round toGain false now (answers 0) x).2.2 = true
        · obtain ⟨m₂, hw₂, hs₂, hm₂⟩ := ih _ _ hs₁ hm₁
            (hclear.2.resolve_left (by rw [hmore]; exact Bool.noConfusion))
          simp only [if_pos hmore]
          refine ⟨m₂, ?_, hs₂, hm₂⟩
          rw [Runs.watch_append, hw₁, Option.bind_some, hw₂]
        · simp only [if_neg hmore]
          exact ⟨m₁, hw₁, hs₁, hm₁⟩

variable (toGain) in
/-- A silent loop leaves the state alone. -/
theorem loop_silent (now fuel : ℕ) (answers : ℕ → ℤ) (x : Playing) (m : Marker) :
    (Playing.loop toGain true now fuel answers x).1.out = x.out ∧
      Runs.watch watchTrack m (Playing.loop toGain true now fuel answers x).2 = some m := by
  induction fuel generalizing answers x with
  | zero => exact ⟨rfl, rfl⟩
  | succ fuel ih =>
      rw [Playing.loop]
      split
      · exact ⟨rfl, rfl⟩
      · obtain ⟨hout, hw⟩ : (Playing.round toGain true now (answers 0) x).1.out = x.out ∧
            Runs.watch watchTrack m (Playing.round toGain true now (answers 0) x).2.1 = some m :=
          writeChunk_silent _ _ _ _
        by_cases hmore : (Playing.round toGain true now (answers 0) x).2.2 = true
        · obtain ⟨hout', hw'⟩ := ih (fun i => answers (i + 1))
            (Playing.round toGain true now (answers 0) x).1
          simp only [if_pos hmore]
          refine ⟨hout'.trans hout, ?_⟩
          rw [Runs.watch_append, hw, Option.bind_some, hw']
        · simp only [if_neg hmore]
          exact ⟨hout, hw⟩

/-! ### `_output_frames` -/

/-- Skip ahead, and the end of a crossfade, do not go beyond a track start. -/
def framesClear (toGain : ℕ → ℕ → ℤ) (s : Output) (avail now : ℕ) (answers : ℕ → ℤ) : Bool :=
  s.stays (s.skipCount (bufUsed s.outputbuf / BYTES_PER_FRAME) * BYTES_PER_FRAME) &&
    ((s.beginFrames avail now).2.2 ||
      loopClear toGain now (s.beginFrames avail now).2.1 answers
        (s.playing (s.beginFrames avail now).1 (s.beginFrames avail now).2.1))

theorem skipCount_startBuffer (s : Output) (frames : ℕ) :
    (s.startBuffer frames).skipCount frames = s.skipCount frames := by
  unfold Output.startBuffer
  split
  · rename_i h
    simp [Output.skipCount, h.1]
  · rfl

/-- Skip ahead, within what is clear. -/
theorem skipAhead_links (h : Sound s) (hm : Marks s m) (frames : ℕ)
    (hstays : m.stays (s.skipCount frames * BYTES_PER_FRAME)) :
    ∃ m', Runs.watch watchTrack m (s.skipAhead frames).2 = some m' ∧
      Sound (s.skipAhead frames).1 ∧ Marks (s.skipAhead frames).1 m' := by
  unfold Output.skipAhead
  split
  · obtain ⟨m', hw, hs', hm'⟩ := skipLoop_links (s.skipCount frames) h hm hstays
    refine ⟨m', hw, ⟨hs'.wf, hs'.base, hs'.flushing, hs'.ready⟩, ?_⟩
    exact Marks.same (s := { s with outputbuf := (skipLoop (s.skipCount frames)
      (s.skipCount frames) s.outputbuf).1 }) ⟨rfl, rfl, rfl, rfl, rfl, rfl⟩ hm'
  · exact ⟨m, rfl, h, hm⟩

/-- Where there is no frame, there is silence, and nothing is skipped. -/
theorem beginFrames_empty (hu : bufUsed s.outputbuf = 0) (avail now : ℕ) :
    (s.beginFrames avail now).2.2 = true ∧ SameTrack s (s.beginFrames avail now).1 ∧
      ((s.startBuffer (bufUsed s.outputbuf / BYTES_PER_FRAME)).skipAhead
        (bufUsed s.outputbuf / BYTES_PER_FRAME)).2 = [] := by
  have hframes : bufUsed s.outputbuf / BYTES_PER_FRAME = 0 := by rw [hu, Nat.zero_div]
  have hcount : ∀ t : Output, t.skipCount 0 = 0 := by
    intro t
    unfold Output.skipCount
    split
    · exact Nat.zero_min _
    · rfl
  have hskip : ∀ t : Output, SameTrack t (t.skipAhead 0).1 ∧ (t.skipAhead 0).2 = [] := by
    intro t
    unfold Output.skipAhead
    split
    · rw [hcount]
      exact ⟨⟨rfl, rfl, rfl, rfl, rfl, rfl⟩, rfl⟩
    · exact ⟨SameTrack.refl t, rfl⟩
  refine ⟨?_, ?_, ?_⟩
  · simp only [Output.beginFrames, hframes, Nat.zero_sub]
    unfold Output.silenceFor
    split
    · rfl
    · rename_i hloud
      -- frames that are not left from `outputbuf` are those of a pause
      rw [not_or] at hloud
      revert hloud
      unfold Output.pauseFor
      split
      · split
        · exact fun hloud => absurd rfl hloud.2
        · exact fun _ => rfl
      split
      · split
        · exact fun hloud => absurd rfl hloud.2
        · exact fun _ => rfl
      · exact fun hloud => absurd rfl hloud.2
  · simp only [Output.beginFrames, hframes]
    exact ((same_startBuffer s 0).trans (hskip _).1).trans (same_pauseFor _ _ _ _)
  · rw [hframes]
    exact (hskip _).2

/-- A call of `_output_frames` keeps the link. -/
theorem outputFrames_links (h : Linked s m) {avail now : ℕ} {answers : ℕ → ℤ}
    (hclear : framesClear toGain s avail now answers = true) :
    ∃ m', Runs.watch watchTrack m (s.outputFrames toGain avail now answers).2.2 = some m' ∧
      Linked (s.outputFrames toGain avail now answers).1 m' := by
  by_cases hu : bufUsed s.outputbuf = 0
  · obtain ⟨hsilent, hsame, hobs⟩ := beginFrames_empty hu avail now
    obtain ⟨hout, hw⟩ := loop_silent toGain now (s.beginFrames avail now).2.1 answers
      (s.playing (s.beginFrames avail now).1 (s.beginFrames avail now).2.1) m
    refine ⟨m, ?_, ?_⟩
    · simp only [Output.outputFrames, hobs, hsilent, List.nil_append]
      exact hw
    · apply h.same
      simp only [Output.outputFrames, hsilent]
      rw [hout]
      exact hsame
  · have hm := h.marks hu
    simp only [framesClear, Bool.and_eq_true, Bool.or_eq_true] at hclear
    obtain ⟨hskip, hloop⟩ := hclear
    have hstart := same_startBuffer s (bufUsed s.outputbuf / BYTES_PER_FRAME)
    obtain ⟨m₁, hw₁, hs₁, hm₁⟩ := skipAhead_links (h.1.same hstart) (hm.same hstart)
      (bufUsed s.outputbuf / BYTES_PER_FRAME)
      (by rw [skipCount_startBuffer]; exact hm.stays hskip)
    have hpause : SameTrack _ (s.beginFrames avail now).1 := same_pauseFor
      ((s.startBuffer (bufUsed s.outputbuf / BYTES_PER_FRAME)).skipAhead
        (bufUsed s.outputbuf / BYTES_PER_FRAME)).1 avail _ now
    have hs₂ := hs₁.same hpause
    have hm₂ := hm₁.same hpause
    by_cases hsilent : (s.beginFrames avail now).2.2 = true
    · obtain ⟨hout, hw⟩ := loop_silent toGain now (s.beginFrames avail now).2.1 answers
        (s.playing (s.beginFrames avail now).1 (s.beginFrames avail now).2.1) m₁
      refine ⟨m₁, ?_, ?_⟩
      · simp only [Output.outputFrames, hsilent]
        rw [Runs.watch_append, hw₁, Option.bind_some]
        exact hw
      · simp only [Output.outputFrames, hsilent]
        rw [hout]
        exact ⟨hs₂, .inl hm₂⟩
    · obtain ⟨m₂, hw, hs₃, hm₃⟩ := loop_links now (s.beginFrames avail now).2.1 answers
        (s.playing (s.beginFrames avail now).1 (s.beginFrames avail now).2.1) hs₂ hm₂
        (hloop.resolve_left hsilent)
      rw [Bool.not_eq_true] at hsilent
      refine ⟨m₂, ?_, ?_⟩
      · simp only [Output.outputFrames, hsilent]
        rw [Runs.watch_append, hw₁, Option.bind_some]
        exact hw
      · simp only [Output.outputFrames, hsilent]
        exact ⟨hs₃, .inl hm₃⟩

/-! ### The decoder -/

/-- `malloc` gives a block where the buffer was. -/
def blockKept (b : Buffer) : Option Block → Option Block → Bool
  | some blk, _ => blk.addr = b.buf
  | none, some blk => blk.addr = b.buf
  | none, none => false

/-- If `_checkfade` resizes `outputbuf` for a track that has been announced, it stays where it
is. -/
def publishClear (s : Output) (first second : Option Block) : Bool :=
  !(s.decodeState = .running ∧ s.newStream ∧ s.fadeMode = .crossfade ∧
    bufUsed s.outputbuf = 0 ∧ s.outputbuf.size = OUTPUTBUF_SIZE ∧
    s.outputbuf.readp = s.outputbuf.buf) || blockKept s.outputbuf first second

/-- A resized buffer that stays where it is begins at the address it had. -/
theorem bufResize_kept {b : Buffer} {first second : Option Block} (hb : b.size = OUTPUTBUF_SIZE)
    (hkept : blockKept b first second = true) :
    (bufResize b OUTPUTBUF_SIZE_CROSSFADE first second).Wf ∧
      (bufResize b OUTPUTBUF_SIZE_CROSSFADE first second).size =
        (bufResize b OUTPUTBUF_SIZE_CROSSFADE first second).baseSize ∧
      (bufResize b OUTPUTBUF_SIZE_CROSSFADE first second).readp = b.buf ∧
      (bufResize b OUTPUTBUF_SIZE_CROSSFADE first second).writep = b.buf := by
  have hne : OUTPUTBUF_SIZE_CROSSFADE ≠ b.size := by
    rw [hb]
    decide
  unfold bufResize
  rw [if_neg hne]
  match first, second with
  | some blk, _ =>
      have haddr : blk.addr = b.buf := by simpa [blockKept] using hkept
      exact ⟨wf_bufReset b blk (by decide), rfl, haddr, haddr⟩
  | none, some blk =>
      have haddr : blk.addr = b.buf := by simpa [blockKept] using hkept
      exact ⟨wf_bufReset b blk (by rw [hb]; decide), rfl, haddr, haddr⟩
  | none, none => simp [blockKept] at hkept

/-- The state after a track start is announced. -/
def Output.announced (s : Output) (rate : ℕ) (first second : Option Block) : Output :=
  if s.fadeMode = .none then s.announce rate
  else (s.announce rate).checkfadeStart first second

/-- A track start that has just been announced is where it is announced to be. -/
theorem announced_marks (h : Sound s) (hrun : s.decodeState = .running)
    (hnew : s.newStream = true) (rate : ℕ)
    {first second : Option Block} (hclear : publishClear s first second = true) :
    Sound (s.announced rate first second) ∧
      Marks (s.announced rate first second)
        (.pending (bufUsed (s.announced rate first second).outputbuf -
          (s.announce rate).overlap) rate) := by
  have hready : ∀ t : Output, t.decodeState = .running →
      (t.decodeState = .ready → t.newStream = true) := by
    intro t ht h0
    rw [ht] at h0
    cases h0
  -- what there is to show when `track_start` stays at `writep`
  have hplain : ∀ t : Output, SameTrack (s.announce rate) t → (s.announce rate).overlap = 0 →
      Sound t ∧ Marks t (.pending (bufUsed t.outputbuf - (s.announce rate).overlap) rate) := by
    intro t ht hzero
    have hsound : Sound (s.announce rate) := ⟨h.wf, h.base, h.flushing, hready _ hrun⟩
    refine ⟨hsound.same ht, ⟨s.outputbuf.writep, ht.trackStart, ?_, ?_, ?_⟩,
      ht.nextSampleRate⟩
    · rw [ht.outputbuf]; exact h.wf.writep_ge
    · rw [ht.outputbuf]; exact h.wf.writep_lt
    · rw [ht.outputbuf, hzero, Nat.sub_zero]; exact Buffer.ahead_writep h.wf
  have hzero : s.fadeMode ≠ .crossfade ∨ bufUsed s.outputbuf = 0 ∨ rate ≠ s.currentSampleRate →
      (s.announce rate).overlap = 0 := by
    intro hno
    apply if_neg
    show ¬ (s.fadeMode = .crossfade ∧ bufUsed s.outputbuf ≠ 0 ∧ rate = s.currentSampleRate)
    rintro ⟨hmode, hused, hrate⟩
    rcases hno with hn | hn | hn
    · exact hn hmode
    · exact hused hn
    · exact hn hrate
  unfold Output.announced
  split
  · rename_i hnone
    exact hplain _ (SameTrack.refl _) (hzero (.inl (by rw [hnone]; decide)))
  unfold Output.checkfadeStart
  split
  · rename_i hin
    have hmode : s.fadeMode ≠ .crossfade := by
      intro hc
      rcases hin with hin | ⟨hin, -⟩
      · rw [show s.fadeMode = .fadeIn from hin] at hc; cases hc
      · rw [show s.fadeMode = .inOut from hin] at hc; cases hc
    exact hplain _ ⟨rfl, rfl, rfl, rfl, rfl, rfl⟩ (hzero (.inl hmode))
  split
  swap
  · rename_i hmode
    exact hplain _ (SameTrack.refl _) (hzero (.inl hmode))
  rename_i hcross
  split
  · rename_i hused
    split
    · rename_i hrate
      exact hplain _ (SameTrack.refl _) (hzero (.inr (.inr hrate)))
    · -- the new track starts before the end of the old one
      rename_i hrate
      have hoverlap : (s.announce rate).overlap = (s.announce rate).crossBytes :=
        if_pos ⟨hcross, hused, not_not.mp hrate⟩
      have hle : (s.announce rate).crossBytes ≤ bufUsed s.outputbuf :=
        Nat.le_trans (Nat.min_le_left _ _) (Nat.min_le_right _ _)
      obtain ⟨hlo, hhi, hahead⟩ := Buffer.beforeWritep_spec h.wf hle
      exact ⟨⟨h.wf, h.base, h.flushing, hready _ hrun⟩,
        ⟨_, rfl, hlo, hhi, by rw [hoverlap]; exact hahead⟩, rfl⟩
  · rename_i hempty
    have hempty : bufUsed s.outputbuf = 0 := not_not.mp hempty
    split
    · -- `outputbuf` is resized under an address already taken
      rename_i hresize
      have hkept : blockKept s.outputbuf first second = true := by
        simp only [publishClear, Bool.or_eq_true, Bool.not_eq_true', decide_eq_false_iff_not]
          at hclear
        exact hclear.resolve_left fun hno =>
          hno ⟨hrun, hnew, hcross, hempty, hresize.1, hresize.2⟩
      obtain ⟨hwf, hbase, hread, hwrite⟩ :=
        bufResize_kept (b := s.outputbuf) hresize.1 hkept
      have hptr : s.outputbuf.writep = s.outputbuf.buf := by
        have hr : s.outputbuf.readp = s.outputbuf.buf := hresize.2
        have := h.wf.readp_lt
        have := h.wf.writep_ge
        have := h.wf.wrap_eq
        unfold bufUsed at hempty
        split at hempty <;> omega
      have hlt := hwf.readp_lt
      have hge := hwf.readp_ge
      rw [hread] at hlt hge
      refine ⟨⟨hwf, hbase, h.flushing, hready _ hrun⟩, ⟨s.outputbuf.writep, rfl, ?_, ?_, ?_⟩, rfl⟩
      · rw [hptr]; exact hge
      · rw [hptr]; exact hlt
      · rw [hzero (.inr (.inl hempty)), Nat.sub_zero, hptr]
        show (bufResize s.outputbuf _ first second).ahead s.outputbuf.buf =
          bufUsed (bufResize s.outputbuf _ first second)
        rw [← Buffer.ahead_writep hwf, hwrite]
    · exact hplain _ (SameTrack.refl _) (hzero (.inr (.inl hempty)))

/-- An announcement begins a wait, or ends all of them. -/
theorem publish_links (h : Linked s m) {rate : ℕ} {first second : Option Block}
    (hclear : publishClear s first second = true) :
    ∃ m', Runs.watch watchTrack m (s.publish rate first second).2 = some m' ∧
      Linked (s.publish rate first second).1 m' := by
  unfold Output.publish
  split
  swap
  · exact ⟨m, rfl, h⟩
  rename_i hrun
  obtain ⟨hsound, hmarks⟩ := announced_marks h.1 hrun.1 hrun.2 rate hclear
  cases m with
  | none => exact ⟨_, rfl, hsound, .inl hmarks⟩
  | pending ahead rate' => exact ⟨.unbound, rfl, hsound, .inl trivial⟩
  | unbound => exact ⟨.unbound, rfl, hsound, .inl trivial⟩

/-- Frames are put behind a track start that is pending. -/
theorem decoded_links (h : Linked s m) (bs : List UInt8) : Linked (s.decoded bs) m := by
  unfold Output.decoded
  split
  swap
  · exact h
  rename_i hroom
  obtain ⟨hrun, hnew, hle⟩ := hroom
  refine ⟨⟨wf_bufAppend h.1.wf hle, h.1.base, h.1.flushing, h.1.ready⟩, ?_⟩
  rcases h.2 with hm | ⟨-, -, hclosed⟩
  · exact .inl (hm.keep rfl rfl rfl rfl rfl rfl)
  · exact absurd ⟨hrun, hnew⟩ hclosed

theorem same_checkfadeEnd (s : Output) : SameTrack s s.checkfadeEnd := by
  unfold Output.checkfadeEnd
  split <;> exact ⟨rfl, rfl, rfl, rfl, rfl, rfl⟩

/-- A state of the decoder in which it does not decode. -/
theorem Linked.decodeState (h : Linked s m) {d : DecodeState} (hrun : d ≠ .running)
    (hready : d = .ready → s.newStream = true) (hstop : s.flushPhase ≠ .idle → d = .stopped) :
    Linked { s with decodeState := d } m := by
  refine ⟨⟨h.1.wf, h.1.base, hstop, hready⟩, ?_⟩
  rcases h.2 with hm | ⟨rfl, hu, -⟩
  · exact .inl (hm.keep rfl rfl rfl rfl rfl rfl)
  · exact .inr ⟨rfl, hu, fun hc => hrun hc.1⟩

theorem decodeDone_links (h : Linked s m) (ok : Bool) : Linked (s.decodeDone ok) m := by
  unfold Output.decodeDone
  split
  swap
  · exact h
  rename_i hrun
  have hdone : Linked { s with decodeState := if ok then .complete else .error } m := by
    apply h.decodeState
    · cases ok <;> decide
    · cases ok <;> simp
    · intro hphase
      have hstop := h.1.flushing hphase
      rw [hrun] at hstop
      cases hstop
  by_cases hmode : s.fadeMode = .none
  · simp only [if_pos hmode]
    exact hdone
  · simp only [if_neg hmode]
    exact hdone.same (same_checkfadeEnd _)

/-! ### The controller -/

/-- A flush ends the wait: from here to the next track start that is announced, `track_start` is
left from before. -/
theorem flushBuffer_links (h : Linked s m) :
    ∃ m', Runs.watch watchTrack m s.flushBuffer.2 = some m' ∧ Linked s.flushBuffer.1 m' := by
  unfold Output.flushBuffer
  split
  swap
  · exact ⟨m, rfl, h⟩
  rename_i hphase
  have hstop : s.decodeState = .stopped := h.1.flushing (by rw [hphase]; decide)
  have hwatch : watchTrack m .flush = some .none := by cases m <;> rfl
  refine ⟨.none, by rw [Runs.watch_cons, hwatch]; rfl, ?_, .inr ⟨rfl, ?_, ?_⟩⟩
  · exact ⟨wf_bufFlush h.1.wf, h.1.base, fun _ => hstop, h.1.ready⟩
  · simp [bufFlush, bufUsed]
  · rintro ⟨hrun, -⟩
    rw [show s.decodeState = .running from hrun] at hstop
    cases hstop

theorem flushOutput_links (h : Linked s m) : Linked s.flushOutput m := by
  unfold Output.flushOutput
  split
  swap
  · exact h
  · refine ⟨⟨h.1.wf, h.1.base, fun hp => absurd rfl hp, h.1.ready⟩, ?_⟩
    rcases h.2 with hm | hm
    · exact .inl (hm.keep rfl rfl rfl rfl rfl rfl)
    · exact .inr hm

/-- Lifting a limit that was never set changes nothing. -/
theorem bufLimit_base {b : Buffer} (h : b.Wf) (hbase : b.size = b.baseSize) : bufLimit b 0 = b := by
  have hwrap := h.wrap_eq
  obtain ⟨buf, readp, writep, wrap, size, baseSize, trueSize, mem⟩ := b
  obtain rfl : size = baseSize := hbase
  obtain rfl : wrap = buf + size := hwrap
  rfl

theorem updateDecode_links (h : Linked s m) (run : Bool) (hidle : s.flushPhase = .idle) :
    Linked (s.updateDecode run) m := by
  unfold Output.updateDecode
  split
  · rename_i hready
    split
    swap
    · exact h
    · -- decoding starts with a new stream
      have hnew := h.1.ready hready
      refine ⟨⟨h.1.wf, h.1.base, fun hp => absurd hidle hp, fun _ => hnew⟩, ?_⟩
      rcases h.2 with hm | ⟨rfl, hu, -⟩
      · exact .inl (hm.keep rfl rfl rfl rfl rfl rfl)
      · refine .inr ⟨rfl, hu, ?_⟩
        rintro ⟨-, hc⟩
        rw [show s.newStream = false from hc] at hnew
        cases hnew
  · exact h.decodeState (by decide) (fun he => by cases he) (fun _ => rfl)
  · exact h.decodeState (by decide) (fun he => by cases he) (fun _ => rfl)
  · exact h

theorem control_links (h : Linked s m) (hidle : s.flushPhase = .idle) (c : Control) :
    Linked (s.control c) m := by
  cases c with
  | decodeFlush =>
      have hstop := h.decodeState (d := .stopped) (by decide) (fun he => by cases he)
        (fun _ => rfl)
      refine ⟨⟨hstop.1.wf, hstop.1.base, fun _ => rfl, hstop.1.ready⟩, ?_⟩
      rcases hstop.2 with hm | hm
      · exact .inl (hm.keep rfl rfl rfl rfl rfl rfl)
      · exact .inr hm
  | codecOpen =>
      refine ⟨⟨h.1.wf, h.1.base, fun hp => absurd hidle hp, fun _ => rfl⟩, ?_⟩
      rcases h.2 with hm | ⟨rfl, hu, -⟩
      · exact .inl (hm.keep rfl rfl rfl rfl rfl rfl)
      · refine .inr ⟨rfl, hu, ?_⟩
        rintro ⟨hrun, -⟩
        cases hrun
  | start threshold replayGain fadeMode fadeSecs invert channels =>
      exact h.same ⟨bufLimit_base h.1.wf h.1.base, rfl, rfl, rfl, rfl, rfl⟩
  | pause | skip | unpause | enable | volume | updateOutput =>
      exact Linked.same (s := s) ⟨rfl, rfl, rfl, rfl, rfl, rfl⟩ h
  | updateDecode run => exact updateDecode_links h run hidle

/-! ### Runs -/

/-- Nothing goes beyond a track start, and `outputbuf` is not moved away from one. -/
def onTrack (toGain : ℕ → ℕ → ℤ) (s : Output) : OutputEvent → Bool
  | .frames avail now answers => framesClear toGain s avail now answers
  | .publish _ first second => publishClear s first second
  | _ => true

theorem outputStep_links {e : OutputEvent} (h : Linked s m) (he : onTrack toGain s e = true) :
    ∃ m', Runs.watch watchTrack m (outputStep toGain s e).2 = some m' ∧
      Linked (outputStep toGain s e).1 m' := by
  cases e with
  | frames avail now answers => exact outputFrames_links h he
  | publish rate first second => exact publish_links h he
  | decoded bs => exact ⟨m, rfl, decoded_links h bs⟩
  | decodeDone ok => exact ⟨m, rfl, decodeDone_links h ok⟩
  | flushBuffer => exact flushBuffer_links h
  | flushOutput => exact ⟨m, rfl, flushOutput_links h⟩
  | control c =>
      refine ⟨m, rfl, ?_⟩
      simp only [outputStep]
      split
      · exact control_links h ‹_› c
      · exact h

/-- Track starts are signalled once each, where they are, in every run in which nothing goes
beyond them. -/
theorem track_signalled (toGain : ℕ → ℕ → ℤ) (blk : Block) (size rate rateDelay : ℕ) (idle : Bool)
    (evs : List OutputEvent) (hsize : BYTES_PER_FRAME ≤ size)
    (hclear : (outputMachine toGain).Along (fun s e => onTrack toGain s e = true)
      (outputInit blk size rate rateDelay idle) evs) :
    TrackSignalled toGain (outputInit blk size rate rateDelay idle) evs := by
  have hpos : 0 < size - size % BYTES_PER_FRAME := by
    simp only [BYTES_PER_FRAME] at *
    omega
  have hinit : Linked (outputInit blk size rate rateDelay idle) .none :=
    ⟨⟨wf_bufInit blk hpos, rfl, fun hp => absurd rfl hp, fun hr => by cases hr⟩, .inl rfl⟩
  obtain ⟨m, hwatch, -⟩ := (outputMachine toGain).run_watched (δ := watchTrack) (R := Linked)
    (P := fun s e => onTrack toGain s e = true) (fun s m e h he => outputStep_links h he)
    hinit hclear
  exact ⟨m, hwatch⟩

/-- What starts a stream: the codec is opened, decoding starts, output runs. -/
def started : List OutputEvent :=
  [.control .codecOpen, .control (.updateDecode true), .control (.unpause 0)]

/-- Two tracks of two frames, of different rates with a delay, and a flush in the third. -/
theorem track_signalled_run :
    TrackSignalled (fun _ _ => 0) (outputInit ⟨100, fun _ => 0⟩ 64 44100 1 false)
      (started ++ [.publish 44100 none none, .decoded (List.replicate 8 1), .decodeDone true,
        .frames 10 0 (fun _ => 10), .control (.updateDecode false)] ++ started ++
        [.publish 48000 none none, .decoded (List.replicate 8 2),
        .frames 10 0 (fun _ => 10), .frames 100 0 (fun _ => 100), .frames 10 0 (fun _ => 1),
        .control (.unpause 0), .frames 10 0 (fun _ => 10),
        .control .decodeFlush, .flushBuffer, .flushOutput] ++ started ++
        [.publish 44100 none none, .decoded (List.replicate 8 3), .frames 10 0 (fun _ => 10)]) :=
  track_signalled _ _ _ _ _ _ _ (by decide) (by decide)

/-- Skip ahead in the last frames of a track takes the frames of the next one too: its start is
gone over and not signalled. -/
theorem track_skipped :
    ¬ TrackSignalled (fun _ _ => 0) (outputInit ⟨100, fun _ => 0⟩ 64 44100 0 false)
      (started ++ [.publish 44100 none none,
        .decoded (List.replicate 8 1), .frames 1 0 (fun _ => 1), .decodeDone true,
        .control (.updateDecode false)] ++ started ++
        [.publish 44100 none none, .decoded (List.replicate 8 2), .control (.skip 3),
        .frames 1 0 (fun _ => 1)]) := by
  rintro ⟨m, hwatch⟩
  have hnone : Runs.watch watchTrack .none ((outputMachine (fun _ _ => 0)).run
      (outputInit ⟨100, fun _ => 0⟩ 64 44100 0 false)
      (started ++ [.publish 44100 none none,
        .decoded (List.replicate 8 1), .frames 1 0 (fun _ => 1), .decodeDone true,
        .control (.updateDecode false)] ++ started ++
        [.publish 44100 none none, .decoded (List.replicate 8 2), .control (.skip 3),
        .frames 1 0 (fun _ => 1)])).2 = none := by
    decide
  rw [hnone] at hwatch
  cases hwatch

end SqueezeliteMuse
