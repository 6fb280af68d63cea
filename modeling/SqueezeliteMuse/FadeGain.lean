/-
SqueezeliteMuse/FadeGain.lean

The gains of a fade, chunk by chunk.

`_output_frames` gives `write_cb` a call's frames in chunks, and with each chunk the two gains.  A
chunk has to be in a fade (`Playing.ratio`: so many frames of so many), or in none; this is how a
call is cut up (`Output.cuts`), and it does not depend on the gains.

The gains of a chunk should be the call's own, scaled by the ratio of the chunk.  The loop scales
the gains of the chunk before (`gainChain`), and changes their sign once more if the output is
inverted.

Main result: `fade_gain_iff`: the gains are right for every `to_gain` exactly if a chunk in a
fade is the last of its call, and the output is not inverted then, or if the volume is 0.
-/
import SqueezeliteMuse.Output
import Mathlib.Data.List.Basic

namespace SqueezeliteMuse

/-! ### Gains -/

section Chain

/-- The gain of a chunk: the gain of the call, scaled by the ratio of a fade. -/
def fadedGain (toGain : ℕ → ℕ → ℤ) (base : ℤ) : Option (ℕ × ℕ) → ℤ
  | none => base
  | some r => gain base (toGain r.1 r.2)

/-- What the loop makes of the gain it has, for a chunk. -/
def nextGain (toGain : ℕ → ℕ → ℤ) (invert : Bool) (g : ℤ) : Option (ℕ × ℕ) → ℤ
  | none => g
  | some r => if invert then -gain g (toGain r.1 r.2) else gain g (toGain r.1 r.2)

/-- The gains of the chunks of a call. -/
def gainChain (toGain : ℕ → ℕ → ℤ) (invert : Bool) : ℤ → List (Option (ℕ × ℕ)) → List ℤ
  | _, [] => []
  | g, c :: cs => nextGain toGain invert g c :: gainChain toGain invert (nextGain toGain invert g c) cs

/-- A chunk in a fade is the last, and the output is not inverted then. -/
structure Unbroken (invert : Bool) (cs : List (Option (ℕ × ℕ))) : Prop where
  last : ∀ c ∈ cs.dropLast, c = none
  upright : invert = true → ∀ c ∈ cs, c = none

variable {invert : Bool} {base : ℤ}

theorem gain_zero (f : ℤ) : gain 0 f = 0 := by
  rw [gain, MAX_SCALESAMPLE]
  omega

/-- A gain of one keeps the sign. -/
theorem gain_one_ne_zero (h : base ≠ 0) : gain base FIXED_ONE ≠ 0 := by
  rw [gain, MAX_SCALESAMPLE, FIXED_ONE]
  omega

/-- There is always a gain that makes a difference when it is applied twice: a half, or two. -/
theorem exists_gain_twice_ne (h : base ≠ 0) : ∃ f, gain (gain base f) f ≠ gain base f := by
  by_cases hsmall : gain base 0x8000 = 0 ∨ gain base 0x8000 = -1
  · refine ⟨0x20000, ?_⟩
    rw [gain, MAX_SCALESAMPLE] at hsmall
    rw [gain, gain, MAX_SCALESAMPLE]
    omega
  · refine ⟨0x8000, ?_⟩
    generalize gain base 0x8000 = g at hsmall
    rw [gain, MAX_SCALESAMPLE]
    omega

theorem gainChain_zero (toGain : ℕ → ℕ → ℤ) (invert : Bool) (cs : List (Option (ℕ × ℕ))) :
    gainChain toGain invert 0 cs = cs.map (fadedGain toGain 0) := by
  induction cs with
  | nil => rfl
  | cons c cs ih =>
    have hnext : nextGain toGain invert 0 c = 0 := by
      cases c with
      | none => rfl
      | some r => simp [nextGain, gain_zero]
    have hfaded : fadedGain toGain 0 c = 0 := by
      cases c with
      | none => rfl
      | some r => exact gain_zero _
    rw [gainChain, List.map_cons, hnext, hfaded, ih]

/-- A chunk that is in no fade leaves the gain to the next. -/
theorem unbroken_none {cs : List (Option (ℕ × ℕ))} :
    Unbroken invert (none :: cs) ↔ Unbroken invert cs := by
  constructor
  · intro h
    refine ⟨fun c hc => h.last c ?_, fun hinv c hc => h.upright hinv c (List.mem_cons_of_mem _ hc)⟩
    cases cs with
    | nil => cases hc
    | cons d ds => exact List.mem_cons_of_mem _ hc
  · intro h
    refine ⟨fun c hc => ?_, fun hinv c hc => ?_⟩
    · cases cs with
      | nil => cases hc
      | cons d ds =>
        rcases List.mem_cons.mp hc with rfl | hc
        · rfl
        · exact h.last c hc
    · rcases List.mem_cons.mp hc with rfl | hc
      · rfl
      · exact h.upright hinv c hc

/-- ... and one in a fade has to be the last. -/
theorem unbroken_some {r : ℕ × ℕ} {cs : List (Option (ℕ × ℕ))} :
    Unbroken invert (some r :: cs) ↔ cs = [] ∧ invert = false := by
  constructor
  · intro h
    constructor
    · cases cs with
      | nil => rfl
      | cons d ds => exact (nomatch h.last (some r) (List.mem_cons_self ..))
    · cases invert with
      | false => rfl
      | true => exact (nomatch h.upright rfl (some r) (List.mem_cons_self ..))
  · rintro ⟨rfl, rfl⟩
    exact ⟨fun c hc => (nomatch hc), fun hinv => (nomatch hinv)⟩

theorem gainChain_eq_map_iff (cs : List (Option (ℕ × ℕ))) :
    (∀ toGain, gainChain toGain invert base cs = cs.map (fadedGain toGain base)) ↔
      base = 0 ∨ Unbroken invert cs := by
  induction cs with
  | nil => exact ⟨fun _ => Or.inr ⟨fun c hc => (nomatch hc), fun _ c hc => (nomatch hc)⟩,
      fun _ _ => rfl⟩
  | cons c cs ih =>
    cases c with
    | none =>
      rw [unbroken_none, ← ih]
      refine forall_congr' fun toGain => ?_
      show base :: gainChain toGain invert base cs = base :: cs.map (fadedGain toGain base) ↔ _
      rw [List.cons_inj_right]
    | some r =>
      rw [unbroken_some]
      constructor
      · intro h
        by_cases hbase : base = 0
        · exact Or.inl hbase
        -- a gain of one shows the sign
        have hinv : invert = false := by
          have hone := (List.cons.inj (h fun _ _ => FIXED_ONE)).1
          have hne := gain_one_ne_zero hbase
          cases invert with
          | false => rfl
          | true =>
            change -gain base FIXED_ONE = gain base FIXED_ONE at hone
            omega
        subst hinv
        refine Or.inr ⟨?_, rfl⟩
        cases cs with
        | nil => rfl
        | cons d ds =>
          exfalso
          have hsecond := fun f => (List.cons.inj (List.cons.inj (h fun _ _ => f)).2).1
          cases d with
          | none =>
            -- a gain of 0 is left to the next chunk
            have hzero : gain base 0 = base := hsecond 0
            rw [gain, MAX_SCALESAMPLE] at hzero
            omega
          | some q =>
            obtain ⟨f, hf⟩ := exists_gain_twice_ne hbase
            exact hf (hsecond f)
      · rintro (rfl | ⟨rfl, rfl⟩)
        · exact fun toGain => gainChain_zero toGain invert _
        · exact fun _ => rfl

end Chain

/-! ### How a call is cut up -/

/-- `cur_f` of an active fade, for a chunk: it is 0 where the fade begins anew. -/
def Output.fadePosition (s : Output) : ℕ := if s.curFrames ≥ s.durFrames then 0 else s.curFrames

namespace Playing

/-- The ratio of a chunk in an active fade, up or down, that is not complete. -/
def activeRatio (s : Output) : Option (ℕ × ℕ) :=
  if s.fadeEnded.1.fade = .inactive then none
  else
    match s.fadeEnded.1.fadeDir with
    | .up => some (s.fadePosition, s.durFrames)
    | .down => some (s.durFrames - s.fadePosition, s.durFrames)
    | .cross => none

/-- The ratio of a chunk. -/
def ratio (s : Output) : Option (ℕ × ℕ) :=
  if s.fadeReached.fade = .active then activeRatio s.fadeReached else none

/-- The chunk of a round, if it comes to one. -/
def chunk (silence : Bool) (x : Playing) : Option (Option (ℕ × ℕ)) :=
  if silence then some none
  else if x.out.trackStart = some x.out.outputbuf.readp then none
  else some (ratio x.out)

/-- The rounds of the loop, with the state each begins in. -/
def rounds (toGain : ℕ → ℕ → ℤ) (silence : Bool) (now : ℕ) :
    ℕ → (ℕ → ℤ) → Playing → List Playing
  | 0, _, _ => []
  | fuel + 1, answers, x =>
      if x.size = 0 then []
      else if (round toGain silence now (answers 0) x).2.2 then
        x :: rounds toGain silence now fuel (fun i => answers (i + 1))
          (round toGain silence now (answers 0) x).1
      else [x]

/-- What is left without the gains. -/
def bare (x : Playing) : Playing :=
  { x with gainL := 0, gainR := 0, crossGainIn := 0, crossGainOut := 0 }

/-- One of the two gains. -/
def side (left : Bool) (x : Playing) : ℤ := if left then x.gainL else x.gainR

end Playing

/-- One of the two gains of a call of `write_cb`. -/
def OutputObs.side (left : Bool) : OutputObs → Option ℤ
  | .write _ _ gainL gainR _ _ _ _ => some (if left then gainL else gainR)
  | _ => none

/-- A call's own gain: the volume times the replay gain, with its sign. -/
def Output.baseGain (s : Output) (left : Bool) : ℤ :=
  Playing.inverted s (Playing.replay (if left then s.gainL else s.gainR) s.currentReplayGain)

/-- The rounds of a call. -/
def Output.rounds (toGain : ℕ → ℕ → ℤ) (s : Output) (avail now : ℕ) (answers : ℕ → ℤ) :
    List Playing :=
  Playing.rounds toGain (s.beginFrames avail now).2.2 now (s.beginFrames avail now).2.1 answers
    (s.playing (s.beginFrames avail now).1 (s.beginFrames avail now).2.1)

/-- How a call is cut up. -/
def Output.cuts (s : Output) (avail now : ℕ) (answers : ℕ → ℤ) : List (Option (ℕ × ℕ)) :=
  (s.rounds (fun _ _ => 0) avail now answers).filterMap
    (Playing.chunk (s.beginFrames avail now).2.2)

namespace Playing

/-! ### It does not depend on the gains -/

section Bare

variable {x y : Playing} (toGain toGain' : ℕ → ℕ → ℤ)

theorem bare_out (h : x.bare = y.bare) : x.out = y.out :=
  show x.bare.out = y.bare.out by rw [h]

theorem bare_size (h : x.bare = y.bare) : x.size = y.size :=
  show x.bare.size = y.bare.size by rw [h]

theorem bare_frames (h : x.bare = y.bare) : x.frames = y.frames :=
  show x.bare.frames = y.bare.frames by rw [h]

theorem bare_crossPtr (h : x.bare = y.bare) : x.crossPtr = y.crossPtr :=
  show x.bare.crossPtr = y.bare.crossPtr by rw [h]

theorem bare_ext (hout : x.out = y.out) (hsize : x.size = y.size) (hframes : x.frames = y.frames)
    (hptr : x.crossPtr = y.crossPtr) : x.bare = y.bare := by
  cases x
  cases y
  simp only at hout hsize hframes hptr
  subst hout hsize hframes hptr
  rfl

theorem bare_fadeGains (h : x.bare = y.bare) (cur dur : ℕ) :
    (fadeGains toGain x cur dur).bare = (fadeGains toGain' y cur dur).bare := by
  have hout := bare_out h
  have hsize := bare_size h
  have hframes := bare_frames h
  have hptr := bare_crossPtr h
  unfold fadeGains
  rw [hout, hsize]
  cases y.out.fadeDir with
  | up => exact bare_ext rfl rfl hframes hptr
  | down => exact bare_ext rfl rfl hframes hptr
  | cross =>
    show (if _ then _ else _ : Playing).bare = (if _ then _ else _ : Playing).bare
    split
    · exact bare_ext rfl rfl hframes rfl
    · exact bare_ext rfl rfl hframes hptr

theorem bare_fadeChunk (h : x.bare = y.bare) (cont : ℕ) :
    (fadeChunk toGain x cont).1.bare = (fadeChunk toGain' y cont).1.bare ∧
      (fadeChunk toGain x cont).2.1 = (fadeChunk toGain' y cont).2.1 := by
  have hout := bare_out h
  have hsize := bare_size h
  have hframes := bare_frames h
  have hptr := bare_crossPtr h
  have hwith (s : Output) : { x with out := s }.bare = { y with out := s }.bare :=
    bare_ext rfl hsize hframes hptr
  unfold fadeChunk fadeActive
  rw [hout]
  split
  · split
    · exact ⟨hwith _, rfl⟩
    · exact ⟨bare_fadeGains toGain toGain' (hwith _) _ _, rfl⟩
  · exact ⟨hwith _, rfl⟩

theorem bare_writeChunk (silence : Bool) (answer : ℤ) (h : x.bare = y.bare) (cont : ℕ) :
    (writeChunk silence answer x cont).1.bare = (writeChunk silence answer y cont).1.bare ∧
      (writeChunk silence answer x cont).2.2 = (writeChunk silence answer y cont).2.2 := by
  have hout := bare_out h
  have hsize := bare_size h
  have hframes := bare_frames h
  have hptr := bare_crossPtr h
  have hgiven : outFrames silence x cont = outFrames silence y cont := by
    rw [outFrames, outFrames, hsize]
  unfold writeChunk
  rw [hgiven, hsize]
  split
  · exact ⟨bare_ext hout rfl (congrArg (· - y.size) hframes) hptr, rfl⟩
  · split
    · exact ⟨bare_ext hout rfl hframes hptr, rfl⟩
    · exact ⟨bare_ext (congrArg (Output.played · _) hout) rfl hframes hptr, rfl⟩

theorem bare_round (silence : Bool) (now : ℕ) (answer : ℤ) (h : x.bare = y.bare) :
    (round toGain silence now answer x).1.bare = (round toGain' silence now answer y).1.bare ∧
      (round toGain silence now answer x).2.2 = (round toGain' silence now answer y).2.2 := by
  have hout := bare_out h
  have hsize := bare_size h
  have hframes := bare_frames h
  have hptr := bare_crossPtr h
  unfold round
  rw [hout]
  split
  · exact bare_writeChunk silence answer h _
  · split
    · exact ⟨bare_ext rfl hsize (congrArg₂ (· - ·) hframes hsize) hptr, rfl⟩
    · have hfaded := bare_fadeChunk toGain toGain' h y.out.contFrames
      have hwrite := bare_writeChunk silence answer hfaded.1
        (fadeChunk toGain' y y.out.contFrames).2.1
      show (writeChunk silence answer (fadeChunk toGain x y.out.contFrames).1
        (fadeChunk toGain x y.out.contFrames).2.1).1.bare = _ ∧
        (writeChunk silence answer (fadeChunk toGain x y.out.contFrames).1
          (fadeChunk toGain x y.out.contFrames).2.1).2.2 = _
      rw [hfaded.2]
      exact hwrite

theorem bare_rounds (silence : Bool) (now fuel : ℕ) : ∀ {answers : ℕ → ℤ} {x y : Playing},
    x.bare = y.bare → (rounds toGain silence now fuel answers x).map bare =
      (rounds toGain' silence now fuel answers y).map bare := by
  induction fuel with
  | zero => exact fun _ => rfl
  | succ fuel ih =>
    intro answers x y h
    obtain ⟨hround, hgo⟩ := bare_round toGain toGain' silence now (answers 0) h
    rw [rounds, rounds, bare_size h, hgo]
    split
    · rfl
    · split
      · rw [List.map_cons, List.map_cons, h, ih hround]
      · exact congrArg (fun z => [z]) h

theorem filterMap_chunk (silence : Bool) (xs : List Playing) :
    xs.filterMap (chunk silence) = (xs.map bare).filterMap (chunk silence) := by
  rw [List.filterMap_map]
  rfl

end Bare

/-! ### The gains of the rounds -/

section Rounds

variable (toGain : ℕ → ℕ → ℤ) (left : Bool)

theorem invert_fadeReached (s : Output) : s.fadeReached.invert = s.invert := by
  unfold Output.fadeReached
  split
  · rfl
  · rfl

theorem fadeDir_fadeReached (s : Output) : s.fadeReached.fadeDir = s.fadeDir := by
  unfold Output.fadeReached
  split
  · rfl
  · rfl

theorem invert_fadeEnded (s : Output) : s.fadeEnded.1.invert = s.invert := by
  unfold Output.fadeEnded Output.fadeComplete
  split
  · split
    · rfl
    · split
      · split
        · rfl
        · rfl
      · rfl
  · rfl

/-- The end of a fade does not begin a crossfade. -/
theorem fadeDir_fadeEnded (s : Output) (h : s.fadeDir ≠ .cross) :
    s.fadeEnded.1.fadeDir ≠ .cross := by
  unfold Output.fadeEnded Output.fadeComplete
  split
  · split
    · exact fun hdir => (nomatch hdir)
    · split
      · split
        · exact h
        · exact h
      · exact h
  · exact h

/-- What a chunk leaves: its gains, the sign to be, and no crossfade. -/
structure Chunked (x y : Playing) (c : Option (ℕ × ℕ)) : Prop where
  side : y.side left = nextGain toGain x.out.invert (x.side left) c
  invert : y.out.invert = x.out.invert
  fadeDir : y.out.fadeDir ≠ .cross

theorem fadeGains_side {x : Playing} {cur dur : ℕ} (h : x.out.fadeDir ≠ .cross) :
    Chunked toGain left x (fadeGains toGain x cur dur)
      (match x.out.fadeDir with
        | .up => some (cur, dur)
        | .down => some (dur - cur, dur)
        | .cross => none) := by
  cases hdir : x.out.fadeDir with
  | up =>
    refine ⟨?_, ?_, ?_⟩
    · unfold fadeGains
      rw [hdir]
      cases left with
      | false => rfl
      | true => rfl
    · unfold fadeGains
      rw [hdir]
    · unfold fadeGains
      rw [hdir]
      exact h
  | down =>
    refine ⟨?_, ?_, ?_⟩
    · unfold fadeGains
      rw [hdir]
      cases left with
      | false => rfl
      | true => rfl
    · unfold fadeGains
      rw [hdir]
    · unfold fadeGains
      rw [hdir]
      exact h
  | cross => exact absurd hdir h

theorem fadeActive_side {x : Playing} (h : x.out.fadeDir ≠ .cross) (cont : ℕ) :
    Chunked toGain left x (fadeActive toGain x cont).1 (activeRatio x.out) := by
  have hended := fadeDir_fadeEnded _ h
  have hinverts := invert_fadeEnded x.out
  unfold fadeActive activeRatio
  by_cases hinactive : x.out.fadeEnded.1.fade = .inactive
  · rw [if_pos hinactive, if_pos hinactive]
    exact ⟨by cases left <;> rfl, hinverts, hended⟩
  · rw [if_neg hinactive, if_neg hinactive]
    let y : Playing := { x with out := x.out.fadeEnded.1 }
    have hfaded : Chunked toGain left y (fadeGains toGain y x.out.fadePosition x.out.durFrames) _ :=
      fadeGains_side toGain left hended
    refine ⟨?_, hfaded.invert.trans hinverts, hfaded.fadeDir⟩
    rw [← hinverts]
    exact hfaded.side

theorem fadeChunk_side {x : Playing} (h : x.out.fadeDir ≠ .cross) (cont : ℕ) :
    Chunked toGain left x (fadeChunk toGain x cont).1 (ratio x.out) := by
  have hreached : x.out.fadeReached.fadeDir ≠ .cross := by rwa [fadeDir_fadeReached]
  have hinvert := invert_fadeReached x.out
  unfold fadeChunk ratio
  split
  · let y : Playing := { x with out := x.out.fadeReached }
    have hactive : Chunked toGain left y (fadeActive toGain y (x.out.contBeforeFade cont)).1
        (activeRatio x.out.fadeReached) := fadeActive_side toGain left hreached _
    refine ⟨?_, hactive.invert.trans hinvert, hactive.fadeDir⟩
    rw [← hinvert]
    exact hactive.side
  · exact ⟨by cases left <;> rfl, hinvert, hreached⟩

/-- `write_cb` is called once for a chunk, with the gains it has. -/
theorem writeChunk_side (silence : Bool) (answer : ℤ) (x : Playing) (cont : ℕ) :
    (writeChunk silence answer x cont).2.1.filterMap (OutputObs.side left) = [x.side left] ∧
      (writeChunk silence answer x cont).1.side left = x.side left ∧
      (writeChunk silence answer x cont).1.out.invert = x.out.invert ∧
      (writeChunk silence answer x cont).1.out.fadeDir = x.out.fadeDir := by
  unfold writeChunk
  split
  · exact ⟨by cases left <;> rfl, by cases left <;> rfl, rfl, rfl⟩
  · split
    · exact ⟨by cases left <;> rfl, by cases left <;> rfl, rfl, rfl⟩
    · exact ⟨by cases left <;> rfl, by cases left <;> rfl, rfl, rfl⟩

theorem startTrack_side (s : Output) (now : ℕ) :
    (s.startTrack now).2.filterMap (OutputObs.side left) = [] := by
  unfold Output.startTrack
  split
  · rfl
  · rfl

/-- The end of a fade is nothing that is written. -/
theorem fadeChunk_obs (x : Playing) (cont : ℕ) :
    (fadeChunk toGain x cont).2.2.filterMap (OutputObs.side left) = [] := by
  have hended (s : Output) : s.fadeEnded.2.filterMap (OutputObs.side left) = [] := by
    unfold Output.fadeEnded Output.fadeComplete
    split
    · split
      · rfl
      · split
        · split
          · rfl
          · rfl
        · rfl
    · rfl
  unfold fadeChunk fadeActive
  split
  · split
    · exact hended _
    · exact hended _
  · rfl

/-- What a round leaves to the next. -/
structure Rounded (silence : Bool) (now : ℕ) (answer : ℤ) (x : Playing) : Prop where
  written : (round toGain silence now answer x).2.1.filterMap (OutputObs.side left) =
    ((chunk silence x).map (nextGain toGain x.out.invert (x.side left))).toList
  next : ∀ c, chunk silence x = some c →
    Chunked toGain left x (round toGain silence now answer x).1 c
  stops : chunk silence x = none → (round toGain silence now answer x).2.2 = false

theorem rounded (silence : Bool) (now : ℕ) (answer : ℤ) {x : Playing}
    (h : x.out.fadeDir ≠ .cross) : Rounded toGain left silence now answer x := by
  cases silence with
  | true =>
    obtain ⟨hobs, hside, hinvert, hdir⟩ := writeChunk_side left true answer x x.out.contFrames
    refine ⟨hobs, ?_, fun hnone => (nomatch hnone)⟩
    intro c hc
    cases hc
    exact ⟨hside, hinvert, fun hcross => h (hdir.symm.trans hcross)⟩
  | false =>
    by_cases htrack : x.out.trackStart = some x.out.outputbuf.readp
    · have hchunk : chunk false x = none := if_pos htrack
      have hround : round toGain false now answer x =
          ({ x with out := (x.out.startTrack now).1, frames := x.frames - x.size },
            (x.out.startTrack now).2, false) := if_pos htrack
      refine ⟨?_, fun c hc => ?_, fun _ => by rw [hround]⟩
      · rw [hround, hchunk]
        exact startTrack_side left x.out now
      · rw [hchunk] at hc
        cases hc
    · have hchunk : chunk false x = some (ratio x.out) := if_neg htrack
      let faded := fadeChunk toGain x x.out.contFrames
      have hround : round toGain false now answer x =
          ((writeChunk false answer faded.1 faded.2.1).1,
            faded.2.2 ++ (writeChunk false answer faded.1 faded.2.1).2.1,
            (writeChunk false answer faded.1 faded.2.1).2.2) := if_neg htrack
      have hfaded : Chunked toGain left x faded.1 (ratio x.out) :=
        fadeChunk_side toGain left h x.out.contFrames
      obtain ⟨hobs, hside, hinvert, hdir⟩ := writeChunk_side left false answer faded.1 faded.2.1
      refine ⟨?_, fun c hc => ?_, fun hnone => ?_⟩
      · rw [hround, hchunk, List.filterMap_append, hobs, fadeChunk_obs, hfaded.side]
        rfl
      · rw [hchunk] at hc
        cases hc
        rw [hround]
        exact ⟨hside.trans hfaded.side, hinvert.trans hfaded.invert,
          fun hcross => hfaded.fadeDir (hdir.symm.trans hcross)⟩
      · rw [hchunk] at hnone
        cases hnone

/-- The gains of the calls of `write_cb` are those of the chunks. -/
theorem loop_side (silence : Bool) (now fuel : ℕ) : ∀ {answers : ℕ → ℤ} {x : Playing},
    x.out.fadeDir ≠ .cross →
    (loop toGain silence now fuel answers x).2.filterMap (OutputObs.side left) =
      gainChain toGain x.out.invert (x.side left)
        ((rounds toGain silence now fuel answers x).filterMap (chunk silence)) := by
  induction fuel with
  | zero => exact fun _ => rfl
  | succ fuel ih =>
    intro answers x h
    obtain ⟨hwritten, hnext, hstops⟩ := rounded toGain left silence now (answers 0) h
    rw [loop, rounds]
    by_cases hsize : x.size = 0
    · rw [if_pos hsize, if_pos hsize]
      rfl
    rw [if_neg hsize, if_neg hsize]
    dsimp only
    cases hchunk : chunk silence x with
    | none =>
      rw [if_neg (by simp [hstops hchunk]), if_neg (by simp [hstops hchunk])]
      rw [hchunk] at hwritten
      rw [List.filterMap_cons_none hchunk]
      exact hwritten
    | some c =>
      obtain ⟨hside, hinvert, hdir⟩ := hnext c hchunk
      rw [hchunk] at hwritten
      by_cases hgo : (round toGain silence now (answers 0) x).2.2 = true
      · rw [if_pos hgo, if_pos hgo, List.filterMap_append, hwritten, ih hdir, hinvert, hside,
          List.filterMap_cons_some hchunk]
        rfl
      · rw [if_neg hgo, if_neg hgo, List.filterMap_cons_some hchunk]
        exact hwritten

end Rounds

end Playing

/-! ### A call -/

section Call

variable {s : Output}

theorem skipLoop_side (left : Bool) (fuel : ℕ) : ∀ {skip : ℕ} {b : Buffer},
    (skipLoop fuel skip b).2.filterMap (OutputObs.side left) = [] := by
  induction fuel with
  | zero => exact rfl
  | succ fuel ih =>
    intro skip b
    unfold skipLoop
    split
    · rfl
    · exact ih

theorem skipAhead_side (s : Output) (left : Bool) (frames : ℕ) :
    (s.skipAhead frames).2.filterMap (OutputObs.side left) = [] := by
  unfold Output.skipAhead
  split
  · exact skipLoop_side left _
  · rfl

/-- What comes before the loop has nothing to do with the fade, or with the sign. -/
theorem beginFrames_kept (s : Output) (avail now : ℕ) :
    (s.beginFrames avail now).1.invert = s.invert ∧
      (s.beginFrames avail now).1.fadeDir = s.fadeDir := by
  have hstart (frames : ℕ) : (s.startBuffer frames).invert = s.invert ∧
      (s.startBuffer frames).fadeDir = s.fadeDir := by
    unfold Output.startBuffer
    split
    · exact ⟨rfl, rfl⟩
    · exact ⟨rfl, rfl⟩
  have hskip (r : Output) (frames : ℕ) : (r.skipAhead frames).1.invert = r.invert ∧
      (r.skipAhead frames).1.fadeDir = r.fadeDir := by
    unfold Output.skipAhead
    split
    · exact ⟨rfl, rfl⟩
    · exact ⟨rfl, rfl⟩
  have hpause (r : Output) (frames : ℕ) : (r.pauseFor avail frames now).1.invert = r.invert ∧
      (r.pauseFor avail frames now).1.fadeDir = r.fadeDir := by
    unfold Output.pauseFor
    split
    · split
      · exact ⟨rfl, rfl⟩
      · exact ⟨rfl, rfl⟩
    · split
      · split
        · exact ⟨rfl, rfl⟩
        · exact ⟨rfl, rfl⟩
      · exact ⟨rfl, rfl⟩
  have h₁ := hstart (bufUsed s.outputbuf / BYTES_PER_FRAME)
  have h₂ := hskip (s.startBuffer (bufUsed s.outputbuf / BYTES_PER_FRAME))
    (bufUsed s.outputbuf / BYTES_PER_FRAME)
  exact ⟨((hpause _ _).1.trans h₂.1).trans h₁.1, ((hpause _ _).2.trans h₂.2).trans h₁.2⟩

/-- The gains of a call are the chain of its chunks. -/
theorem outputFrames_side (h : s.fadeDir ≠ .cross) (toGain : ℕ → ℕ → ℤ) (left : Bool)
    (avail now : ℕ) (answers : ℕ → ℤ) :
    (s.outputFrames toGain avail now answers).2.2.filterMap (OutputObs.side left) =
      gainChain toGain s.invert (s.baseGain left) (s.cuts avail now answers) := by
  obtain ⟨hinvert, hdir⟩ := beginFrames_kept s avail now
  let x := s.playing (s.beginFrames avail now).1 (s.beginFrames avail now).2.1
  have hplain : x.out.fadeDir ≠ .cross := by
    show (s.beginFrames avail now).1.fadeDir ≠ .cross
    rwa [hdir]
  have hloop : (Playing.loop toGain (s.beginFrames avail now).2.2 now (s.beginFrames avail now).2.1
      answers x).2.filterMap (OutputObs.side left) =
        gainChain toGain x.out.invert (x.side left) _ :=
    Playing.loop_side toGain left (s.beginFrames avail now).2.2 now (s.beginFrames avail now).2.1
      hplain
  have hbare : x.bare = x.bare := rfl
  have hcuts : (Playing.rounds toGain (s.beginFrames avail now).2.2 now
      (s.beginFrames avail now).2.1 answers x).filterMap
        (Playing.chunk (s.beginFrames avail now).2.2) = s.cuts avail now answers := by
    rw [Playing.filterMap_chunk, Playing.bare_rounds toGain (fun _ _ => 0) _ _ _ hbare,
      ← Playing.filterMap_chunk]
    rfl
  have hside : x.side left = s.baseGain left := by cases left <;> rfl
  have hsame : x.out.invert = s.invert := hinvert
  show (_ ++ (Playing.loop toGain _ now _ answers x).2).filterMap _ = _
  rw [List.filterMap_append, skipAhead_side, hloop, hcuts, hside, hsame]
  rfl

/-- The gain of each chunk is the call's own, scaled by the ratio of the chunk. -/
def FadesRight (s : Output) (avail now : ℕ) (answers : ℕ → ℤ) : Prop :=
  ∀ toGain left, (s.outputFrames toGain avail now answers).2.2.filterMap (OutputObs.side left) =
    (s.cuts avail now answers).map (fadedGain toGain (s.baseGain left))

/-- The gains of a fade are right, whatever `to_gain` is, exactly if a chunk in the fade is the
last of its call and the output is not inverted then, or if the volume is 0. -/
theorem fade_gain_iff (h : s.fadeDir ≠ .cross) (avail now : ℕ) (answers : ℕ → ℤ) :
    FadesRight s avail now answers ↔
      (s.baseGain true = 0 ∧ s.baseGain false = 0) ∨
        Unbroken s.invert (s.cuts avail now answers) := by
  have hside (left : Bool) : (∀ toGain,
      (s.outputFrames toGain avail now answers).2.2.filterMap (OutputObs.side left) =
        (s.cuts avail now answers).map (fadedGain toGain (s.baseGain left))) ↔
      s.baseGain left = 0 ∨ Unbroken s.invert (s.cuts avail now answers) := by
    rw [← gainChain_eq_map_iff]
    exact forall_congr' fun toGain => by rw [outputFrames_side h]
  constructor
  · intro hright
    rcases (hside true).mp (fun toGain => hright toGain true) with hleft | hcut
    · rcases (hside false).mp (fun toGain => hright toGain false) with hnone | hcut
      · exact Or.inl ⟨hleft, hnone⟩
      · exact Or.inr hcut
    · exact Or.inr hcut
  · intro hcond toGain left
    refine (hside left).mpr ?_ toGain
    rcases hcond with ⟨hleft, hright⟩ | hcut
    · cases left with
      | false => exact Or.inl hright
      | true => exact Or.inl hleft
    · exact Or.inr hcut

end Call

/-- Eight frames to be played, and a fade up over the first four of them. -/
def fadingUp : Output :=
  { outputInit ⟨0, fun _ => 0⟩ 64 44100 0 false with
    state := .running
    fade := .due
    fadeEnd := 16
    outputbuf := { bufInit ⟨0, fun _ => 0⟩ 64 with writep := 32 } }

/-- With one chunk there is nothing to go wrong ... -/
theorem fade_gain_once : FadesRight fadingUp 1 0 (fun _ => 1) :=
  (fade_gain_iff (by decide) 1 0 (fun _ => 1)).mpr
    (Or.inr ⟨by decide, fun hinvert => (nomatch hinvert)⟩)

/-- ... but where `write_cb` takes one frame at a time, the second one is faded twice. -/
theorem fade_gain_twice : ¬ FadesRight fadingUp 2 0 (fun _ => 1) := by
  intro h
  have hleft := h (fun _ _ => 0x8000) true
  revert hleft
  decide

end SqueezeliteMuse
