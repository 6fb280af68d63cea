/-
SqueezeliteMuse/Led.lean

The blinking of an LED: requests, requests that are pushed over them, and the timer.

A normal request waits while one is pushed, if there is a timer: the timer is made by the first
request to blink, and without one the request takes effect.  `led_unpush` goes back to the saved
times whether something is pushed or not.  And a timer that exists is started with the period it
has, which may be that of another request.

The LED is one that has a pin.  Times are in ms; a period is given by the time it is made from.

Main result: `follows_of_fine`: in a run whose steps keep clear of these three cases (`Fine`) the
LED always shows what was pushed last, or else the last normal request.
-/
import Mathlib.Algebra.Order.Ring.Int
import Mathlib.Data.Int.Notation
import Mathlib.Data.List.Infix
import Mathlib.Tactic.Common

namespace SqueezeliteMuse

namespace Led

/-! ### The code -/

/-- A one-shot timer: its period, and whether it is running. -/
structure Timer where
  period : ℤ
  active : Bool
  deriving DecidableEq

/-- `struct led_s`, as far as it changes, and the level that is set. -/
structure State where
  on : Bool
  ontime : ℤ
  offtime : ℤ
  pushedon : ℤ
  pushedoff : ℤ
  pushed : Bool
  timer : Option Timer
  level : Bool
  deriving DecidableEq

/-- `led_config` -/
def init : State := ⟨false, 0, 0, 0, 0, false, none, false⟩

/-- `xTimerStop` -/
def State.xTimerStop (s : State) : State :=
  { s with timer := s.timer.map fun t => { t with active := false } }

/-- `xTimerCreate`, if there is no timer, and `xTimerStart` -/
def State.xTimerStart (s : State) (period : ℤ) : State :=
  { s with timer := some ⟨(s.timer.map Timer.period).getD period, true⟩ }

/-- What `led_blink_core` sets. -/
def State.set (s : State) (ontime offtime : ℤ) : State :=
  let s := { s with ontime := ontime, offtime := offtime }
  if ontime = 0 then { s with level := false }
  else if offtime = 0 then { s with level := true }
  else { s with on := true, level := true }.xTimerStart ontime

/-- What `led_blink_core` saves. -/
def State.save (s : State) (pushed : Bool) : State :=
  if s.pushed then s
  else { s with pushedon := s.ontime, pushedoff := s.offtime, pushed := pushed }

/-- `led_blink_core` -/
def State.blinkCore (s : State) (ontime offtime : ℤ) (pushed : Bool) : State :=
  if s.timer.isSome ∧ pushed = false ∧ s.pushed then
    { s with pushedon := ontime, pushedoff := offtime }
  else (s.xTimerStop.save pushed).set ontime offtime

/-- `led_unpush` -/
def State.unpush (s : State) : State :=
  { s.blinkCore s.pushedon s.pushedoff true with pushed := false }

/-- `vCallbackFunction`, of a timer that runs. -/
def State.vCallbackFunction (s : State) : State :=
  match s.timer with
  | some ⟨period, true⟩ =>
      let on := !s.on
      if on = false ∧ s.offtime = -1 then
        { s with on := on, level := on, timer := some ⟨period, false⟩ }
      else
        { s with on := on, level := on, timer := some ⟨if on then s.ontime else s.offtime, true⟩ }
  | _ => s

inductive Event
  /-- `led_blink`, `led_on` and `led_off` -/
  | normal (ontime offtime : ℤ)
  /-- `led_blink_pushed` -/
  | push (ontime offtime : ℤ)
  | unpush
  /-- The timer expires. -/
  | expire
  deriving DecidableEq

def State.step (s : State) : Event → State
  | .normal ontime offtime => s.blinkCore ontime offtime false
  | .push ontime offtime => s.blinkCore ontime offtime true
  | .unpush => s.unpush
  | .expire => s.vCallbackFunction

/-- The LED after events. -/
def after (events : List Event) : State := events.foldl State.step init

/-! ### What is to be shown -/

/-- What a request asks for; with an off time of -1 the LED is on once. -/
inductive Pattern
  | off
  | on
  | blink (ontime offtime : ℤ)
  deriving DecidableEq

def pattern (ontime offtime : ℤ) : Pattern :=
  if ontime = 0 then .off else if offtime = 0 then .on else .blink ontime offtime

/-- The level, and for how long. -/
structure Shown where
  level : Bool
  wait : Option ℤ
  deriving DecidableEq

def Pattern.start : Pattern → Shown
  | .off => ⟨false, none⟩
  | .on => ⟨true, none⟩
  | .blink ontime _ => ⟨true, some ontime⟩

/-- What is shown when the time is over. -/
def Pattern.next : Pattern → Shown → Shown
  | .blink ontime offtime, ⟨level, some _⟩ =>
      if level then ⟨false, if offtime = -1 then none else some offtime⟩ else ⟨true, some ontime⟩
  | _, s => s

/-- The last normal request, what was pushed over it, and what is to be shown. -/
structure Wish where
  normal : Pattern
  pushed : Option Pattern
  shown : Shown
  deriving DecidableEq

def Wish.current (m : Wish) : Pattern := m.pushed.getD m.normal

def Wish.step (m : Wish) : Event → Wish
  | .normal ontime offtime =>
      match m.pushed with
      | none => { m with normal := pattern ontime offtime, shown := (pattern ontime offtime).start }
      | some _ => { m with normal := pattern ontime offtime }
  | .push ontime offtime =>
      { m with pushed := some (pattern ontime offtime), shown := (pattern ontime offtime).start }
  | .unpush =>
      match m.pushed with
      | none => m
      | some _ => { m with pushed := none, shown := m.normal.start }
  | .expire => { m with shown := m.current.next m.shown }

def wish (events : List Event) : Wish := events.foldl Wish.step ⟨.off, none, ⟨false, none⟩⟩

/-- What the LED shows. -/
def State.shown (s : State) : Shown :=
  ⟨s.level, s.timer.bind fun t => if t.active then some t.period else none⟩

/-- The LED shows what it is to show. -/
def Follows (events : List Event) : Prop :=
  ∀ past, past <+: events → (after past).shown = (wish past).shown

/-- The timer, if there is one, has the period that the pattern begins with. -/
def Timed (s : State) : Pattern → Prop
  | .blink ontime _ => ∀ t ∈ s.timer, t.period = ontime
  | _ => True

instance (s : State) (p : Pattern) : Decidable (Timed s p) :=
  match p with
  | .off | .on => .isTrue trivial
  | .blink ontime _ => inferInstanceAs (Decidable (∀ t ∈ s.timer, t.period = ontime))

/-- A normal request while something is pushed finds a timer; a request that takes effect finds the
timer with its own period; and there is something pushed when it is taken back, or the times saved
are for the same steady level. -/
def Fine (s : State) : Event → Prop
  | .normal ontime offtime =>
      if s.pushed then s.timer.isSome = true else Timed s (pattern ontime offtime)
  | .push ontime offtime => Timed s (pattern ontime offtime)
  | .unpush =>
      if s.pushed then Timed s (pattern s.pushedon s.pushedoff)
      else pattern s.pushedon s.pushedoff = pattern s.ontime s.offtime ∧
        (pattern s.ontime s.offtime = .off ∨ pattern s.ontime s.offtime = .on)
  | .expire => True

instance (s : State) (e : Event) : Decidable (Fine s e) :=
  match e with
  | .normal ontime offtime => inferInstanceAs (Decidable (ite _ _ (Timed s (pattern ontime offtime))))
  | .push ontime offtime => inferInstanceAs (Decidable (Timed s (pattern ontime offtime)))
  | .unpush => inferInstanceAs (Decidable (ite _ (Timed s (pattern s.pushedon s.pushedoff)) _))
  | .expire => .isTrue trivial

/-- The steps of a run are fine. -/
def FineRun (s : State) : List Event → Prop
  | [] => True
  | e :: events => Fine s e ∧ FineRun (s.step e) events

instance decidableFineRun (s : State) : ∀ events, Decidable (FineRun s events)
  | [] => .isTrue trivial
  | e :: events => @instDecidableAnd _ _ _ (decidableFineRun (s.step e) events)

/-! ### What a request sets -/

variable {s : State} {m : Wish} {e : Event} {ontime offtime : ℤ}

/-- The LED is in a pattern: `on` is its level while it blinks, and the timer runs only then. -/
structure In (s : State) (p : Pattern) (w : Shown) : Prop where
  pattern : pattern s.ontime s.offtime = p
  shown : s.shown = w
  on : ∀ t, s.timer = some t → t.active = true → s.on = s.level ∧ p ≠ .off ∧ p ≠ .on
  steady : p = .off ∨ p = .on → w = p.start

theorem pattern_cases (ontime offtime : ℤ) :
    (ontime = 0 ∧ pattern ontime offtime = .off) ∨
    (ontime ≠ 0 ∧ offtime = 0 ∧ pattern ontime offtime = .on) ∨
    (ontime ≠ 0 ∧ offtime ≠ 0 ∧ pattern ontime offtime = .blink ontime offtime) := by
  rw [pattern]
  split
  case isTrue hon => exact .inl ⟨hon, rfl⟩
  case isFalse hon =>
    split
    case isTrue hoff => exact .inr (.inl ⟨hon, hoff, rfl⟩)
    case isFalse hoff => exact .inr (.inr ⟨hon, hoff, rfl⟩)

/-- No timer runs. -/
def State.Stopped (s : State) : Prop := ∀ t, s.timer = some t → t.active = false

theorem stopped_xTimerStop (s : State) : s.xTimerStop.Stopped := by
  intro t ht
  obtain ⟨u, -, rfl⟩ := Option.map_eq_some_iff.mp ht
  rfl

theorem shown_stopped (h : s.Stopped) : s.shown = ⟨s.level, none⟩ := by
  rw [State.shown]
  rcases htimer : s.timer with - | t
  · rfl
  · have hactive := h t htimer
    simp [hactive]

/-- A request that takes effect begins its pattern, if the timer fits. -/
theorem in_set (hstop : s.Stopped) (htimed : Timed s (pattern ontime offtime)) :
    In (s.set ontime offtime) (pattern ontime offtime) (pattern ontime offtime).start := by
  rcases pattern_cases ontime offtime with ⟨hon, hp⟩ | ⟨hon, hoff, hp⟩ | ⟨hon, hoff, hp⟩
  · have hset : s.set ontime offtime =
        { s with ontime := ontime, offtime := offtime, level := false } := by
      rw [State.set, if_pos hon]
    rw [hset, hp]
    refine ⟨hp, shown_stopped hstop, fun t ht hactive => ?_, fun _ => rfl⟩
    rw [hstop t ht] at hactive
    cases hactive
  · have hset : s.set ontime offtime =
        { s with ontime := ontime, offtime := offtime, level := true } := by
      rw [State.set, if_neg hon, if_pos hoff]
    rw [hset, hp]
    refine ⟨hp, shown_stopped hstop, fun t ht hactive => ?_, fun _ => rfl⟩
    rw [hstop t ht] at hactive
    cases hactive
  · have hperiod : (s.timer.map Timer.period).getD ontime = ontime := by
      rcases htimer : s.timer with - | t
      · rfl
      · rw [hp] at htimed
        exact htimed t htimer
    have hset : s.set ontime offtime =
        { s with
          ontime := ontime, offtime := offtime, on := true, level := true
          timer := some ⟨ontime, true⟩ } := by
      rw [State.set, if_neg hon, if_neg hoff, State.xTimerStart, hperiod]
    rw [hset, hp]
    exact ⟨hp, rfl, fun t _ _ => ⟨rfl, nofun, nofun⟩, fun _ => rfl⟩

theorem next_of_wait {p : Pattern} {level : Bool} : p.next ⟨level, none⟩ = ⟨level, none⟩ := by
  cases p <;> rfl

/-- A blinking LED goes on when the time is over. -/
theorem in_vCallbackFunction {p : Pattern} {shown : Shown} (h : In s p shown) :
    In s.vCallbackFunction p (p.next shown) := by
  obtain ⟨hpattern, hshown, hon, hsteady⟩ := h
  rcases htimer : s.timer with - | ⟨period, active⟩
  · -- there is no timer
    have hstop : s.Stopped := fun t ht => by
      rw [htimer] at ht
      cases ht
    have hcall : s.vCallbackFunction = s := by rw [State.vCallbackFunction, htimer]
    have hnext : p.next shown = shown := by rw [← hshown, shown_stopped hstop, next_of_wait]
    rw [hcall, hnext]
    exact ⟨hpattern, hshown, hon, hsteady⟩
  · cases active with
    | false =>
      have hstop : s.Stopped := fun t ht => by
        rw [htimer] at ht
        cases ht
        rfl
      have hcall : s.vCallbackFunction = s := by rw [State.vCallbackFunction, htimer]
      have hnext : p.next shown = shown := by rw [← hshown, shown_stopped hstop, next_of_wait]
      rw [hcall, hnext]
      exact ⟨hpattern, hshown, hon, hsteady⟩
    | true =>
      obtain ⟨hlevel, hoff, hon⟩ := hon ⟨period, true⟩ htimer rfl
      have hshow : s.shown = ⟨s.on, some period⟩ := by
        rw [State.shown, htimer, hlevel]
        rfl
      rcases pattern_cases s.ontime s.offtime with ⟨-, hp⟩ | ⟨-, -, hp⟩ | ⟨-, -, hp⟩
      · exact absurd (hpattern.symm.trans hp) hoff
      · exact absurd (hpattern.symm.trans hp) hon
      · rw [← hshown, hshow, ← hpattern, hp]
        rcases hstate : s.on with - | -
        · -- it was off
          have hcall : s.vCallbackFunction =
              { s with on := true, level := true, timer := some ⟨s.ontime, true⟩ } := by
            simp [State.vCallbackFunction, htimer, hstate]
          rw [hcall]
          exact ⟨hp, rfl, fun _ _ _ => ⟨rfl, nofun, nofun⟩, nofun⟩
        · by_cases honce : s.offtime = -1
          · have hcall : s.vCallbackFunction =
                { s with on := false, level := false, timer := some ⟨period, false⟩ } := by
              simp [State.vCallbackFunction, htimer, hstate, honce]
            rw [hcall]
            refine ⟨hp, ?_, fun t ht hactive => ?_, nofun⟩
            · simp [State.shown, Pattern.next, honce]
            · cases ht
              cases hactive
          · have hcall : s.vCallbackFunction =
                { s with on := false, level := false, timer := some ⟨s.offtime, true⟩ } := by
              simp [State.vCallbackFunction, htimer, hstate, honce]
            rw [hcall]
            refine ⟨hp, ?_, fun _ _ _ => ⟨rfl, nofun, nofun⟩, nofun⟩
            simp [State.shown, Pattern.next, honce]

/-! ### Requests -/

theorem timed_xTimerStop {p : Pattern} (h : Timed s p) : Timed s.xTimerStop p := by
  cases p with
  | off => trivial
  | on => trivial
  | blink ontime offtime =>
    intro t ht
    obtain ⟨u, hu, rfl⟩ := Option.map_eq_some_iff.mp ht
    exact h u hu

/-- What is saved with a request that takes effect. -/
theorem set_saved (s : State) (ontime offtime : ℤ) :
    (s.set ontime offtime).pushed = s.pushed ∧
    (s.set ontime offtime).pushedon = s.pushedon ∧
    (s.set ontime offtime).pushedoff = s.pushedoff := by
  rw [State.set]
  split
  · exact ⟨rfl, rfl, rfl⟩
  · split <;> exact ⟨rfl, rfl, rfl⟩

/-- A request takes effect, unless it is a normal one that waits for what is pushed. -/
theorem blinkCore_in (pushed : Bool) (h : s.timer.isSome = true → pushed = true ∨ s.pushed = false)
    (htimed : Timed s (pattern ontime offtime)) :
    In (s.blinkCore ontime offtime pushed) (pattern ontime offtime)
        (pattern ontime offtime).start ∧
      (s.blinkCore ontime offtime pushed).pushed = (s.pushed || pushed) ∧
      (s.pushed = true → (s.blinkCore ontime offtime pushed).pushedon = s.pushedon ∧
        (s.blinkCore ontime offtime pushed).pushedoff = s.pushedoff) ∧
      (s.pushed = false → (s.blinkCore ontime offtime pushed).pushedon = s.ontime ∧
        (s.blinkCore ontime offtime pushed).pushedoff = s.offtime) := by
  have hgo : ¬ (s.timer.isSome ∧ pushed = false ∧ s.pushed) := by
    rintro ⟨htimer, hpushed, hs⟩
    rcases h htimer with h | h
    · rw [hpushed] at h
      cases h
    · rw [hs] at h
      cases h
  rw [State.blinkCore, if_neg hgo]
  have hstop := stopped_xTimerStop s
  have htimed' := timed_xTimerStop htimed
  rcases hs : s.pushed with - | -
  · have hsave : s.xTimerStop.save pushed =
        { s.xTimerStop with pushedon := s.ontime, pushedoff := s.offtime, pushed := pushed } :=
      if_neg (by simp [State.xTimerStop, hs])
    rw [hsave]
    obtain ⟨hpushed, hpon, hpoff⟩ := set_saved
      { s.xTimerStop with pushedon := s.ontime, pushedoff := s.offtime, pushed := pushed }
      ontime offtime
    exact ⟨in_set hstop htimed', hpushed, nofun, fun _ => ⟨hpon, hpoff⟩⟩
  · have hsave : s.xTimerStop.save pushed = s.xTimerStop := if_pos hs
    rw [hsave]
    obtain ⟨hpushed, hpon, hpoff⟩ := set_saved s.xTimerStop ontime offtime
    exact ⟨in_set hstop htimed', hpushed.trans hs, fun _ => ⟨hpon, hpoff⟩, nofun⟩

/-- A normal request that waits changes nothing but the saved times. -/
theorem blinkCore_waits (htimer : s.timer.isSome = true) (hpushed : s.pushed = true) :
    s.blinkCore ontime offtime false = { s with pushedon := ontime, pushedoff := offtime } :=
  if_pos ⟨htimer, rfl, hpushed⟩

theorem vCallbackFunction_saved : s.vCallbackFunction.pushed = s.pushed ∧
    s.vCallbackFunction.pushedon = s.pushedon ∧
    s.vCallbackFunction.pushedoff = s.pushedoff := by
  rw [State.vCallbackFunction]
  split
  · dsimp only
    split <;> exact ⟨rfl, rfl, rfl⟩
  · exact ⟨rfl, rfl, rfl⟩

/-! ### Runs -/

/-- The LED is as it is to be. -/
structure Meets (s : State) (m : Wish) : Prop where
  pushed : s.pushed = m.pushed.isSome
  shows : In s m.current m.shown
  saved : s.pushed = true → pattern s.pushedon s.pushedoff = m.normal

theorem meets_init : Meets init ⟨.off, none, ⟨false, none⟩⟩ :=
  ⟨rfl, ⟨rfl, rfl, nofun, fun _ => rfl⟩, nofun⟩

/-- A step that is fine is followed. -/
theorem Meets.step (h : Meets s m) (hfine : Fine s e) : Meets (s.step e) (m.step e) := by
  obtain ⟨hpushed, hshows, hsaved⟩ := h
  obtain ⟨normal, pushed, shown⟩ := m
  cases e with
  | normal ontime offtime =>
    cases pushed with
    | none =>
      have hnot : s.pushed = false := hpushed
      have htimed : Timed s (pattern ontime offtime) := by
        rw [Fine, if_neg (by simp [hnot])] at hfine
        exact hfine
      obtain ⟨hin, hp, -, -⟩ := blinkCore_in false (fun _ => .inr hnot) htimed
      rw [hnot] at hp
      refine ⟨hp, hin, fun hp' => ?_⟩
      rw [State.step, hp] at hp'
      cases hp'
    | some p =>
      have his : s.pushed = true := hpushed
      have htimer : s.timer.isSome = true := by
        rw [Fine, if_pos his] at hfine
        exact hfine
      rw [State.step, blinkCore_waits htimer his]
      exact ⟨hpushed, ⟨hshows.pattern, hshows.shown, hshows.on, hshows.steady⟩, fun _ => rfl⟩
  | push ontime offtime =>
    obtain ⟨hin, hp, hkept, hnew⟩ := blinkCore_in true (fun _ => .inl rfl) hfine
    rw [Bool.or_true] at hp
    refine ⟨hp, hin, fun _ => ?_⟩
    rcases hs : s.pushed with - | -
    · -- what was shown is the last normal request
      obtain ⟨hpon, hpoff⟩ := hnew hs
      rw [State.step, hpon, hpoff]
      rw [hs] at hpushed
      have hnone : pushed = none := by simpa using hpushed.symm
      subst hnone
      exact hshows.pattern
    · obtain ⟨hpon, hpoff⟩ := hkept hs
      rw [State.step, hpon, hpoff]
      exact hsaved hs
  | unpush =>
    cases pushed with
    | none =>
      have hnot : s.pushed = false := hpushed
      rw [Fine, if_neg (by simp [hnot])] at hfine
      obtain ⟨hsame, hsteady⟩ := hfine
      have htimed : Timed s (pattern s.pushedon s.pushedoff) := by
        rw [hsame]
        rcases hsteady with h | h
        · rw [h]
          trivial
        · rw [h]
          trivial
      obtain ⟨hin, -, -, -⟩ := blinkCore_in true (fun _ => .inl rfl) htimed
      rw [hsame, hshows.pattern] at hin
      rw [hshows.pattern] at hsteady
      have hstart : shown = normal.start := hshows.steady hsteady
      refine ⟨rfl, ⟨hin.pattern, ?_, hin.on, hshows.steady⟩, nofun⟩
      exact hin.shown.trans hstart.symm
    | some p =>
      have his : s.pushed = true := hpushed
      rw [Fine, if_pos his] at hfine
      obtain ⟨hin, -, -, -⟩ := blinkCore_in true (fun _ => .inl rfl) hfine
      rw [hsaved his] at hin
      exact ⟨rfl, ⟨hin.pattern, hin.shown, hin.on, hin.steady⟩, nofun⟩
  | expire =>
    obtain ⟨hp, hpon, hpoff⟩ := vCallbackFunction_saved (s := s)
    refine ⟨hp.trans hpushed, in_vCallbackFunction hshows, fun hs => ?_⟩
    rw [State.step, hpon, hpoff]
    exact hsaved (hp.symm.trans hs)

theorem meets_run {s : State} {m : Wish} (events : List Event) (h : Meets s m)
    (hfine : FineRun s events) (past : List Event) (hpast : past <+: events) :
    Meets (past.foldl State.step s) (past.foldl Wish.step m) := by
  induction past generalizing s m events with
  | nil => exact h
  | cons e past ih =>
      obtain ⟨rest, rfl⟩ := hpast
      exact ih (past ++ rest) (h.step hfine.1) hfine.2 (List.prefix_append past rest)

/-- The LED shows what was pushed last, or else the last normal request, in every run whose steps
are fine. -/
theorem follows_of_fine (events : List Event) (hfine : FineRun init events) : Follows events :=
  fun past hpast => (meets_run events meets_init hfine past hpast).shows.shown

/-- A blink that is pushed over a blink, and taken back. -/
theorem follows_pushed :
    Follows [.normal 500 100, .expire, .expire, .push 500 50, .normal 0 0, .expire, .unpush] :=
  follows_of_fine _ (by decide)

/-- A normal request takes effect over a steady level that is pushed. -/
theorem push_lost : ¬ ∀ events, Follows events := by
  intro h
  exact absurd (h [.push 1 0, .normal 0 0] _ List.prefix_rfl) (by decide)

end Led

end SqueezeliteMuse
