/-
SqueezeliteMuse/KnobControl.lean

The rotary in knob-only mode, and the control tables.

A click waits for a second one, and a turn to the left for one to the right, with one timer for
both. A long press does what a click does to the pending flag, and starts no timer: the next click
counts as a second one.  A turn to the right stops the timer, also when a click is pending.  And the
handlers are called without a look at them, where the tables of AirPlay and of Bluetooth have NULL.

In raw mode the events are passed on as they are.

Main result: `clicks_of_fine`: in a run without long presses, whose calls find a handler and where
the timer runs when the delay of a click is over, every click has its action.
-/
import Mathlib.Algebra.Order.Ring.Int
import Mathlib.Tactic.Common

namespace SqueezeliteMuse

namespace KnobControl

/-! ### The code -/

/-- `actrls_action_e`, of the actions that a table has. -/
inductive Action
  | power | volUp | volDown | toggle | play | pause | stop | rew | fwd | prev | next
  | bctrlsUp | bctrlsDown | bctrlsLeft | bctrlsRight
  | ps1 | ps2 | ps3 | ps4 | ps5 | ps6
  | knobLeft | knobRight | knobPush
  deriving DecidableEq

/-- `actrls_t`: a handler for each action, or NULL. -/
abbrev Table (ν : Type) := Action → Option ν

/-- `rotary` in knob-only mode, with its timer, and the tables. -/
structure Knob (ν : Type) where
  currentControls : Table ν
  defaultControls : Table ν
  currentRaw : Bool
  defaultRaw : Bool
  clickPending : Bool
  leftCount : ℕ
  /-- The timer is running. -/
  running : Bool

/-- A call of a handler. -/
structure Call (ν : Type) where
  action : Action
  handler : Option ν
  pressed : Bool
  deriving DecidableEq

inductive Event (ν : Type)
  /-- `ROTARY_LEFT` -/
  | left
  /-- `ROTARY_RIGHT` -/
  | right
  /-- `ROTARY_PRESSED` -/
  | press (longPress : Bool)
  /-- `ROTARY_RELEASED` -/
  | release
  /-- The double-click delay is over: the timer expires, if it is running. -/
  | delay
  /-- `actrls_set` -/
  | set (controls : Table ν) (raw : Bool)
  /-- `actrls_unset` -/
  | unset

variable {ν : Type}

/-- `(*current_controls[action])(pressed)` -/
def Knob.call (s : Knob ν) (action : Action) (pressed : Bool) : Call ν :=
  ⟨action, s.currentControls action, pressed⟩

/-- `control_rotary_handler`, of a turn to the left. -/
def Knob.left (s : Knob ν) : Knob ν × List (Call ν) :=
  if s.currentRaw then (s, [s.call .knobLeft true])
  else
    ({ s with running := true, leftCount := s.leftCount + 1 },
      (if s.leftCount = 1 then [s.call .knobLeft true] else []) ++
        if s.leftCount = 0 then [] else [s.call .knobLeft true])

/-- `control_rotary_handler`, of a turn to the right. -/
def Knob.right (s : Knob ν) : Knob ν × List (Call ν) :=
  if s.currentRaw then (s, [s.call .knobRight true])
  else if s.leftCount = 1 then
    ({ s with leftCount := 0, running := false }, [s.call .pause true])
  else (s, [s.call .knobRight true])

/-- `control_rotary_handler`, of the button going down. -/
def Knob.press (s : Knob ν) (longPress : Bool) : Knob ν × List (Call ν) :=
  if s.currentRaw then (s, [s.call .knobPush true])
  else if longPress then ({ s with clickPending := !s.clickPending }, [s.call .play true])
  else if s.clickPending then
    ({ s with clickPending := false, running := false }, [s.call .bctrlsLeft true])
  else ({ s with clickPending := true, running := true }, [])

/-- `rotary_timer` -/
def Knob.rotaryTimer (s : Knob ν) : Knob ν × List (Call ν) :=
  if s.clickPending then ({ s with clickPending := false }, [s.call .knobPush true])
  else if s.leftCount = 0 then (s, [])
  else
    ({ s with leftCount := 0 }, if s.leftCount = 1 then [s.call .knobLeft true] else [])

/-- What an event does. -/
def Event.act : Event ν → Knob ν → Knob ν × List (Call ν)
  | .left, s => s.left
  | .right, s => s.right
  | .press longPress, s => s.press longPress
  | .release, s => (s, if s.currentRaw then [s.call .knobPush false] else [])
  | .delay, s => if s.running then { s with running := false }.rotaryTimer else (s, [])
  | .set controls raw, s => ({ s with currentControls := controls, currentRaw := raw }, [])
  | .unset, s => ({ s with currentControls := s.defaultControls, currentRaw := s.defaultRaw }, [])

/-- The knob at first, with the table that `actrls_set_default` was given. -/
def init (controls : Table ν) (raw : Bool) : Knob ν :=
  ⟨controls, controls, raw, raw, false, 0, false⟩

/-! ### What is required -/

/-- What is known from the events: a click waits for its delay to be over; and the raw modes. -/
structure Wish where
  waits : Bool
  currentRaw : Bool
  defaultRaw : Bool
  deriving DecidableEq

def Wish.next (m : Wish) : Event ν → Wish
  | .press false => if m.currentRaw then m else { m with waits := !m.waits }
  | .delay => { m with waits := false }
  | .set _ raw => { m with currentRaw := raw }
  | .unset => { m with currentRaw := m.defaultRaw }
  | _ => m

/-- The actions of the button: a second click has its own, a click has one when its delay is over,
and a long press has its own. -/
def Wish.clicks (m : Wish) : Event ν → List (Action × Bool)
  | .press longPress =>
      if m.currentRaw then [(.knobPush, true)]
      else if longPress then [(.play, true)]
      else if m.waits then [(.bctrlsLeft, true)]
      else []
  | .release => if m.currentRaw then [(.knobPush, false)] else []
  | .delay => if m.waits then [(.knobPush, true)] else []
  | _ => []

/-- The action is one of the button. -/
def Action.isClick : Action → Bool
  | .knobPush | .bctrlsLeft | .play => true
  | _ => false

/-- The actions of the button among the calls. -/
def clicks (calls : List (Call ν)) : List (Action × Bool) :=
  (calls.filter fun c => c.action.isClick).map fun c => (c.action, c.pressed)

/-- What is called at an event is right. -/
structure Right (m : Wish) (e : Event ν) (calls : List (Call ν)) : Prop where
  /-- No NULL is called. -/
  handled : ∀ c ∈ calls, c.handler ≠ none
  clicks : clicks calls = m.clicks e

/-- What is called in a run is right. -/
def Sound (s : Knob ν) (m : Wish) : List (Event ν) → Prop
  | [] => True
  | e :: events => Right m e (e.act s).2 ∧ Sound (e.act s).1 (m.next e) events

/-- The table has a handler. -/
def Knob.Has (s : Knob ν) (action : Action) : Prop := (s.currentControls action).isSome = true

instance (s : Knob ν) (action : Action) : Decidable (s.Has action) :=
  inferInstanceAs (Decidable (_ = _))

/-- There is no long press, what is called has a handler, and the timer of a click runs when its
delay is over. -/
def Fine (s : Knob ν) : Event ν → Prop
  | .left => if s.currentRaw then s.Has .knobLeft else s.leftCount = 0 ∨ s.Has .knobLeft
  | .right =>
      if s.currentRaw then s.Has .knobRight
      else if s.leftCount = 1 then s.Has .pause
      else s.Has .knobRight
  | .press longPress =>
      if s.currentRaw then s.Has .knobPush
      else longPress = false ∧ (s.clickPending = true → s.Has .bctrlsLeft)
  | .release => s.currentRaw = true → s.Has .knobPush
  | .delay =>
      if s.clickPending then s.running = true ∧ s.Has .knobPush
      else s.running = true ∧ s.leftCount = 1 → s.Has .knobLeft
  | .set _ _ | .unset => True

instance (s : Knob ν) (e : Event ν) : Decidable (Fine s e) :=
  match e with
  | .left => inferInstanceAs (Decidable (ite _ _ (_ ∨ _)))
  | .right => inferInstanceAs (Decidable (ite _ _ (ite _ _ _)))
  | .press longPress => inferInstanceAs (Decidable (ite _ _ (longPress = false ∧ (_ → _))))
  | .release => inferInstanceAs (Decidable (_ → _))
  | .delay => inferInstanceAs (Decidable (ite _ (_ ∧ _) (_ ∧ _ → _)))
  | .set _ _ | .unset => .isTrue trivial

/-- The events of a run are fine. -/
def FineRun (s : Knob ν) : List (Event ν) → Prop
  | [] => True
  | e :: events => Fine s e ∧ FineRun (e.act s).1 events

instance decidableFineRun (s : Knob ν) : ∀ events, Decidable (FineRun s events)
  | [] => .isTrue trivial
  | e :: events => @instDecidableAnd _ _ _ (decidableFineRun (e.act s).1 events)

/-! ### An event -/

variable {s : Knob ν} {m : Wish} {e : Event ν} {action : Action} {pressed : Bool}

/-- The pending flag and the raw modes are as they are to be. -/
structure Meets (s : Knob ν) (m : Wish) : Prop where
  waits : s.clickPending = m.waits
  currentRaw : s.currentRaw = m.currentRaw
  defaultRaw : s.defaultRaw = m.defaultRaw

/-- One call that finds its handler. -/
theorem right_single (h : s.Has action)
    (hclicks : (if action.isClick then [(action, pressed)] else []) = m.clicks e) :
    Right m e [s.call action pressed] := by
  refine ⟨fun c hc => ?_, ?_⟩
  · cases List.mem_singleton.mp hc
    exact Option.isSome_iff_ne_none.mp h
  · rw [← hclicks]
    cases action <;> rfl

theorem right_nil (hclicks : m.clicks e = []) : Right m e ([] : List (Call ν)) :=
  ⟨nofun, hclicks.symm⟩

theorem Meets.left (h : Meets s m) (hfine : Fine s .left) :
    Meets s.left.1 m ∧ Right m (.left : Event ν) s.left.2 := by
  rw [Fine] at hfine
  rw [Knob.left]
  split
  case isTrue hraw =>
    rw [if_pos hraw] at hfine
    exact ⟨h, right_single hfine rfl⟩
  case isFalse hraw =>
    rw [if_neg hraw] at hfine
    refine ⟨⟨h.waits, h.currentRaw, h.defaultRaw⟩, ?_⟩
    rcases hfine with hzero | hhas
    · have hone : s.leftCount ≠ 1 := by
        rw [hzero]
        exact Nat.zero_ne_one
      dsimp only
      rw [if_neg hone, if_pos hzero]
      exact right_nil rfl
    · have hone : Right m (.left : Event ν) [s.call .knobLeft true] := right_single hhas rfl
      refine ⟨fun c hc => ?_, ?_⟩
      · rcases List.mem_append.mp hc with hc | hc
        · split at hc
          · exact hone.handled c hc
          · cases hc
        · split at hc
          · cases hc
          · exact hone.handled c hc
      · dsimp only
        split <;> split <;> rfl

theorem Meets.right (h : Meets s m) (hfine : Fine s .right) :
    Meets s.right.1 m ∧ Right m (.right : Event ν) s.right.2 := by
  rw [Fine] at hfine
  rw [Knob.right]
  split
  case isTrue hraw =>
    rw [if_pos hraw] at hfine
    exact ⟨h, right_single hfine rfl⟩
  case isFalse hraw =>
    rw [if_neg hraw] at hfine
    split
    case isTrue hone =>
      rw [if_pos hone] at hfine
      exact ⟨⟨h.waits, h.currentRaw, h.defaultRaw⟩, right_single hfine rfl⟩
    case isFalse hone =>
      rw [if_neg hone] at hfine
      exact ⟨h, right_single hfine rfl⟩

theorem Meets.press (h : Meets s m) {longPress : Bool} (hfine : Fine s (.press longPress)) :
    Meets (s.press longPress).1 (m.next (.press longPress : Event ν)) ∧
      Right m (.press longPress : Event ν) (s.press longPress).2 := by
  obtain ⟨hwaits, hcurrent, hdefault⟩ := h
  rw [Fine] at hfine
  rw [Knob.press]
  split
  case isTrue hraw =>
    rw [if_pos hraw] at hfine
    have hm : m.currentRaw = true := hcurrent.symm.trans hraw
    have hnext : m.next (.press longPress : Event ν) = m := by
      cases longPress
      · exact if_pos hm
      · rfl
    rw [hnext]
    exact ⟨⟨hwaits, hcurrent, hdefault⟩, right_single hfine (if_pos hm).symm⟩
  case isFalse hraw =>
    rw [if_neg hraw] at hfine
    obtain ⟨rfl, hhas⟩ := hfine
    have hm : ¬ m.currentRaw = true := fun hm => hraw (hcurrent.trans hm)
    have hnext : m.next (.press false : Event ν) = { m with waits := !m.waits } := if_neg hm
    have hclicks : m.clicks (.press false : Event ν) =
        if m.waits then [(.bctrlsLeft, true)] else [] := by
      rw [Wish.clicks, if_neg hm, if_neg Bool.false_ne_true]
    rw [if_neg Bool.false_ne_true, hnext]
    split
    case isTrue hpending =>
      -- the second click
      have hw : m.waits = true := hwaits.symm.trans hpending
      refine ⟨⟨by rw [hw]; rfl, hcurrent, hdefault⟩, right_single (hhas hpending) ?_⟩
      rw [hclicks, if_pos hw]
      rfl
    case isFalse hpending =>
      have hw : m.waits = false := hwaits.symm.trans (eq_false_of_ne_true hpending)
      refine ⟨⟨by rw [hw]; rfl, hcurrent, hdefault⟩, right_nil ?_⟩
      rw [hclicks, hw]
      rfl

theorem Meets.delay (h : Meets s m) (hfine : Fine s .delay) :
    Meets (Event.act .delay s).1 (m.next (.delay : Event ν)) ∧
      Right m (.delay : Event ν) (Event.act .delay s).2 := by
  obtain ⟨hwaits, hcurrent, hdefault⟩ := h
  rw [Fine] at hfine
  rcases hpending : s.clickPending with - | -
  · have hw : m.waits = false := hwaits.symm.trans hpending
    have hclicks : m.clicks (.delay : Event ν) = [] := by
      rw [Wish.clicks, hw]
      rfl
    rw [if_neg (by simp [hpending])] at hfine
    rw [Event.act]
    split
    case isFalse => exact ⟨⟨hpending, hcurrent, hdefault⟩, right_nil hclicks⟩
    case isTrue hrunning =>
      rw [Knob.rotaryTimer, if_neg (by simp [hpending])]
      split
      case isTrue => exact ⟨⟨hpending, hcurrent, hdefault⟩, right_nil hclicks⟩
      case isFalse =>
        refine ⟨⟨hpending, hcurrent, hdefault⟩, ?_⟩
        dsimp only
        split
        case isTrue hone => exact right_single (hfine ⟨hrunning, hone⟩) hclicks.symm
        case isFalse => exact right_nil hclicks
  · -- the click has its action
    have hw : m.waits = true := hwaits.symm.trans hpending
    rw [if_pos hpending] at hfine
    rw [Event.act, if_pos hfine.1, Knob.rotaryTimer, if_pos hpending]
    refine ⟨⟨rfl, hcurrent, hdefault⟩, right_single hfine.2 ?_⟩
    rw [Wish.clicks, if_pos hw]
    rfl

/-- An event that is fine is right. -/
theorem Meets.act (h : Meets s m) (hfine : Fine s e) :
    Meets (e.act s).1 (m.next e) ∧ Right m e (e.act s).2 := by
  cases e with
  | left => exact h.left hfine
  | right => exact h.right hfine
  | press longPress => exact h.press hfine
  | delay => exact h.delay hfine
  | set controls raw => exact ⟨⟨h.waits, rfl, h.defaultRaw⟩, right_nil rfl⟩
  | unset => exact ⟨⟨h.waits, h.defaultRaw, h.defaultRaw⟩, right_nil rfl⟩
  | release =>
    refine ⟨h, ?_⟩
    rw [Event.act]
    dsimp only
    split
    case isTrue hraw =>
      exact right_single (hfine hraw) (if_pos (h.currentRaw.symm.trans hraw)).symm
    case isFalse hraw =>
      exact right_nil (if_neg fun hm => hraw (h.currentRaw.trans hm))

/-! ### Runs -/

theorem Meets.sound (h : Meets s m) (events : List (Event ν)) (hfine : FineRun s events) :
    Sound s m events := by
  induction events generalizing s m with
  | nil => trivial
  | cons e events ih =>
      obtain ⟨hmeets, hright⟩ := h.act hfine.1
      exact ⟨hright, ih hmeets hfine.2⟩

/-- In a run whose events are fine no NULL is called, and every click has its action. -/
theorem clicks_of_fine (controls : Table ν) (raw : Bool) (events : List (Event ν))
    (hfine : FineRun (init controls raw) events) :
    Sound (init controls raw) ⟨false, raw, raw⟩ events :=
  Meets.sound ⟨rfl, rfl, rfl⟩ events hfine

/-- `controls` of the Bluetooth sink -/
def btControls : Table String
  | .volUp => some "bt_volume_up"
  | .volDown => some "bt_volume_down"
  | .toggle => some "bt_toggle"
  | .play => some "bt_play"
  | .pause => some "bt_pause"
  | .stop => some "bt_stop"
  | .prev => some "bt_prev"
  | .next => some "bt_next"
  | .knobLeft => some "bt_volume_down"
  | .knobRight => some "bt_volume_up"
  | .knobPush => some "bt_toggle"
  | _ => none

/-- Clicks and turns with the table of Bluetooth. -/
theorem bluetooth_clicks :
    Sound (init btControls false) ⟨false, false, false⟩
      [.press false, .release, .delay, .left, .left, .delay, .press false, .left, .delay] :=
  clicks_of_fine btControls false _ (by decide)

/-- A double click calls NULL in the table of Bluetooth. -/
theorem double_click_lost :
    ¬ ∀ (controls : Table String) (raw : Bool) (events : List (Event String)),
      Sound (init controls raw) ⟨false, raw, raw⟩ events := by
  intro h
  have hclick := (h btControls false [.press false, .press false]).2.1
  exact hclick.handled ⟨.bctrlsLeft, none, true⟩ (by decide) rfl

end KnobControl

end SqueezeliteMuse
