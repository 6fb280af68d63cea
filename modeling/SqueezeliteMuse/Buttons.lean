/-
SqueezeliteMuse/Buttons.lean

The buttons of buttons.c, from the edges of a GPIO to the events that a client gets.

An edge starts the timer of a button, and where the timer expires the level is read and handed to
`buttons_handler`; two GPIOs are polled instead.  `buttons_handler` starts the timer again where a
press may become a long one, and else puts a copy of the button into a queue, of which the task
makes the events.  A button that is used to shift another one, while it is pressed, is `shifting`,
and no events are made of the copies of such a button.

`buttons_handler` is a step, and so is what the task does with a copy up to its last line, which
sets `shifting` back.  The queue does not overflow.

Main result: `events_alternate`: the events of each button are presses and releases in turn, in
every run where the level that is read has changed or makes the press a long one, a button begins
to shift before its own press is sent, and the task does not set `shifting` back in between.
-/
import SqueezeliteMuse.Lib.Runs
import Mathlib.Logic.Function.Basic
import Mathlib.Data.Int.Notation

namespace SqueezeliteMuse

namespace Buttons

open Runs

/-! ### The code -/

/-- `MAX_BUTTONS` -/
def MAX_BUTTONS : ℕ := 32

/-- `DEBOUNCE` -/
def DEBOUNCE : ℤ := 50

/-- `struct button_s`, with its timer: whether it runs, and its period.  `shifter` is a place in
`buttons`. -/
structure Button where
  gpio : ℤ
  debounce : ℤ
  shifter : Option ℕ
  shifterGpio : ℤ
  longPress : ℤ
  longTimer : Bool
  shifting : Bool
  type : ℤ
  level : ℤ
  running : Bool
  period : ℤ

/-- An entry of `polled_gpio`. -/
structure Polled where
  gpio : ℤ
  level : ℤ
  button : Option ℕ

/-- `button_event_e` -/
inductive ButtonEvent
  | pressed | released
  deriving DecidableEq

/-- `button_press_e` -/
inductive ButtonPress
  | normal | shifted
  deriving DecidableEq

/-- A call of the handler of a button. -/
structure Obs where
  button : ℕ
  event : ButtonEvent
  press : ButtonPress
  longPress : Bool
  deriving DecidableEq

/-- The buttons, the queue with the copies of them, and the copy that the task has in hand. -/
structure State where
  count : ℕ
  buttons : ℕ → Button
  polled : List Polled
  queue : List (ℕ × Button)
  inHand : Option (ℕ × Button)

/-- `ms` as a `TickType_t`. -/
def ticks (ms : ℤ) : ℤ := ms % 2 ^ 32

/-- `gpio_isr_handler` -/
def gpioIsrHandler (b : Button) : Button :=
  { b with running := true, period := if b.period > b.debounce then b.debounce else b.period }

/-- A shifter that is pressed is shifting. -/
def shift (buttons : ℕ → Button) : Option ℕ → ℕ → Button
  | none => buttons
  | some j =>
      if (buttons j).type = (buttons j).level then
        Function.update buttons j { buttons j with shifting := true }
      else buttons

/-- The first lines of `buttons_handler`: the level, and the shifter. -/
def sampled (buttons : ℕ → Button) (i : ℕ) (level : ℤ) : ℕ → Button :=
  shift (Function.update buttons i { buttons i with level := level }) (buttons i).shifter

/-- `buttons_handler` -/
def buttonsHandler (s : State) (i : ℕ) (level : ℤ) : State :=
  let buttons := sampled s.buttons i level
  let b := buttons i
  if b.longPress ≠ 0 ∧ b.longTimer = false ∧ b.level = b.type then
    -- detect a long press, so hold event generation
    { s with
      buttons := Function.update buttons i
        { b with longTimer := true, running := true, period := ticks b.longPress } }
  else
    { s with
      buttons := Function.update buttons i { b with longTimer := false }
      queue := s.queue ++ [(i, b)] }

/-- `buttons_timer_handler`, where the timer of a button has expired. -/
def buttonsTimerHandler (s : State) (i : ℕ) (level : ℤ) : State :=
  if (s.buttons i).running then
    buttonsHandler
      { s with
        buttons := Function.update s.buttons i { s.buttons i with running := false } } i level
  else s

/-- A round of the loop of `buttons_polling`. -/
def buttonsPolling (s : State) (k : ℕ) (level : ℤ) : State :=
  match s.polled[k]? with
  | some ⟨gpio, old, some i⟩ =>
      if level ≠ old then
        buttonsHandler { s with polled := s.polled.set k ⟨gpio, level, some i⟩ } i level
      else s
  | _ => s

/-- Whether shifting is activated. -/
def pressOf (buttons : ℕ → Button) (b : Button) : ButtonPress :=
  match b.shifter with
  | none => .normal
  | some j => if (buttons j).type = (buttons j).level then .shifted else .normal

/-- The event of a copy. -/
def eventOf (b : Button) : ButtonEvent := if b.level = b.type then .pressed else .released

/-- The calls of the handler that the task makes for a copy. -/
def handled (buttons : ℕ → Button) (i : ℕ) (b : Button) : List Obs :=
  if b.longTimer then
    if eventOf b = .released then
      -- early release of a long-press button, send press/release
      if b.shifting then []
      else [⟨i, .pressed, pressOf buttons b, false⟩, ⟨i, .released, pressOf buttons b, false⟩]
    else if b.shifting then [] else [⟨i, .pressed, pressOf buttons b, true⟩]
  else if b.shifting then [] else [⟨i, eventOf b, pressOf buttons b, b.longPress ≠ 0⟩]

/-- `buttons_task` with the next copy, up to its last line. -/
def buttonsTask (s : State) : State × List Obs :=
  match s.inHand, s.queue with
  | none, (i, b) :: queue =>
      ({ s with queue := queue, inHand := some (i, b) }, handled s.buttons i b)
  | _, _ => (s, [])

/-- Whether the task sets `shifting` back for a copy. -/
def setsBack (b : Button) : Bool := !(b.longTimer && decide (b.level = b.type))

/-- Its last line. -/
def buttonsTaskEnd (s : State) : State :=
  match s.inHand with
  | none => s
  | some (i, b) =>
      if setsBack b then
        { s with
          buttons := Function.update s.buttons i { s.buttons i with shifting := false }
          inHand := none }
      else { s with inHand := none }

/-- The arguments of `button_create`, with the levels that it reads. -/
structure Created where
  gpio : ℤ
  type : ℤ
  debounce : ℤ
  longPress : ℤ
  shifterGpio : ℤ
  level : ℤ
  polledLevel : ℤ

/-- A button that is there already, when another one is created. -/
def besides (n : ℕ) (c : Created) (b : Button) : Button :=
  { b with
    longPress := if b.gpio = c.shifterGpio ∧ b.longPress = 0 then -1 else b.longPress
    shifter := if b.shifterGpio = c.gpio then some n else b.shifter }

/-- `button_create` -/
def buttonCreate (s : State) (c : Created) : State :=
  if s.count < MAX_BUTTONS then
    { s with
      count := s.count + 1
      buttons := fun i =>
        if i < s.count then besides s.count c (s.buttons i)
        else if i = s.count then
          { gpio := c.gpio
            debounce := if c.debounce ≠ 0 then c.debounce else DEBOUNCE
            shifter :=
              (List.range s.count).reverse.find? fun j => (s.buttons j).gpio = c.shifterGpio
            shifterGpio := c.shifterGpio
            longPress := c.longPress
            longTimer := false
            shifting := false
            type := c.type
            level := c.level
            running := false
            period := if c.debounce ≠ 0 then c.debounce else DEBOUNCE }
        else s.buttons i
      polled := s.polled.map fun p =>
        if p.gpio = c.gpio then ⟨p.gpio, c.polledLevel, some s.count⟩ else p }
  else s

/-- A button of `buttons` that is not created yet. -/
def blank : Button := ⟨0, 0, none, 0, 0, false, false, 1, 0, false, 0⟩

/-- The buttons that are created one after the other. -/
def start (created : List Created) : State :=
  created.foldl buttonCreate ⟨0, fun _ => blank, [⟨36, -1, none⟩, ⟨39, -1, none⟩], [], none⟩

inductive Event
  /-- An edge of a GPIO that has an interrupt. -/
  | edge (i : ℕ)
  | expired (i : ℕ) (level : ℤ)
  | poll (k : ℕ) (level : ℤ)
  | task
  | taskEnd

def machine : Machine State Event Obs where
  step s
    | .edge i => ({ s with
        buttons := Function.update s.buttons i (gpioIsrHandler (s.buttons i)) }, [])
    | .expired i level => (buttonsTimerHandler s i level, [])
    | .poll k level => (buttonsPolling s k level, [])
    | .task => buttonsTask s
    | .taskEnd => (buttonsTaskEnd s, [])

/-! ### What is required -/

/-- Presses and releases in turn. -/
def alternate : Bool → ButtonEvent → Option Bool
  | false, .pressed => some true
  | true, .released => some false
  | _, _ => none

/-- The same of each button: which of them are down for their client. -/
def observe (down : ℕ → Bool) (o : Obs) : Option (ℕ → Bool) :=
  (alternate (down o.button) o.event).map (Function.update down o.button)

/-- What is required of a level that is handed to `buttons_handler`: it has changed, or the press
becomes a long one; and the shifter, if it is pressed, has its own press yet to be sent. -/
structure Taken (buttons : ℕ → Button) (i : ℕ) (level : ℤ) : Prop where
  changed : (level = (buttons i).type ↔ (buttons i).level ≠ (buttons i).type) ∨
    ((buttons i).longTimer = true ∧ level = (buttons i).type)
  shifter : ∀ j ∈ (buttons i).shifter, (buttons j).level = (buttons j).type →
    (buttons j).shifting = true ∨ (buttons j).longTimer = true

instance (buttons : ℕ → Button) (i : ℕ) (level : ℤ) : Decidable (Taken buttons i level) :=
  decidable_of_iff
    (((level = (buttons i).type ↔ (buttons i).level ≠ (buttons i).type) ∨
        ((buttons i).longTimer = true ∧ level = (buttons i).type)) ∧
      ∀ j ∈ (buttons i).shifter, (buttons j).level = (buttons j).type →
        (buttons j).shifting = true ∨ (buttons j).longTimer = true)
    ⟨fun h => ⟨h.1, h.2⟩, fun h => ⟨h.changed, h.shifter⟩⟩

/-- The condition on a step. -/
def Sound (s : State) : Event → Prop
  | .expired i level => (s.buttons i).running = true → Taken s.buttons i level
  | .poll k level => ∀ p ∈ s.polled[k]?, ∀ i ∈ p.button, level ≠ p.level → Taken s.buttons i level
  | .taskEnd => ∀ c ∈ s.inHand, setsBack c.2 = true →
      (s.buttons c.1).shifting = false ∨ (s.buttons c.1).level ≠ (s.buttons c.1).type ∨
        (s.buttons c.1).longTimer = true
  | _ => True

instance (s : State) : ∀ e, Decidable (Sound s e)
  | .edge _ => inferInstanceAs (Decidable True)
  | .expired _ _ => inferInstanceAs (Decidable (_ → _))
  | .poll k level => inferInstanceAs (Decidable (∀ p ∈ s.polled[k]?, ∀ i ∈ p.button,
      level ≠ p.level → Taken s.buttons i level))
  | .task => inferInstanceAs (Decidable True)
  | .taskEnd => inferInstanceAs (Decidable (∀ c ∈ s.inHand, _ → _))

/-! ### What a copy amounts to -/

/-- The events of a copy, without the rest of the calls. -/
def kinds (b : Button) : List ButtonEvent :=
  if b.shifting then []
  else if b.longTimer then
    if b.level = b.type then [.pressed] else [.pressed, .released]
  else [eventOf b]

/-- A press of the button has been sent, and its release has not. -/
def owes (b : Button) : Bool := decide (b.level = b.type) && !b.longTimer && !b.shifting

theorem handled_kinds (buttons : ℕ → Button) (i : ℕ) (b : Button) :
    (handled buttons i b).map Obs.event = kinds b ∧ ∀ o ∈ handled buttons i b, o.button = i := by
  rw [handled, kinds, eventOf]
  cases b.longTimer <;> cases b.shifting <;> by_cases h : b.level = b.type <;> simp [h]

/-- The copy of a button whose level has changed, or whose press becomes a long one, goes on from
what was sent before. -/
theorem watch_kinds {b : Button} {level : ℤ} (hheld : b.longTimer = true → b.level = b.type)
    (hchanged : (level = b.type ↔ b.level ≠ b.type) ∨ (b.longTimer = true ∧ level = b.type)) :
    watch alternate (owes b) (kinds { b with level := level }) =
      some (owes { b with level := level, longTimer := false }) := by
  simp only [owes, kinds, eventOf]
  rcases hlong : b.longTimer <;> rcases hshift : b.shifting <;>
    by_cases hold : b.level = b.type <;> by_cases hnew : level = b.type <;>
    simp_all [alternate]

/-! ### Calls of the handler -/

section Handler

variable {s : State} {i j k : ℕ} {level : ℤ} {down : ℕ → Bool}

theorem sampled_self (hself : (s.buttons i).shifter ≠ some i) (level : ℤ) :
    sampled s.buttons i level i = { s.buttons i with level := level } := by
  rcases hj : (s.buttons i).shifter with - | j
  · rw [sampled, hj, shift, Function.update_self]
  · have hne : i ≠ j := by
      rintro rfl
      exact hself hj
    rw [sampled, hj, shift]
    split
    · rw [Function.update_of_ne hne, Function.update_self]
    · exact Function.update_self _ _ _

/-- Of the other buttons, a shifter that is pressed begins to shift. -/
theorem sampled_ne (hk : k ≠ i) (level : ℤ) :
    sampled s.buttons i level k =
      if (s.buttons i).shifter = some k ∧ (s.buttons k).level = (s.buttons k).type then
        { s.buttons k with shifting := true }
      else s.buttons k := by
  rcases hj : (s.buttons i).shifter with - | j
  · have hno : ¬ ((none : Option ℕ) = some k ∧ (s.buttons k).level = (s.buttons k).type) :=
      fun h => nomatch h.1
    rw [sampled, hj, shift, if_neg hno, Function.update_of_ne hk]
  · rw [sampled, hj, shift]
    by_cases hkj : k = j
    · subst hkj
      simp only [true_and, Function.update_of_ne hk, eq_comm (a := (s.buttons k).type)]
      split
      · exact Function.update_self _ _ _
      · exact Function.update_of_ne hk _ _
    · have hno : ¬ (some j = some k ∧ (s.buttons k).level = (s.buttons k).type) :=
        fun h => hkj (Option.some.inj h.1).symm
      rw [if_neg hno]
      split
      · rw [Function.update_of_ne hkj, Function.update_of_ne hk]
      · exact Function.update_of_ne hk _ _

/-- The events that the queue has for a button. -/
def pending (queue : List (ℕ × Button)) (i : ℕ) : List ButtonEvent :=
  (queue.filter fun c => c.1 = i).flatMap fun c => kinds c.2

theorem pending_append_self (queue : List (ℕ × Button)) (i : ℕ) (b : Button) :
    pending (queue ++ [(i, b)]) i = pending queue i ++ kinds b := by
  simp [pending]

theorem pending_append_ne (queue : List (ℕ × Button)) (hk : k ≠ i) (b : Button) :
    pending (queue ++ [(i, b)]) k = pending queue k := by
  simp [pending, Ne.symm hk]

/-- The invariant: with what is in the queue, a button is down for its client where a press has
been sent. -/
structure Even (s : State) (down : ℕ → Bool) : Prop where
  held : ∀ i, (s.buttons i).longTimer = true → (s.buttons i).level = (s.buttons i).type
  apart : ∀ i, (s.buttons i).shifter ≠ some i
  even : ∀ i, watch alternate (down i) (pending s.queue i) = some (owes (s.buttons i))

/-- What the invariant does not mind: the timer of a button. -/
structure Same (b b' : Button) : Prop where
  shifter : b'.shifter = b.shifter
  longTimer : b'.longTimer = b.longTimer
  shifting : b'.shifting = b.shifting
  type : b'.type = b.type
  level : b'.level = b.level

theorem Same.owes {b b' : Button} (h : Same b b') : owes b' = owes b := by
  rw [Buttons.owes, Buttons.owes, h.longTimer, h.shifting, h.type, h.level]

theorem Even.same (h : Even s down) {s' : State} (hqueue : s'.queue = s.queue)
    (hsame : ∀ k, Same (s.buttons k) (s'.buttons k)) : Even s' down where
  held k hk := by
    rw [(hsame k).level, (hsame k).type]
    exact h.held k ((hsame k).longTimer ▸ hk)
  apart k := by
    rw [(hsame k).shifter]
    exact h.apart k
  even k := by
    rw [hqueue, (hsame k).owes]
    exact h.even k

theorem Taken.same {buttons buttons' : ℕ → Button} (h : Taken buttons i level)
    (hsame : ∀ k, Same (buttons k) (buttons' k)) : Taken buttons' i level where
  changed := by
    rw [(hsame i).type, (hsame i).level, (hsame i).longTimer]
    exact h.changed
  shifter k := by
    rw [(hsame i).shifter, (hsame k).level, (hsame k).type, (hsame k).shifting,
      (hsame k).longTimer]
    exact h.shifter k

theorem same_update {buttons : ℕ → Button} {b : Button} (h : Same (buttons i) b) (k : ℕ) :
    Same (buttons k) (Function.update buttons i b k) := by
  by_cases hk : k = i
  · subst hk
    rw [Function.update_self]
    exact h
  · rw [Function.update_of_ne hk]
    exact ⟨rfl, rfl, rfl, rfl, rfl⟩

/-- A button that the handler is not called for owes what it did. -/
theorem sampled_other (h : Even s down) (htaken : Taken s.buttons i level) (hk : k ≠ i) :
    owes (sampled s.buttons i level k) = owes (s.buttons k) ∧
      (sampled s.buttons i level k).shifter = (s.buttons k).shifter ∧
      ((sampled s.buttons i level k).longTimer = true →
        (sampled s.buttons i level k).level = (sampled s.buttons i level k).type) := by
  rw [sampled_ne hk]
  split
  case isTrue hshift =>
    refine ⟨?_, rfl, fun _ => hshift.2⟩
    -- its press is not sent yet
    rcases htaken.shifter k hshift.1 hshift.2 with hs | hl
    · simp [owes, hs]
    · simp [owes, hl]
  case isFalse => exact ⟨rfl, rfl, h.held k⟩

/-- The button that the handler is called for, and what the queue has of it, may change together. -/
theorem even_sampled (h : Even s down) (htaken : Taken s.buttons i level) {b : Button}
    {queue : List (ℕ × Button)} (hheld : b.longTimer = true → b.level = b.type)
    (hshifter : b.shifter = (s.buttons i).shifter)
    (hqueue : ∀ k, k ≠ i → pending queue k = pending s.queue k)
    (heven : watch alternate (down i) (pending queue i) = some (owes b)) :
    Even { s with buttons := Function.update (sampled s.buttons i level) i b, queue := queue }
      down := by
  have hother : ∀ k, k ≠ i → _ := fun k hk => sampled_other h htaken hk
  constructor
  all_goals
    intro k
    simp only
    by_cases hk : k = i
  · subst hk
    rw [Function.update_self]
    exact hheld
  · rw [Function.update_of_ne hk]
    exact (hother k hk).2.2
  · subst hk
    rw [Function.update_self, hshifter]
    exact h.apart k
  · rw [Function.update_of_ne hk, (hother k hk).2.1]
    exact h.apart k
  · subst hk
    rw [Function.update_self]
    exact heven
  · rw [Function.update_of_ne hk, hqueue k hk, (hother k hk).1]
    exact h.even k

/-- The step lemma for `buttons_handler`. -/
theorem even_buttonsHandler (h : Even s down) (htaken : Taken s.buttons i level) :
    Even (buttonsHandler s i level) down := by
  simp only [buttonsHandler, sampled_self (h.apart i) level]
  split
  case isTrue hlong =>
    -- the press is held back: nothing was owed, and nothing is
    obtain ⟨-, hfalse, hlevel⟩ := hlong
    have hup : (s.buttons i).level ≠ (s.buttons i).type := by
      rcases htaken.changed with hiff | ⟨htrue, -⟩
      · exact hiff.mp hlevel
      · rw [hfalse] at htrue
        cases htrue
    refine even_sampled h htaken (fun _ => hlevel) rfl (fun _ _ => rfl) ?_
    rw [h.even i]
    simp [owes, hup]
  case isFalse =>
    refine even_sampled h htaken (fun hfalse => nomatch hfalse) rfl
      (fun k hk => pending_append_ne _ hk _) ?_
    rw [pending_append_self, watch_append, h.even i, Option.bind_some]
    exact watch_kinds (h.held i) htaken.changed

theorem even_timer (h : Even s down)
    (htaken : (s.buttons i).running = true → Taken s.buttons i level) :
    Even (buttonsTimerHandler s i level) down := by
  rw [buttonsTimerHandler]
  split
  case isTrue hrunning =>
    have hsame : ∀ k, Same (s.buttons k)
        (Function.update s.buttons i { s.buttons i with running := false } k) :=
      same_update ⟨rfl, rfl, rfl, rfl, rfl⟩
    have hstopped : Even { s with
        buttons := Function.update s.buttons i { s.buttons i with running := false } } down :=
      h.same rfl hsame
    exact even_buttonsHandler hstopped ((htaken hrunning).same hsame)
  case isFalse => exact h

theorem even_polling (h : Even s down)
    (htaken : ∀ p ∈ s.polled[k]?, ∀ i ∈ p.button, level ≠ p.level → Taken s.buttons i level) :
    Even (buttonsPolling s k level) down := by
  rw [buttonsPolling]
  split
  case h_1 gpio old i hentry =>
    split
    case isTrue hne =>
      have hpolled : Even { s with polled := s.polled.set k ⟨gpio, level, some i⟩ } down :=
        h.same rfl fun _ => ⟨rfl, rfl, rfl, rfl, rfl⟩
      exact even_buttonsHandler hpolled (htaken _ hentry i rfl hne)
    case isFalse => exact h
  case h_2 => exact h

end Handler

/-! ### The task -/

section Task

variable {s : State} {down : ℕ → Bool}

/-- The calls for one button go on with that button. -/
theorem watch_observe {i : ℕ} {d : Bool} {log : List Obs} (hall : ∀ o ∈ log, o.button = i)
    (h : watch alternate (down i) (log.map Obs.event) = some d) :
    watch observe down log = some (Function.update down i d) := by
  induction log generalizing down with
  | nil =>
      obtain rfl := Option.some.inj h
      rw [watch_nil, Function.update_eq_self]
  | cons o log ih =>
      rw [List.map_cons, watch_cons] at h
      obtain ⟨d', hd', hrest⟩ := Option.bind_eq_some_iff.mp h
      have ho := hall o List.mem_cons_self
      have hnext : observe down o = some (Function.update down i d') := by
        rw [observe, ho, hd']
        rfl
      rw [watch_cons, hnext, Option.bind_some,
        ih (fun o' ho' => hall o' (List.mem_cons_of_mem o ho')) (by rwa [Function.update_self]),
        Function.update_idem]

/-- The step lemma for a copy. -/
theorem even_task (h : Even s down) :
    ∃ down', watch observe down (buttonsTask s).2 = some down' ∧ Even (buttonsTask s).1 down' := by
  rw [buttonsTask]
  split
  case h_1 i b queue _ hqueue =>
    obtain ⟨hkinds, hbutton⟩ := handled_kinds s.buttons i b
    have hpending : pending s.queue i = kinds b ++ pending queue i := by
      rw [hqueue]
      simp [pending]
    have heven := h.even i
    rw [hpending, watch_append] at heven
    obtain ⟨d, hd, hrest⟩ := Option.bind_eq_some_iff.mp heven
    refine ⟨Function.update down i d, watch_observe hbutton (hkinds ▸ hd), h.held, h.apart,
      fun k => ?_⟩
    by_cases hk : k = i
    · subst hk
      rw [Function.update_self]
      exact hrest
    · have hother : pending s.queue k = pending queue k := by
        rw [hqueue]
        simp [pending, Ne.symm hk]
      rw [Function.update_of_ne hk, ← hother]
      exact h.even k
  case h_2 => exact ⟨down, rfl, h⟩

/-- The step lemma for the last line of the task. -/
theorem even_taskEnd (h : Even s down) (hsound : Sound s .taskEnd) :
    Even (buttonsTaskEnd s) down := by
  rw [buttonsTaskEnd]
  split
  case h_1 => exact h
  case h_2 i b hhand =>
    split
    case isFalse => exact ⟨h.held, h.apart, h.even⟩
    case isTrue hback =>
      have howes : owes { s.buttons i with shifting := false } = owes (s.buttons i) := by
        rcases hsound (i, b) hhand hback with hs | hup | hl
        · dsimp only at hs
          simp [owes, hs]
        · dsimp only at hup
          simp [owes, hup]
        · dsimp only at hl
          simp [owes, hl]
      constructor
      all_goals
        intro k
        simp only
        by_cases hk : k = i
      · subst hk
        rw [Function.update_self]
        exact h.held k
      · rw [Function.update_of_ne hk]
        exact h.held k
      · subst hk
        rw [Function.update_self]
        exact h.apart k
      · rw [Function.update_of_ne hk]
        exact h.apart k
      · subst hk
        rw [Function.update_self, howes]
        exact h.even k
      · rw [Function.update_of_ne hk]
        exact h.even k

end Task

/-! ### Runs -/

/-- One step. -/
theorem step_even (s : State) (down : ℕ → Bool) (e : Event) (h : Even s down) (hsound : Sound s e) :
    ∃ down', watch observe down (machine.step s e).2 = some down' ∧
      Even (machine.step s e).1 down' := by
  cases e with
  | edge i => exact ⟨down, rfl, h.same rfl (same_update ⟨rfl, rfl, rfl, rfl, rfl⟩)⟩
  | expired i level => exact ⟨down, rfl, even_timer h hsound⟩
  | poll k level => exact ⟨down, rfl, even_polling h hsound⟩
  | task => exact even_task h
  | taskEnd => exact ⟨down, rfl, even_taskEnd h hsound⟩

/-- What the buttons are when they are created: released, and nothing is in the queue. -/
structure Idle (s : State) : Prop where
  queue : s.queue = []
  level : ∀ i, (s.buttons i).level ≠ (s.buttons i).type
  longTimer : ∀ i, (s.buttons i).longTimer = false
  apart : ∀ i, (s.buttons i).shifter ≠ some i

theorem idle_create {s : State} {c : Created} (h : Idle s) (hc : c.level ≠ c.type) :
    Idle (buttonCreate s c) := by
  rw [buttonCreate]
  split
  case isFalse => exact h
  case isTrue =>
    refine ⟨h.queue, fun i => ?_, fun i => ?_, fun i => ?_⟩
    all_goals
      simp only
      split
    · exact h.level i
    · split
      · exact hc
      · exact h.level i
    · exact h.longTimer i
    · split
      · rfl
      · exact h.longTimer i
    · rename_i hlt
      rw [besides]
      simp only
      split
      · exact fun hn => Nat.ne_of_lt hlt (Option.some.inj hn).symm
      · exact h.apart i
    · split
      · rename_i hi
        intro hn
        have hmem := List.mem_range.mp (List.mem_reverse.mp (List.mem_of_find?_eq_some hn))
        omega
      · exact h.apart i

theorem idle_start {created : List Created} (h : ∀ c ∈ created, c.level ≠ c.type) :
    Idle (start created) := by
  have hblank : Idle ⟨0, fun _ => blank, [⟨36, -1, none⟩, ⟨39, -1, none⟩], [], none⟩ :=
    ⟨rfl, fun _ => by show (0 : ℤ) ≠ 1; decide, fun _ => rfl, fun _ hn => nomatch hn⟩
  rw [start]
  generalize State.mk 0 _ _ _ _ = s at hblank
  induction created generalizing s with
  | nil => exact hblank
  | cons c created ih =>
      exact ih (fun c' hc' => h c' (List.mem_cons_of_mem c hc')) _
        (idle_create hblank (h c List.mem_cons_self))

/-- The events of each button are presses and releases in turn; and a button that is released,
with nothing in the queue of it, is not down for its client. -/
theorem events_alternate {created : List Created} (hcreated : ∀ c ∈ created, c.level ≠ c.type)
    {es : List Event} (h : machine.Along Sound (start created) es) :
    ∃ down, watch observe (fun _ => false) (machine.run (start created) es).2 = some down ∧
      ∀ i, (∀ c ∈ (machine.run (start created) es).1.queue, c.1 ≠ i) →
        ((machine.run (start created) es).1.buttons i).level ≠
          ((machine.run (start created) es).1.buttons i).type → down i = false := by
  have hidle := idle_start hcreated
  have heven : Even (start created) fun _ => false := by
    refine ⟨fun i hi => ?_, hidle.apart, fun i => ?_⟩
    · rw [hidle.longTimer i] at hi
      cases hi
    · rw [hidle.queue]
      simp [pending, owes, hidle.level i]
  obtain ⟨down, hwatch, hend⟩ := machine.run_watched step_even heven h
  refine ⟨down, hwatch, fun i hqueue hup => ?_⟩
  have hnone : pending (machine.run (start created) es).1.queue i = [] := by
    rw [pending, List.filter_eq_nil_iff.mpr fun c hc => by simpa using hqueue c hc]
    rfl
  have howes := hend.even i
  rw [hnone, watch_nil] at howes
  rw [Option.some.inj howes]
  simp [owes, hup]

/-- A button at GPIO 4, with a long press, and the one that shifts it. -/
def pair : List Created := [⟨5, 0, 0, 0, -1, 1, 1⟩, ⟨4, 0, 0, 500, 5, 1, 1⟩]

/-- A long press, with the other button held. -/
def shiftedPress : List Event :=
  [.edge 0, .expired 0 0, .edge 1, .expired 1 0, .expired 1 0, .task, .taskEnd, .edge 1,
    .expired 1 1, .task, .taskEnd, .edge 0, .expired 0 1, .task, .taskEnd]

theorem shiftedPress_alternates :
    ∃ down, watch observe (fun _ => false) (machine.run (start pair) shiftedPress).2 = some down ∧
      ∀ i, (∀ c ∈ (machine.run (start pair) shiftedPress).1.queue, c.1 ≠ i) →
        ((machine.run (start pair) shiftedPress).1.buttons i).level ≠
          ((machine.run (start pair) shiftedPress).1.buttons i).type → down i = false :=
  events_alternate (by decide) (by decide)

/-- The two edges of a glitch, while a button is held: the level is the same when it is read
again, and a second press is sent. -/
theorem glitch_presses_twice :
    ¬ ∀ (created : List Created) (es : List Event), (∀ c ∈ created, c.level ≠ c.type) →
      ∃ down, watch observe (fun _ => false) (machine.run (start created) es).2 = some down := by
  intro h
  obtain ⟨down, hdown⟩ := h [⟨4, 0, 0, 0, -1, 1, 1⟩]
    [.edge 0, .expired 0 0, .task, .taskEnd, .edge 0, .edge 0, .expired 0 0, .task] (by decide)
  have hnone : watch observe (fun _ => false) (machine.run (start [⟨4, 0, 0, 0, -1, 1, 1⟩])
      [.edge 0, .expired 0 0, .task, .taskEnd, .edge 0, .edge 0, .expired 0 0, .task]).2 =
      none := by rfl
  rw [hnone] at hdown
  cases hdown

end Buttons

end SqueezeliteMuse
