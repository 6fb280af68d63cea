/-
SqueezeliteMuse/GpioEvents.lean

The GPIO expanders of gpio_exp.c at run time: the interrupt handler, the service task
and the callers that read levels, set directions and queue writes, in any order.

A read of the port takes the interrupt back for all pins of the expander.  What has
changed is either kept in `pending`, where the service task looks when it has been
notified of an interrupt, or handed to the callers.  A caller of `gpio_exp_get_level`
reads, stores and returns in three steps; it has the mutex between the first two, but
the service task waits for that 50 ticks only.

An observer keeps the account: which changes that were seen have come neither to a
handler nor to a caller, and which writes were accepted and not made.

What a run has to keep is `Kept`, and where the service task must not come to is
`Stuck`; the steps that keep it so are `Careful`.
-/
import Mathlib.Logic.Function.Basic
import SqueezeliteMuse.Lib.Runs
import SqueezeliteMuse.GpioExp

namespace SqueezeliteMuse

namespace Gpio

/-! ### Data -/

/-- `queue_request_t`, with the expander by its place; `level` is whether it is not 0. -/
structure Write where
  expander : ℕ
  gpio : ℤ
  level : Bool
  deriving DecidableEq

/-- What the service task is notified of: `GPIO_EXP_INTR` or `GPIO_EXP_WRITE`. -/
inductive Notif
  | intr
  | write
  deriving DecidableEq

/-- Where the service task is: in `ulTaskNotifyTake`, before an expander of its loop, before
`xQueueReceive`, or about to make a write. -/
inductive Task
  | waiting
  | serving (i : ℕ)
  | draining
  | writing (w : Write)
  deriving DecidableEq

/-- What a caller of `gpio_exp_get_level` has read and not stored. -/
structure Reading where
  gpio : ℤ
  value : BitVec 32
  now : BitVec 32

/-- The levels at the pins of an expander, those at its last read, and the pins it drives. -/
structure Device where
  port : BitVec 32
  noted : BitVec 32
  outs : BitVec 32

/-- The expanders and who is busy with them.  A caller that is in `held` has the mutex of the
expander; those in `leaving` have given it back and are about to return the level of a pin.
`sending` is how many have queued a write and not notified the service task. -/
structure Sys where
  exps : List Expander
  dev : ℕ → Device
  held : ℕ → Option Reading
  leaving : List (ℕ × ℕ)
  enabled : ℤ → Bool
  notif : Option Notif
  task : Task
  queue : List Write
  sending : ℕ

/-- What is seen of the driver; expanders are named by their places, and pins from 0 on. -/
inductive Obs
  /-- What is read of the port, and which pins are inputs. -/
  | read (i : ℕ) (value inputs : BitVec 32)
  /-- A handler is called, or its timer started. -/
  | handled (i : ℕ) (a : Action)
  /-- `gpio_exp_get_level` returns. -/
  | returned (i pin : ℕ) (level : Bool)
  /-- A write is in the queue. -/
  | accepted (w : Write)
  /-- The write has been made. -/
  | applied (w : Write)

/-- What happens. -/
inductive Event
  /-- Levels at the pins that the expander does not drive -/
  | change (i : ℕ) (levels : BitVec 32)
  /-- An interrupt, which may have come from elsewhere -/
  | interrupt (intr : ℤ)
  | getLevel (gpio age : ℤ) (expander : Option ℕ) (now : BitVec 32)
  /-- The mutex cannot be had. -/
  | getLevelLate (gpio : ℤ) (expander : Option ℕ)
  | store (i : ℕ)
  | leave (i pin : ℕ)
  /-- `driven` is what the expander drives new outputs with. -/
  | direction (gpio : ℤ) (mode : Mode) (expander : Option ℕ) (now driven : BitVec 32)
  | setLevel (gpio : ℤ) (level : Bool) (expander : Option ℕ)
  | notify
  /-- The service task goes on; `posted` is whether a timer takes its command. -/
  | service (now : BitVec 32) (posted : ℤ → Bool)

/-! ### The code -/

/-- The bits of `a` in a mask, and those of `b` elsewhere -/
def blend (mask a b : BitVec 32) : BitVec 32 := (a &&& mask) ||| (b &&& ~~~mask)

/-- The bit of a pin -/
def pin (gpio : ℤ) : ℕ := (gpio % 32).toNat

/-- `pdMS_TO_TICKS`, with 100 ticks a second -/
def pdMS_TO_TICKS (ms : BitVec 32) : BitVec 32 := ms * 100 / 1000

/-- `model->read`: the PCA85xx gives its inputs only.  It is the one without `set_direction`. -/
def Expander.read (e : Expander) (port : BitVec 32) : BitVec 32 :=
  if e.settable then port else blend e.rMask port e.shadow

/-- `model->write`: the expander drives its outputs as the shadow register has them.  With the
PCA85xx it is the write that makes them outputs. -/
def Device.write (d : Device) (e : Expander) : Device :=
  let outs := if e.settable then d.outs else e.wMask &&& ~~~e.rMask
  { d with outs := outs, port := blend outs e.shadow d.port }

/-- `model->set_direction`: the expander drives its outputs, new ones with `driven`. -/
def Device.direct (d : Device) (outs driven : BitVec 32) : Device :=
  { d with outs := outs, port := blend (outs &&& ~~~d.outs) driven d.port }

/-- The expander is told its masks, if it can be. -/
def Device.tell (d : Device) (told : Option (BitVec 32 × BitVec 32)) (driven : BitVec 32) :
    Device :=
  match told with
  | some masks => d.direct masks.2 driven
  | none => d

/-- The expander is read. -/
def Device.note (d : Device) : Device := { d with noted := d.port }

/-- Whether an action is done: a timer may not take its command. -/
def Action.done (posted : ℤ → Bool) : Action → Bool
  | .debounce gpio => posted gpio
  | .call _ => true

/-- Whether what is known of an expander is too old for a caller. -/
def Expander.stale (e : Expander) (age : ℤ) (now : BitVec 32) : Bool :=
  decide (0 ≤ age) && decide (pdMS_TO_TICKS (BitVec.ofInt 32 age) ≤ now - e.age)

/-- A caller of `gpio_exp_get_level` stores what it has read. -/
def Expander.store (e : Expander) (r : Reading) : Expander :=
  { e with
    pending := e.pending ||| ((e.shadow ^^^ r.value) &&& e.rMask)
    shadow := r.value
    age := r.now }

/-- A caller of `gpio_exp_get_level` clears the pending bit of its pin. -/
def Expander.clear (e : Expander) (gpio : ℤ) : Expander :=
  { e with pending := e.pending &&& ~~~bit gpio }

/-- `gpio_exp_set_level`, with `direct`: the expander, and whether it is written. -/
def Expander.setLevel (e : Expander) (gpio : ℤ) (level : Bool) : Expander × Bool :=
  let level := if level then bit gpio else 0
  let mask := bit gpio &&& e.shadow
  if mask ^^^ level ≠ 0 then
    ({ e with shadow := (e.shadow &&& ~~~(mask ||| level)) ||| level }, true)
  else (e, false)

/-- The expander of a call with the pin, unless the call is for a pin of the chip or for none. -/
def Sys.found (s : Sys) (expander : Option ℕ) (gpio : ℤ) : Option (ℕ × ℤ × Expander) :=
  if gpio < GPIO_NUM_MAX ∧ expander = none then none
  else (findExpander s.exps expander gpio).bind fun x => s.exps[x.1]?.map fun e => (x.1, x.2, e)

/-- `intr_isr_handler` -/
def Sys.intrIsrHandler (s : Sys) (intr : ℤ) : Sys :=
  { s with
    enabled := Function.update s.enabled intr false
    exps := s.exps.map fun e => if e.intr = intr then { e with intrPending := true } else e
    notif := some .intr }

/-- `gpio_exp_get_level`, up to the read if there is one, and else to the return.  A caller that
does not get the mutex waits. -/
def Sys.getLevel (s : Sys) (gpio age : ℤ) (expander : Option ℕ) (now : BitVec 32) :
    Sys × List Obs :=
  match s.found expander gpio with
  | none => (s, [])
  | some (i, gpio, e) =>
      if (s.held i).isSome then (s, [])
      else if e.stale age now then
        let value := e.read (s.dev i).port
        ({ s with
            dev := Function.update s.dev i (s.dev i).note
            held := Function.update s.held i (some ⟨gpio, value, now⟩) },
          [.read i value e.rMask])
      else
        ({ s with
            exps := s.exps.set i (e.clear gpio)
            leaving := (i, pin gpio) :: s.leaving }, [])

/-- `gpio_exp_get_level` without the mutex -/
def Sys.getLevelLate (s : Sys) (gpio : ℤ) (expander : Option ℕ) : Sys :=
  match s.found expander gpio with
  | none => s
  | some (i, gpio, _) => { s with leaving := (i, pin gpio) :: s.leaving }

/-- `gpio_exp_get_level`, from the read to the return -/
def Sys.store (s : Sys) (i : ℕ) : Sys :=
  match s.held i, s.exps[i]? with
  | some r, some e =>
      { s with
        exps := s.exps.set i ((e.store r).clear r.gpio)
        held := Function.update s.held i none
        leaving := (i, pin r.gpio) :: s.leaving }
  | _, _ => s

/-- A caller of `gpio_exp_get_level` returns what the shadow register has by now. -/
def Sys.leave (s : Sys) (i pin : ℕ) : Sys × List Obs :=
  match s.exps[i]? with
  | none => (s, [])
  | some e =>
      if (i, pin) ∈ s.leaving then
        ({ s with leaving := s.leaving.erase (i, pin) },
          [.returned i pin (e.shadow.getLsbD pin)])
      else (s, [])

/-- `gpio_exp_set_direction` -/
def Sys.direction (s : Sys) (gpio : ℤ) (mode : Mode) (expander : Option ℕ)
    (now driven : BitVec 32) : Sys × List Obs :=
  match s.found expander gpio with
  | none => (s, [])
  | some (i, pin, e) =>
      if (s.held i).isSome then (s, [])
      else
        let value := { e with rMask := e.rMask ||| bit pin }.read (s.dev i).port
        let (_, exps, told) := setDirection s.exps ⟨gpio, mode, expander, value, now⟩
        let d := if mode = .input then (s.dev i).note else s.dev i
        ({ s with exps := exps, dev := Function.update s.dev i (d.tell told driven) },
          if mode = .input then [.read i value e.rMask] else [])

/-- `gpio_exp_set_level` without `direct`, up to the notification -/
def Sys.setLevel (s : Sys) (gpio : ℤ) (level : Bool) (expander : Option ℕ) : Sys × List Obs :=
  match s.found expander gpio with
  | none => (s, [])
  | some (i, gpio, e) =>
      if e.wMask &&& bit gpio = 0 then (s, [])
      else if 4 ≤ s.queue.length then (s, [])
      else
        ({ s with queue := s.queue ++ [⟨i, gpio, level⟩], sending := s.sending + 1 },
          [.accepted ⟨i, gpio, level⟩])

/-- The service task's turn for an expander of its loop -/
def Sys.serve (s : Sys) (i : ℕ) (now : BitVec 32) (posted : ℤ → Bool) : Sys × List Obs :=
  match s.exps[i]? with
  | none => ({ s with task := .draining }, [])
  | some e =>
      if e.intr < 0 ∨ e.intrPending = false then ({ s with task := .serving (i + 1) }, [])
      else
        let value := e.read (s.dev i).port
        let actions := ((e.serve value now).2.getD []).filter (Action.done posted)
        ({ s with
            exps := s.exps.set i (e.serve value now).1
            dev := Function.update s.dev i (s.dev i).note
            enabled := Function.update s.enabled e.intr true
            task := .serving (i + 1) },
          .read i value e.rMask :: actions.map (.handled i))

/-- The service task makes a write, with `gpio_exp_set_level`. -/
def Sys.apply (s : Sys) (w : Write) : Sys × List Obs :=
  match s.found (some w.expander) w.gpio with
  | none => ({ s with task := .draining }, [])
  | some (i, gpio, e) =>
      if e.wMask &&& bit gpio = 0 then ({ s with task := .draining }, [])
      else if (s.held i).isSome then (s, [])
      else
        let (e, written) := e.setLevel gpio w.level
        ({ s with
            exps := s.exps.set i e
            dev := if written then Function.update s.dev i ((s.dev i).write e) else s.dev
            task := .draining },
          [.applied ⟨i, gpio, w.level⟩])

/-- `service_handler` goes on. -/
def Sys.serviceHandler (s : Sys) (now : BitVec 32) (posted : ℤ → Bool) : Sys × List Obs :=
  match s.task with
  | .waiting =>
      match s.notif with
      | none => (s, [])
      | some .intr => ({ s with notif := none, task := .serving 0 }, [])
      | some .write => ({ s with notif := none, task := .draining }, [])
  | .serving i => s.serve i now posted
  | .draining =>
      match s.queue with
      | [] => ({ s with task := .waiting }, [])
      | w :: queue => ({ s with queue := queue, task := .writing w }, [])
  | .writing w => s.apply w

/-- A step of the driver or of what is around it -/
def Sys.step (s : Sys) : Event → Sys × List Obs
  | .change i levels =>
      let d := s.dev i
      ({ s with dev := Function.update s.dev i { d with port := blend d.outs d.port levels } }, [])
  | .interrupt intr =>
      if 0 ≤ intr ∧ s.enabled intr = true then (s.intrIsrHandler intr, []) else (s, [])
  | .getLevel gpio age expander now => s.getLevel gpio age expander now
  | .getLevelLate gpio expander => (s.getLevelLate gpio expander, [])
  | .store i => (s.store i, [])
  | .leave i pin => s.leave i pin
  | .direction gpio mode expander now driven => s.direction gpio mode expander now driven
  | .setLevel gpio level expander => s.setLevel gpio level expander
  | .notify =>
      -- eSetValueWithoutOverwrite
      if s.sending = 0 then (s, [])
      else ({ s with sending := s.sending - 1, notif := s.notif.or (some .write) }, [])
  | .service now posted => s.serviceHandler now posted

/-- The driver -/
def driver : Runs.Machine Sys Event Obs := ⟨Sys.step⟩

/-- The expanders are as `gpio_exp_create` leaves them, but for handlers that were added. -/
def Created (s : Sys) : Prop :=
  (∀ e ∈ s.exps, e.intrPending = false ∧ e.pending = 0 ∧ e.rMask = 0 ∧ e.wMask = 0) ∧
    (∀ i, (s.dev i).outs = 0 ∧ s.held i = none) ∧
    s.leaving = [] ∧ s.notif = none ∧ s.task = .waiting ∧ s.queue = [] ∧ s.sending = 0

/-! ### The contract -/

/-- What is known of an expander's pins: what was read last, which inputs have changed since they
came to a handler or a caller, and the last write to each. -/
structure Page where
  last : BitVec 32
  owed : ℕ → Bool
  wins : ℕ → Option Bool

/-- A page for each expander, and the writes that were accepted and not made. -/
structure Ledger where
  pages : ℕ → Page
  writes : List Write

/-- The pin for which something is done. -/
def Action.pin : Action → ℤ
  | .debounce gpio => gpio
  | .call gpio => gpio

/-- A read of the port: changes of inputs are owed. -/
def Page.read (p : Page) (value inputs : BitVec 32) : Page :=
  { p with
    last := value
    owed := fun q => p.owed q || ((p.last ^^^ value).getLsbD q && inputs.getLsbD q) }

/-- What is done comes for its pin. -/
def Page.handled (p : Page) (a : Action) : Page :=
  { p with owed := fun q => p.owed q && !decide (a.pin = q) }

/-- A change is consumed if the level is that of the last read. -/
def Page.returned (p : Page) (pin : ℕ) (level : Bool) : Page :=
  { p with owed := fun q => p.owed q && !decide (pin = q ∧ level = p.last.getLsbD q) }

/-- A write wins over those before it. -/
def Page.written (p : Page) (pin : ℕ) (level : Bool) : Page :=
  { p with wins := Function.update p.wins pin (some level) }

/-- The account.  No write is made before those that were accepted before it. -/
def Ledger.next (l : Ledger) : Obs → Option Ledger
  | .read i value inputs =>
      some { l with pages := Function.update l.pages i ((l.pages i).read value inputs) }
  | .handled i a => some { l with pages := Function.update l.pages i ((l.pages i).handled a) }
  | .returned i pin level =>
      some { l with pages := Function.update l.pages i ((l.pages i).returned pin level) }
  | .accepted w => some { l with writes := l.writes ++ [w] }
  | .applied w =>
      match l.writes with
      | [] => none
      | first :: writes =>
          if w = first then
            let page := (l.pages w.expander).written (pin w.gpio) w.level
            some ⟨Function.update l.pages w.expander page, writes⟩
          else none

/-- Nothing was read or written. -/
def Ledger.start : Ledger := ⟨fun _ => ⟨0, fun _ => false, fun _ => none⟩, []⟩

/-- The writes that the driver has. -/
def Sys.owing (s : Sys) : List Write :=
  match s.task with
  | .writing w => w :: s.queue
  | _ => s.queue

/-- What was read of an expander last; a caller may not have stored it. -/
def Expander.known (e : Expander) : Option Reading → BitVec 32
  | some r => r.value
  | none => e.shadow

/-- A change for which there is something to do is pending, or a caller has it, to store or to
return; the last write to a pin shows there; and no accepted write is missing. -/
structure Kept (s : Sys) (l : Ledger) : Prop where
  changes : ∀ i e, s.exps[i]? = some e → ∀ q : ℕ, (l.pages i).owed q = true →
    action e.isr q ≠ none → e.pending.getLsbD q = true ∨ (i, q) ∈ s.leaving ∨
      (e.shadow ^^^ e.known (s.held i)).getLsbD q = true
  levels : ∀ i e, s.exps[i]? = some e → ∀ q b, (l.pages i).wins q = some b →
    (s.dev i).port.getLsbD q = b
  writes : l.writes = s.owing

/-- An input has changed since the read, and the interrupt is enabled. -/
def Sys.Outstanding (s : Sys) : Prop :=
  ∃ x ∈ s.exps.zipIdx, 0 ≤ x.1.intr ∧ s.enabled x.1.intr = true ∧
    ((s.dev x.2).port ^^^ (s.dev x.2).noted) &&& x.1.rMask ≠ 0

/-- The service task waits, nobody notifies it, and there is something to do. -/
def Sys.Stuck (s : Sys) : Prop :=
  s.task = .waiting ∧ s.notif = none ∧ s.sending = 0 ∧ ¬ s.Outstanding ∧
    ((∃ e ∈ s.exps, e.pending ≠ 0) ∨ s.queue ≠ [])

/-! ### Careful steps -/

/-- Every pin of a mask for which there is something to do is hit, with each pin moved up by the
number of those above it, and its timer takes the command. -/
def Met (isr : ℤ → Isr) (posted : ℤ → Bool) (m : BitVec 32) : Prop :=
  ∀ q < 32, m.getLsbD q = true → action isr q ≠ none →
    (∃ p ∈ pins m, p + above m p = q) ∧ ((isr q).timer = true → posted q = true)

/-- A caller stores no change of another pin than its own, or the service task is to come. -/
def Expander.StoresRight (e : Expander) (r : Reading) : Prop :=
  ((e.shadow ^^^ r.value) &&& e.rMask) &&& ~~~bit r.gpio = 0 ∨ e.intrPending = true

/-- A pin does not have the other direction; for a new input, no change is read of an input with
something to do that is not pending. -/
def Expander.DirectsRight (e : Expander) (gpio : ℤ) (mode : Mode) (port : BitVec 32) : Prop :=
  if mode = .input then
    e.wMask &&& bit gpio = 0 ∧
      ∀ q < 32, (e.shadow ^^^ { e with rMask := e.rMask ||| bit gpio }.read port).getLsbD q = true →
        e.rMask.getLsbD q = true → action e.isr q ≠ none → e.pending.getLsbD q = true
  else e.rMask &&& bit gpio = 0

/-- A level is not what the shadow register has, or the pin is an output and has it as well. -/
def Expander.WritesRight (e : Expander) (d : Device) (pin : ℕ) (level : Bool) : Prop :=
  e.shadow.getLsbD pin ≠ level ∨ d.outs.getLsbD pin = true ∧ d.port.getLsbD pin = level

/-- The service task does not come between a caller's read and its stores, and it does what is to be
done for the pins that are pending. -/
def Sys.ServesRight (s : Sys) (i : ℕ) (posted : ℤ → Bool) : Prop :=
  ∀ e ∈ s.exps[i]?, 0 ≤ e.intr → e.intrPending = true →
    (s.held i).isNone = true ∧ Met e.isr posted (e.changes (e.read (s.dev i).port))

/-- The service task's step comes upon no slip. -/
def Sys.ServiceCareful (s : Sys) (posted : ℤ → Bool) : Task → Prop
  | .serving i => s.ServesRight i posted
  | .writing w =>
      ∀ x ∈ s.found (some w.expander) w.gpio, x.2.2.WritesRight (s.dev x.1) (pin x.2.1) w.level
  | .waiting | .draining => True

/-- A step that comes upon no slip.  A queued write is for a pin below the first of its expander: it
is looked up twice. -/
def Sys.Careful (s : Sys) : Event → Prop
  | .store i => ∀ r ∈ s.held i, ∀ e ∈ s.exps[i]?, e.StoresRight r
  | .direction gpio mode expander _ _ =>
      ∀ x ∈ s.found expander gpio, (s.held x.1).isNone = true →
        x.2.2.DirectsRight x.2.1 mode (s.dev x.1).port
  | .setLevel gpio _ expander =>
      ∀ x ∈ s.found expander gpio, (x.2.1 % 2 ^ 32).toNat < x.2.2.first
  | .service _ posted => s.ServiceCareful posted s.task
  | .change .. | .interrupt _ | .getLevel .. | .getLevelLate .. | .leave .. | .notify => True

instance (isr : ℤ → Isr) (posted : ℤ → Bool) (m : BitVec 32) : Decidable (Met isr posted m) :=
  inferInstanceAs (Decidable (∀ q < 32, _ → _ → _ ∧ _))

instance (e : Expander) (r : Reading) : Decidable (e.StoresRight r) :=
  inferInstanceAs (Decidable (_ ∨ _))

instance (e : Expander) (gpio : ℤ) (mode : Mode) (port : BitVec 32) :
    Decidable (e.DirectsRight gpio mode port) :=
  inferInstanceAs (Decidable (ite _ _ _))

instance (e : Expander) (d : Device) (pin : ℕ) (level : Bool) :
    Decidable (e.WritesRight d pin level) :=
  inferInstanceAs (Decidable (_ ∨ _))

instance (s : Sys) (i : ℕ) (posted : ℤ → Bool) : Decidable (s.ServesRight i posted) :=
  inferInstanceAs (Decidable (∀ e ∈ s.exps[i]?, _))

instance (s : Sys) (posted : ℤ → Bool) : ∀ task, Decidable (s.ServiceCareful posted task)
  | .serving i => inferInstanceAs (Decidable (s.ServesRight i posted))
  | .writing w => inferInstanceAs (Decidable (∀ x ∈ s.found (some w.expander) w.gpio, _))
  | .waiting | .draining => inferInstanceAs (Decidable True)

instance (s : Sys) : ∀ ev, Decidable (s.Careful ev)
  | .store i => inferInstanceAs (Decidable (∀ r ∈ s.held i, ∀ e ∈ s.exps[i]?, e.StoresRight r))
  | .direction gpio _ expander _ _ =>
      inferInstanceAs (Decidable (∀ x ∈ s.found expander gpio, _ → _))
  | .setLevel gpio _ expander => inferInstanceAs (Decidable (∀ x ∈ s.found expander gpio, _))
  | .service _ posted => inferInstanceAs (Decidable (s.ServiceCareful posted s.task))
  | .change .. | .interrupt _ | .getLevel .. | .getLevelLate .. | .leave .. | .notify =>
      inferInstanceAs (Decidable True)

end Gpio

end SqueezeliteMuse
