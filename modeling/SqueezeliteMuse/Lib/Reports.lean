/-
SqueezeliteMuse/Lib/Reports.lean

A poller that reports incidents.

Incidents happen, one at a time, and are left for a poller to find.  In each of its turns the
poller looks once, takes what it finds, and reports it before the turn is over.  So an incident
is reported once, and no later than in the turn after the one in which it happens: `onTime` is
the observer that accepts just that, and `Polled` links it with a poller that is somewhere in a
turn.

The observations of a machine are read as signals (`Signal`), so that what else is seen of the
machine does not matter.  Nothing here is about a particular program.
-/
import SqueezeliteMuse.Lib.Runs

namespace Reports

variable {ω κ : Type*}

/-- What an observation is, for incidents of the kinds `κ`. -/
inductive Signal (κ : Type*)
  | incident (k : κ)
  | report (k : κ)
  /-- a turn of the poller is over -/
  | turn
  | other

/-- The incident that is to be reported, and whether a turn has ended since it happened. -/
abbrev Due (κ : Type*) := Option (κ × Bool)

/-- Incidents are reported once each, one before the next, and by the end of the next turn;
nothing else is reported. -/
def onTime [DecidableEq κ] (f : ω → Signal κ) (d : Due κ) (o : ω) : Option (Due κ) :=
  match f o, d with
  | .incident k, none => some (some (k, false))
  | .report k, some (k', _) => if k = k' then some none else none
  | .turn, none => some none
  | .turn, some (k, false) => some (some (k, true))
  | .other, d => some d
  | _, _ => none

/-- A poller that is somewhere in a turn.  `waiting` is what is left for it to find; `look` is
`none` before it has looked, and then what it has found. -/
inductive Polled (waiting : Option κ) : Option (Option κ) → Due κ → Prop
  | before {d : Due κ} : d.map Prod.fst = waiting → Polled waiting none d
  | found {k : κ} {late : Bool} : waiting = none → Polled waiting (some (some k)) (some (k, late))
  | nothing : Polled waiting (some none) (waiting.map fun k => (k, false))

variable {f : ω → Signal κ} {waiting : Option κ} {look : Option (Option κ)} {d : Due κ}

/-- The poller looks, and takes what there is. -/
theorem Polled.looks (h : Polled waiting none d) : Polled none (some waiting) d := by
  cases h with
  | before hd =>
      rcases d with - | ⟨k, late⟩
      · obtain rfl : none = waiting := hd
        exact (.nothing : Polled (none : Option κ) (some none) none)
      · obtain rfl : some k = waiting := hd
        exact .found rfl

variable [DecidableEq κ]

/-- What is not about incidents. -/
theorem watch_other {log : List ω} (h : ∀ o ∈ log, f o = .other) (d : Due κ) :
    Runs.watch (onTime f) d log = some d := by
  refine Runs.watch_ignored (fun o ho d => ?_) d
  unfold onTime
  rw [h o ho]

/-- An incident, while nothing that was found is still to be reported. -/
theorem Polled.incident {o : ω} {k : κ} (h : Polled none look d) (hkind : f o = .incident k)
    (hlook : ∀ k', look ≠ some (some k')) :
    ∃ d', onTime f d o = some d' ∧ Polled (some k) look d' := by
  cases h with
  | before hd =>
      obtain rfl : d = none := Option.map_eq_none_iff.mp hd
      refine ⟨some (k, false), ?_, .before rfl⟩
      unfold onTime
      rw [hkind]
  | found _ => exact absurd rfl (hlook _)
  | nothing =>
      refine ⟨some (k, false), ?_, .nothing⟩
      unfold onTime
      rw [hkind]
      rfl

/-- What was found is reported. -/
theorem Polled.report {o : ω} {k : κ} (h : Polled waiting (some (some k)) d)
    (hkind : f o = .report k) :
    onTime f d o = some none ∧ Polled waiting (some none) none := by
  cases h with
  | found hw =>
      subst hw
      refine ⟨?_, .nothing⟩
      unfold onTime
      rw [hkind]
      exact if_pos rfl

/-- The turn is over. -/
theorem Polled.turn {o : ω} (h : Polled waiting (some none) d) (hkind : f o = .turn) :
    ∃ d', onTime f d o = some d' ∧ Polled waiting none d' := by
  cases h with
  | nothing =>
      rcases waiting with - | k
      · refine ⟨none, ?_, .before rfl⟩
        unfold onTime
        rw [hkind]
        rfl
      · refine ⟨some (k, true), ?_, .before rfl⟩
        unfold onTime
        rw [hkind]
        rfl

end Reports
