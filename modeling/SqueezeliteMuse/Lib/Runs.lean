/-
SqueezeliteMuse/Lib/Runs.lean

Machines that emit observations, and observers that read them.

A machine takes an event in a state to the next state and to the list of
observations the event made.  `run` plays a list of events and collects the
log; `Along P` says that every step of a run was taken under `P`.  What a
log is required to look like is given by an *observer*: a partial transition
function `δ` on observer states, undefined at an observation the
specification forbids.  `watch δ` plays an observer over a log.

Main result: if one step keeps a relation between machine states and observer
states (and the observer accepts what the step emitted), then every run does
(`Machine.run_watched`).  Two runs on the same events are compared step by step
in the same way (`Machine.run_unwound`).  If every step amounts to something or
takes a measure down, so does every run that is long enough
(`Machine.run_progresses`).  Nothing here is about a particular program.
-/
import Mathlib.Algebra.Order.Ring.Int
import Mathlib.Data.List.Basic
import Mathlib.Tactic.Common

namespace Runs

variable {σ ε ω α : Type*}

/-! ### Observers -/

/-- Play the observer `δ` over a log; `none` once an observation is refused. -/
def watch (δ : α → ω → Option α) : α → List ω → Option α
  | a, [] => some a
  | a, o :: log => (δ a o).bind fun a' => watch δ a' log

@[simp] theorem watch_nil (δ : α → ω → Option α) (a : α) :
    watch δ a [] = some a := rfl

@[simp] theorem watch_cons (δ : α → ω → Option α) (a : α) (o : ω) (log : List ω) :
    watch δ a (o :: log) = (δ a o).bind fun a' => watch δ a' log := rfl

theorem watch_append (δ : α → ω → Option α) (a : α) (l l' : List ω) :
    watch δ a (l ++ l') = (watch δ a l).bind fun a' => watch δ a' l' := by
  induction l generalizing a with
  | nil => rfl
  | cons o l ih =>
      rcases h : δ a o with - | a'
      · simp [h]
      · simp [h, ih]

/-- A log of which the observer minds nothing. -/
theorem watch_ignored {δ : α → ω → Option α} {log : List ω}
    (h : ∀ o ∈ log, ∀ a, δ a o = some a) (a : α) : watch δ a log = some a := by
  induction log with
  | nil => rfl
  | cons o log ih =>
      rw [watch_cons, h o List.mem_cons_self a, Option.bind_some]
      exact ih fun o' ho' => h o' (List.mem_cons_of_mem o ho')

/-! ### Amounts -/

/-- What the observations of a log amount to, each by its weight. -/
def total (w : ω → ℕ) (log : List ω) : ℕ := (log.map w).sum

@[simp] theorem total_nil (w : ω → ℕ) : total w [] = 0 := rfl

@[simp] theorem total_cons (w : ω → ℕ) (o : ω) (log : List ω) :
    total w (o :: log) = w o + total w log := by
  simp [total]

@[simp] theorem total_append (w : ω → ℕ) (l l' : List ω) :
    total w (l ++ l') = total w l + total w l' := by
  simp [total]

theorem total_eq_zero {w : ω → ℕ} {log : List ω} (h : ∀ o ∈ log, w o = 0) : total w log = 0 := by
  induction log with
  | nil => rfl
  | cons o log ih =>
      rw [total_cons, h o List.mem_cons_self, ih fun o' ho' => h o' (List.mem_cons_of_mem o ho')]

/-! ### Machines -/

/-- A machine: an event takes a state to the next one and emits observations. -/
structure Machine (σ ε ω : Type*) where
  /-- The next state and what the event let an observer see. -/
  step : σ → ε → σ × List ω

namespace Machine

variable (M : Machine σ ε ω)

/-- Play a list of events: the state reached and the whole log. -/
def run : σ → List ε → σ × List ω
  | s, [] => (s, [])
  | s, e :: es => ((run (M.step s e).1 es).1, (M.step s e).2 ++ (run (M.step s e).1 es).2)

/-- Every step of the run is taken in a state and by an event that satisfy `P`. -/
def Along (P : σ → ε → Prop) : σ → List ε → Prop
  | _, [] => True
  | s, e :: es => P s e ∧ Along P (M.step s e).1 es

instance Along.decidable {P : σ → ε → Prop} [∀ s e, Decidable (P s e)] :
    ∀ s es, Decidable (M.Along P s es)
  | _, [] => .isTrue trivial
  | s, e :: es =>
      have := Along.decidable (P := P) (M.step s e).1 es
      inferInstanceAs (Decidable (P s e ∧ M.Along P (M.step s e).1 es))

theorem run_append (s : σ) (es es' : List ε) :
    M.run s (es ++ es') =
      ((M.run (M.run s es).1 es').1, (M.run s es).2 ++ (M.run (M.run s es).1 es').2) := by
  induction es generalizing s with
  | nil => rfl
  | cons e es ih => simp only [List.cons_append, run, ih, List.append_assoc]

theorem along_append {P : σ → ε → Prop} {s : σ} {es es' : List ε} :
    M.Along P s (es ++ es') ↔ M.Along P s es ∧ M.Along P (M.run s es).1 es' := by
  induction es generalizing s with
  | nil => simp [Along, run]
  | cons e es ih => simp only [List.cons_append, Along, run, ih, and_assoc]

/-- A guard on events alone. -/
theorem along_of_forall {P : ε → Prop} {es : List ε} (h : ∀ e ∈ es, P e) (s : σ) :
    M.Along (fun _ e => P e) s es := by
  induction es generalizing s with
  | nil => trivial
  | cons e es ih =>
      exact ⟨h e List.mem_cons_self, ih (fun e' he' => h e' (List.mem_cons_of_mem e he')) _⟩

theorem along_true (s : σ) (es : List ε) : M.Along (fun _ _ => True) s es :=
  M.along_of_forall (fun _ _ => trivial) s

/-- Invariants of runs: what guarded steps keep, guarded runs keep. -/
theorem run_invariant {I : σ → Prop} {P : σ → ε → Prop}
    (hstep : ∀ s e, I s → P s e → I (M.step s e).1)
    {s : σ} {es : List ε} (hI : I s) (hP : M.Along P s es) : I (M.run s es).1 := by
  induction es generalizing s with
  | nil => exact hI
  | cons e es ih => exact ih (hstep s e hI hP.1) hP.2

/-- What holds of guarded steps taken where an invariant holds, holds along guarded runs. -/
theorem along_of_invariant {I : σ → Prop} {P Q : σ → ε → Prop}
    (hstep : ∀ s e, I s → P s e → I (M.step s e).1) (hQ : ∀ s e, I s → P s e → Q s e)
    {s : σ} {es : List ε} (hI : I s) (hP : M.Along P s es) : M.Along Q s es := by
  induction es generalizing s with
  | nil => trivial
  | cons e es ih => exact ⟨hQ s e hI hP.1, ih (hstep s e hI hP.1) hP.2⟩

/-- What holds of every observation that guarded steps emit holds of the log of guarded runs. -/
theorem run_emits {P : σ → ε → Prop} {Q : ω → Prop}
    (hstep : ∀ s e, P s e → ∀ o ∈ (M.step s e).2, Q o)
    {s : σ} {es : List ε} (hP : M.Along P s es) : ∀ o ∈ (M.run s es).2, Q o := by
  induction es generalizing s with
  | nil => exact fun o ho => absurd ho List.not_mem_nil
  | cons e es ih =>
      intro o ho
      rcases List.mem_append.mp ho with ho | ho
      · exact hstep s e hP.1 o ho
      · exact ih hP.2 o ho

/-- An observation of a run was made in one of its steps. -/
theorem mem_run {s : σ} {es : List ε} {o : ω} :
    o ∈ (M.run s es).2 ↔
      ∃ pre e post, es = pre ++ e :: post ∧ o ∈ (M.step (M.run s pre).1 e).2 := by
  induction es generalizing s with
  | nil => simp [run]
  | cons e es ih =>
      rw [run, List.mem_append, ih]
      constructor
      · rintro (hnow | ⟨pre, e', post, rfl, hlater⟩)
        · exact ⟨[], e, es, rfl, hnow⟩
        · exact ⟨e :: pre, e', post, rfl, hlater⟩
      · rintro ⟨_ | ⟨d, pre⟩, e', post, heq, ho⟩
        · obtain ⟨rfl, rfl⟩ := List.cons.inj heq
          exact .inl ho
        · obtain ⟨rfl, htail⟩ := List.cons.inj heq
          exact .inr ⟨pre, e', post, htail, ho⟩

/-- Watched runs: if a guarded step keeps the relation `R` between the
machine and an observer that reads what the step emitted, the observer accepts
the log of every guarded run, and `R` holds at its end. -/
theorem run_watched {R : σ → α → Prop} {P : σ → ε → Prop} {δ : α → ω → Option α}
    (hstep : ∀ s a e, R s a → P s e →
      ∃ a', watch δ a (M.step s e).2 = some a' ∧ R (M.step s e).1 a')
    {s : σ} {a : α} {es : List ε} (hR : R s a) (hP : M.Along P s es) :
    ∃ a', watch δ a (M.run s es).2 = some a' ∧ R (M.run s es).1 a' := by
  induction es generalizing s a with
  | nil => exact ⟨a, rfl, hR⟩
  | cons e es ih =>
      obtain ⟨a₁, hw₁, hR₁⟩ := hstep s a e hR hP.1
      obtain ⟨a₂, hw₂, hR₂⟩ := ih hR₁ hP.2
      refine ⟨a₂, ?_, hR₂⟩
      simp only [run, watch_append, hw₁, Option.bind_some, hw₂]

/-- Runs that get on: if every guarded step either amounts to something or takes a measure down,
a run longer than the measure amounts to something. -/
theorem run_progresses {I : σ → Prop} {P : σ → ε → Prop} {μ : σ → ℕ} {w : ω → ℕ}
    (hstep : ∀ s e, I s → P s e →
      0 < total w (M.step s e).2 ∨ (I (M.step s e).1 ∧ μ (M.step s e).1 < μ s))
    {s : σ} {es : List ε} (hI : I s) (hP : M.Along P s es) (hlen : μ s < es.length) :
    0 < total w (M.run s es).2 := by
  induction es generalizing s with
  | nil => exact absurd hlen (Nat.not_lt_zero _)
  | cons e es ih =>
      rw [run, total_append]
      rcases hstep s e hI hP.1 with hpos | ⟨hI', hlt⟩
      · omega
      · have hrest := ih hI' hP.2 (by rw [List.length_cons] at hlen; omega)
        omega

/-- Runs that do not get on: a state that every step leaves as it is, and silent. -/
theorem run_stays {P : ε → Prop} {s : σ} (hstep : ∀ e, P e → M.step s e = (s, []))
    {es : List ε} (hP : ∀ e ∈ es, P e) : M.run s es = (s, []) := by
  induction es with
  | nil => rfl
  | cons e es ih =>
      rw [run, hstep e (hP e List.mem_cons_self)]
      simp only [ih fun e' he' => hP e' (List.mem_cons_of_mem e he'), List.append_nil]

/-- Two runs on the same events: if a guarded step of two related states makes
the same observations and relates the states again, the two logs are the same. -/
theorem run_unwound {R : σ → σ → Prop} {P : ε → Prop}
    (hstep : ∀ s s' e, R s s' → P e →
      (M.step s e).2 = (M.step s' e).2 ∧ R (M.step s e).1 (M.step s' e).1)
    {s s' : σ} {es : List ε} (hR : R s s') (hP : ∀ e ∈ es, P e) :
    (M.run s es).2 = (M.run s' es).2 ∧ R (M.run s es).1 (M.run s' es).1 := by
  induction es generalizing s s' with
  | nil => exact ⟨rfl, hR⟩
  | cons e es ih =>
      obtain ⟨hlog, hR₁⟩ := hstep s s' e hR (hP e List.mem_cons_self)
      obtain ⟨hlogs, hR₂⟩ := ih hR₁ fun e' he' => hP e' (List.mem_cons_of_mem e he')
      exact ⟨by rw [run, run, hlog, hlogs], hR₂⟩

end Machine

end Runs
