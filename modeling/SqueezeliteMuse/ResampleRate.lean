/-
SqueezeliteMuse/ResampleRate.lean

`resample_newstream` of resample16.c: the rate that a stream is resampled to, from the table of rates
that the output supports, which ends with a 0.

As `resample_init` leaves it, the first rate of the table is taken that is a multiple or a divisor
of the rate of the stream, or else the first rate at all.  A stream of the rate 0 is divided by.

Main result: `chooses_iff`: a rate is chosen, and it is the highest multiple or divisor in the table,
if and only if the rate of the stream is not 0, and no such rate comes behind a lower one.
-/
import Mathlib.Algebra.Order.Ring.Int
import Mathlib.Data.List.Basic
import Mathlib.Data.Nat.Notation
import Mathlib.Tactic.Common

namespace SqueezeliteMuse

namespace ResampleRate

/-! ### The code -/

/-- What no step may do. -/
inductive Fault
  /-- Divide by zero. -/
  | divide
  /-- Read behind the table. -/
  | beyond
  deriving DecidableEq

/-- `resample16_filter_e` -/
inductive Filter
  | basic | low | med
  deriving DecidableEq

/-- `struct resample16`, but for the resampler itself. -/
structure Resample16 where
  maxRate : Bool
  exception : Bool
  interp : Bool
  filter : Filter

/-- The rates of `struct processstate`. -/
structure Rates where
  inSampleRate : ℕ
  outSampleRate : ℕ
  deriving DecidableEq

/-- `resample_init`, with the first characters of the two parameters it finds in its options. -/
def resampleInit (r : Resample16) (filter interp : Option Char) : Resample16 where
  maxRate := false
  exception := false
  filter :=
    match filter with
    | none => r.filter
    | some c => if c = 'm' then .med else if c = 'l' then .low else .basic
  interp := if interp = some 'i' then true else r.interp

/-- A table of rates: at least one, and a 0 behind them. -/
structure Table where
  rates : List ℕ
  ne_nil : rates ≠ []
  ne_zero : ∀ rate ∈ rates, rate ≠ 0

/-- The places of the table. -/
def Table.memory (t : Table) : List ℕ := t.rates ++ [0]

/-- `supported_rates[i]` -/
def Table.get (t : Table) (i : ℕ) : Except Fault ℕ :=
  match t.memory[i]? with
  | none => .error .beyond
  | some rate => .ok rate

theorem lt_of_get {t : Table} {i rate : ℕ} (h : t.memory[i]? = some rate) :
    t.rates.length + 1 - (i + 1) < t.rates.length + 1 - i := by
  have hlt := (List.getElem?_eq_some_iff.mp h).1
  rw [Table.memory, List.length_append, List.length_singleton] at hlt
  omega

section Code

variable (r : Resample16) (raw : ℕ) (t : Table)

/-- Find direct match - avoid resampling; the rate, and where the loop ends. -/
def directLoop (i : ℕ) : Except Fault (ℕ × ℕ) :=
  match h : t.memory[i]? with
  | none => .error .beyond
  | some rate =>
      if rate = 0 then .ok (0, i)
      else if raw = rate then .ok (raw, i)
      else directLoop (i + 1)
termination_by t.rates.length + 1 - i
decreasing_by exact lt_of_get h

/-- Else find next highest sync sample rate, from the place before `i` down. -/
def upLoop : ℕ → Except Fault ℕ
  | 0 => .ok 0
  | i + 1 =>
      match t.memory[i]? with
      | none => .error .beyond
      | some rate =>
          if raw < rate then
            if raw = 0 then .error .divide
            else if rate % raw = 0 then .ok rate
            else upLoop i
          else upLoop i

/-- Resample to max sync sample rate. -/
def syncLoop (i : ℕ) : Except Fault ℕ :=
  match h : t.memory[i]? with
  | none => .error .beyond
  | some rate =>
      if rate = 0 then .ok 0
      else if raw = 0 then .error .divide
      else if rate % raw = 0 ∨ raw % rate = 0 then .ok rate
      else syncLoop (i + 1)
termination_by t.rates.length + 1 - i
decreasing_by exact lt_of_get h

/-- `outrate` -/
def outrate : Except Fault ℕ := do
  let out ←
    if r.exception then do
      let (out, i) ← directLoop raw t 0
      if out ≠ 0 then pure out else upLoop raw t (i + 1)
    else pure 0
  if out ≠ 0 then pure out
  else
    let out ← if r.maxRate then t.get 0 else syncLoop raw t 0
    if out ≠ 0 then pure out else t.get 0

/-- `resample_newstream`: the rates, and if the stream is resampled. -/
def resampleNewstream : Except Fault (Rates × Bool) := do
  let out ← outrate r raw t
  pure (⟨raw, out⟩, decide (raw ≠ out))

end Code

/-! ### What it is for -/

section Spec

variable (raw : ℕ) (t : Table)

/-- The rates are in step. -/
def Sync (rate : ℕ) : Prop := raw ∣ rate ∨ rate ∣ raw

instance (rate : ℕ) : Decidable (Sync raw rate) := instDecidableOr

/-- A rate of the table is chosen, the highest that is in step, if there is one, and the stream is
not resampled if it has that rate. -/
def Chooses (r : Resample16) : Prop :=
  ∃ out active, resampleNewstream r raw t = .ok (⟨raw, out⟩, active) ∧ out ∈ t.rates ∧
    ((∃ rate ∈ t.rates, Sync raw rate) →
      Sync raw out ∧ ∀ rate ∈ t.rates, Sync raw rate → rate ≤ out) ∧
    (active = false ↔ out = raw)

/-- No rate in step comes behind a lower one that is the first. -/
def FirstHighest : Prop :=
  ∀ pre first post, t.rates = pre ++ first :: post → (∀ rate ∈ pre, ¬ Sync raw rate) →
    Sync raw first → ∀ rate ∈ post, Sync raw rate → rate ≤ first

end Spec

/-! ### The loop -/

variable {raw : ℕ} {t : Table}

/-- The loop finds the first rate in step. -/
theorem syncLoop_eq (hraw : raw ≠ 0) (rest : List ℕ) : ∀ pre, t.rates = pre ++ rest →
    syncLoop raw t pre.length = .ok ((rest.find? fun rate => Sync raw rate).getD 0) := by
  induction rest with
  | nil =>
    intro pre hrates
    have hget : t.memory[pre.length]? = some 0 := by
      rw [Table.memory, hrates, List.append_nil, List.getElem?_concat_length]
    rw [syncLoop, hget]
    rfl
  | cons rate rest ih =>
    intro pre hrates
    have hget : t.memory[pre.length]? = some rate := by
      rw [Table.memory, hrates, List.append_assoc, List.getElem?_append_right (Nat.le_refl _),
        Nat.sub_self]
      rfl
    have hrate : rate ≠ 0 := t.ne_zero rate (hrates ▸ by simp)
    have hnext := ih (pre ++ [rate]) (by rw [hrates, List.append_assoc]; rfl)
    rw [List.length_append, List.length_singleton] at hnext
    have hsync : rate % raw = 0 ∨ raw % rate = 0 ↔ Sync raw rate := by
      rw [Sync, Nat.dvd_iff_mod_eq_zero, Nat.dvd_iff_mod_eq_zero]
    rw [syncLoop, hget]
    simp only [if_neg hrate, if_neg hraw, hsync]
    by_cases hin : Sync raw rate
    · have hfind : ((rate :: rest).find? fun rate => Sync raw rate) = some rate :=
        List.find?_cons_of_pos (decide_eq_true hin)
      rw [if_pos hin, hfind]
      rfl
    · have hfind : ((rate :: rest).find? fun rate => Sync raw rate) =
          rest.find? fun rate => Sync raw rate :=
        List.find?_cons_of_neg (by rw [decide_eq_true_eq]; exact hin)
      rw [if_neg hin, hfind]
      exact hnext

/-- The first rate in step, or else the first rate. -/
def chosen (raw : ℕ) (t : Table) : ℕ :=
  (t.rates.find? fun rate => Sync raw rate).getD (t.rates.head t.ne_nil)

variable {r : Resample16} {filter interp : Option Char}

theorem get_zero (t : Table) : t.memory[0]? = some (t.rates.head t.ne_nil) := by
  rw [Table.memory, List.getElem?_append_left (List.length_pos_iff.mpr t.ne_nil),
    ← List.head?_eq_getElem?, List.head?_eq_some_head]

theorem head_ne_zero (t : Table) : t.rates.head t.ne_nil ≠ 0 :=
  t.ne_zero _ (List.head_mem t.ne_nil)

theorem outrate_zero : outrate (resampleInit r filter interp) 0 t = .error .divide := by
  have hloop : syncLoop 0 t 0 = .error .divide := by
    rw [syncLoop, get_zero]
    exact if_neg (head_ne_zero t)
  have hout : outrate (resampleInit r filter interp) 0 t =
      (syncLoop 0 t 0 >>= fun out => if out ≠ 0 then pure out else t.get 0) := rfl
  rw [hout, hloop]
  rfl

theorem outrate_eq (hraw : raw ≠ 0) :
    outrate (resampleInit r filter interp) raw t = .ok (chosen raw t) := by
  have hout : outrate (resampleInit r filter interp) raw t =
      (syncLoop raw t 0 >>= fun out => if out ≠ 0 then pure out else t.get 0) := rfl
  have hloop := syncLoop_eq hraw t.rates [] rfl
  rw [List.length_nil] at hloop
  rw [hout, hloop, chosen]
  change (if _ ≠ 0 then pure _ else t.get 0) = _
  cases hfind : t.rates.find? fun rate => Sync raw rate with
  | none =>
    rw [Option.getD_none, if_neg (not_not.mpr rfl), Table.get, get_zero]
    rfl
  | some rate =>
    rw [Option.getD_some, if_pos (t.ne_zero rate (List.mem_of_find?_eq_some hfind))]
    rfl

theorem chosen_mem : chosen raw t ∈ t.rates := by
  rw [chosen]
  cases hfind : t.rates.find? fun rate => Sync raw rate with
  | none => exact List.head_mem t.ne_nil
  | some rate => exact List.mem_of_find?_eq_some hfind

/-- Where a rate is in step, the first of them is chosen. -/
theorem chosen_first (h : ∃ rate ∈ t.rates, Sync raw rate) :
    ∃ pre post, t.rates = pre ++ chosen raw t :: post ∧ (∀ rate ∈ pre, ¬ Sync raw rate) ∧
      Sync raw (chosen raw t) := by
  obtain ⟨rate, hmem, hsync⟩ := h
  cases hfind : t.rates.find? fun rate => Sync raw rate with
  | none => exact absurd (decide_eq_true hsync) (List.find?_eq_none.mp hfind rate hmem)
  | some first =>
    have hchosen : chosen raw t = first := by rw [chosen, hfind, Option.getD_some]
    obtain ⟨hfirst, pre, post, hrates, hpre⟩ := List.find?_eq_some_iff_append.mp hfind
    rw [hchosen]
    refine ⟨pre, post, hrates, fun rate hrate => ?_, of_decide_eq_true hfirst⟩
    have hnot := hpre rate hrate
    rw [Bool.not_eq_true', decide_eq_false_iff_not] at hnot
    exact hnot

/-- The first of the rates in step is the highest, exactly if the one that is chosen is. -/
theorem firstHighest_iff : FirstHighest raw t ↔
    ((∃ rate ∈ t.rates, Sync raw rate) →
      Sync raw (chosen raw t) ∧ ∀ rate ∈ t.rates, Sync raw rate → rate ≤ chosen raw t) := by
  constructor
  · intro hhighest hex
    obtain ⟨pre, post, hrates, hpre, hsync⟩ := chosen_first hex
    refine ⟨hsync, fun rate hmem hrate => ?_⟩
    rw [hrates] at hmem
    rcases List.mem_append.mp hmem with hmem | hmem
    · exact absurd hrate (hpre rate hmem)
    · rcases List.mem_cons.mp hmem with rfl | hmem
      · exact Nat.le_refl _
      · exact hhighest pre _ post hrates hpre hsync rate hmem hrate
  · intro h pre first post hrates hpre hfirst rate hmem hrate
    have hfind : (t.rates.find? fun rate => Sync raw rate) = some first := by
      refine List.find?_eq_some_iff_append.mpr ⟨decide_eq_true hfirst, pre, post, hrates, ?_⟩
      intro rate hrate
      rw [Bool.not_eq_true', decide_eq_false_iff_not]
      exact hpre rate hrate
    have hchosen : chosen raw t = first := by rw [chosen, hfind, Option.getD_some]
    rw [← hchosen]
    exact (h ⟨first, by rw [hrates]; simp, hfirst⟩).2 rate (by rw [hrates]; simp [hmem]) hrate

/-- The highest rate in step is chosen, unless the rate is 0, or a lower one comes first. -/
theorem chooses_iff (r : Resample16) (filter interp : Option Char) (raw : ℕ) (t : Table) :
    Chooses raw t (resampleInit r filter interp) ↔ raw ≠ 0 ∧ FirstHighest raw t := by
  rw [firstHighest_iff]
  constructor
  · rintro ⟨out, active, hrun, -, hhighest, -⟩
    have hraw : raw ≠ 0 := by
      rintro rfl
      rw [resampleNewstream, outrate_zero] at hrun
      cases hrun
    rw [resampleNewstream, outrate_eq hraw] at hrun
    cases hrun
    exact ⟨hraw, hhighest⟩
  · rintro ⟨hraw, hhighest⟩
    refine ⟨chosen raw t, decide (raw ≠ chosen raw t), ?_, chosen_mem, hhighest, ?_⟩
    · rw [resampleNewstream, outrate_eq hraw]
      rfl
    · rw [decide_eq_false_iff_not, not_not]
      exact eq_comm

/-- A stream of the rate 0. -/
theorem chooses_zero (r : Resample16) (filter interp : Option Char) (t : Table) :
    ¬ Chooses 0 t (resampleInit r filter interp) := by
  rintro ⟨out, active, hrun, -⟩
  rw [resampleNewstream, outrate_zero] at hrun
  cases hrun

/-- The header of a stream that has no rate. -/
theorem chooses_no_rate : ¬ Chooses 0 ⟨[48000, 44100], by decide, by decide⟩
    (resampleInit ⟨false, false, false, .basic⟩ none none) := chooses_zero _ none none _

/-- A table that goes down has its highest rate in step first. -/
theorem firstHighest_of_sorted (h : t.rates.Pairwise (· > ·)) : FirstHighest raw t := by
  intro pre first post hrates _ _ rate hmem _
  rw [hrates] at h
  exact Nat.le_of_lt ((List.pairwise_cons.mp (List.pairwise_append.mp h).2.1).1 rate hmem)

end ResampleRate

end SqueezeliteMuse
