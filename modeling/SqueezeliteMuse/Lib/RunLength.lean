/-
SqueezeliteMuse/Lib/RunLength.lean

A sequence of numbers that is given by its runs.

A run is where it begins and the number that is repeated, up to the next run.  `valueAt` is the
number at a place, `sumTo` the sum of those before a place; the places are counted from `base`.
Nothing here is about a particular program.
-/
import Mathlib.Algebra.Order.Ring.Int
import Mathlib.Data.List.Basic
import Mathlib.Tactic.Common

namespace RunLength

/-- The runs are in order. -/
def Ordered (runs : List (ℕ × ℕ)) : Prop := runs.Pairwise fun r q => r.1 < q.1

instance (runs : List (ℕ × ℕ)) : Decidable (Ordered runs) :=
  inferInstanceAs (Decidable (runs.Pairwise fun r q => r.1 < q.1))

/-- The number at `i`: that of the last run that begins at `i` or before. -/
def valueAt (runs : List (ℕ × ℕ)) (i : ℕ) : ℕ :=
  ((runs.filter fun r => r.1 ≤ i).getLast?.map Prod.snd).getD 0

/-- The sum of the first `k` numbers. -/
def sumTo (runs : List (ℕ × ℕ)) (base : ℕ) : ℕ → ℕ
  | 0 => 0
  | k + 1 => sumTo runs base k + valueAt runs (base + k)

variable {done rest : List (ℕ × ℕ)} {r : ℕ × ℕ} {i : ℕ}

/-- The number of a run, up to the next. -/
theorem valueAt_run (h : Ordered (done ++ r :: rest)) (hle : r.1 ≤ i)
    (hlt : ∀ q ∈ rest.head?, i < q.1) : valueAt (done ++ r :: rest) i = r.2 := by
  obtain ⟨-, htail, hcross⟩ := List.pairwise_append.mp h
  obtain ⟨hfirst, hrest⟩ := List.pairwise_cons.mp htail
  have hdone : done.filter (fun q => q.1 ≤ i) = done := by
    refine List.filter_eq_self.mpr fun q hq => decide_eq_true ?_
    have hbefore := hcross q hq r (List.mem_cons_self ..)
    omega
  have hnone : rest.filter (fun q => q.1 ≤ i) = [] := by
    refine List.filter_eq_nil_iff.mpr fun q hq => ?_
    rw [decide_eq_true_eq]
    cases rest with
    | nil => cases hq
    | cons next others =>
      have hnext := hlt next rfl
      rcases List.mem_cons.mp hq with rfl | hq
      · omega
      · have hlater := (List.pairwise_cons.mp hrest).1 q hq
        omega
  have hself : decide (r.1 ≤ i) = true := decide_eq_true hle
  rw [valueAt, List.filter_append, hdone, List.filter_cons, if_pos hself, hnone,
    List.getLast?_append, List.getLast?_singleton]
  rfl

end RunLength
