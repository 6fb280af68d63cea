/-
SqueezeliteMuse/Lib/Trim.lean

A sequence that comes in blocks, of which a part is kept.

The items are numbered from 0.  `window skip keep total` are the numbers of the items to be kept:
`skip` items are left out, and `keep` items follow.  `run` goes over the blocks with two counters,
and takes off each what it does with a block; if there is nothing to keep (any more) it keeps
everything.  `late` are the items of blocks that begin where all is kept already.

Main results: `run_eq`: what `run` keeps is the window, and what is late; `run_eq_window_iff`: it
is a window exactly if nothing is late.  Nothing here is about a particular program.
-/
import Mathlib.Algebra.Order.Ring.Int
import Mathlib.Data.List.Basic
import Mathlib.Tactic.Common

namespace Trim

/-- The items that are to be kept, of `total`. -/
def window (skip keep total : ℕ) : List ℕ := List.range' skip (min keep (total - skip))

/-- The items that are kept of a block of `n`.  Zero is for no limit. -/
def part (skip keep n : ℕ) : ℕ :=
  if keep ≠ 0 then min (n - min n skip) keep else n - min n skip

/-- The items that are kept of the blocks, the first of which begins at `pos`. -/
def run : ℕ → ℕ → ℕ → List ℕ → List ℕ
  | _, _, _, [] => []
  | skip, keep, pos, n :: ns =>
      List.range' (pos + min n skip) (part skip keep n) ++
        run (skip - min n skip) (keep - part skip keep n) (pos + n) ns

/-- The items of the blocks that begin at `bound` or behind it. -/
def late (bound : ℕ) : ℕ → List ℕ → List ℕ
  | _, [] => []
  | pos, n :: ns =>
      if bound ≤ pos then List.range' pos n ++ late bound (pos + n) ns
      else late bound (pos + n) ns

/-- Every block with items begins before `bound`. -/
def Before (bound : ℕ) : ℕ → List ℕ → Prop
  | _, [] => True
  | pos, n :: ns => (n ≠ 0 → pos < bound) ∧ Before bound (pos + n) ns

instance Before.decidable (bound : ℕ) : ∀ pos ns, Decidable (Before bound pos ns)
  | _, [] => .isTrue trivial
  | pos, n :: ns =>
      have := Before.decidable bound (pos + n) ns
      inferInstanceAs (Decidable ((n ≠ 0 → pos < bound) ∧ Before bound (pos + n) ns))

variable {skip keep pos bound : ℕ}

theorem range'_congr {s t m n : ℕ} (hlen : m = n) (hstart : n ≠ 0 → s = t) :
    List.range' s m = List.range' t n := by
  subst hlen
  by_cases hn : m = 0
  · rw [hn]
    rfl
  · rw [hstart hn]

theorem late_eq_nil_iff (ns : List ℕ) : late bound pos ns = [] ↔ Before bound pos ns := by
  induction ns generalizing pos with
  | nil => exact ⟨fun _ => trivial, fun _ => rfl⟩
  | cons n ns ih =>
    rw [late, Before, ← ih]
    split
    · rename_i hle
      rw [List.append_eq_nil_iff, List.range'_eq_nil_iff]
      constructor
      · exact fun h => ⟨fun hn => absurd h.1 hn, h.2⟩
      · exact fun h => ⟨by_contra fun hn => absurd (h.1 hn) (Nat.not_lt.mpr hle), h.2⟩
    · rename_i hlt
      exact ⟨fun h => ⟨fun _ => Nat.lt_of_not_le hlt, h⟩, fun h => h.2⟩

/-- Behind `bound` everything is late. -/
theorem late_of_le (h : bound ≤ pos) (ns : List ℕ) :
    late bound pos ns = List.range' pos ns.sum := by
  induction ns generalizing pos with
  | nil => rfl
  | cons n ns ih =>
    rw [late, if_pos h, ih (Nat.le_trans h (Nat.le_add_right ..)), List.sum_cons,
      List.range'_append_1]

/-- Without a limit everything is kept behind `skip`. -/
theorem run_zero (ns : List ℕ) :
    run skip 0 pos ns = List.range' (pos + skip) (ns.sum - skip) := by
  induction ns generalizing skip pos with
  | nil =>
    rw [run, List.sum_nil, Nat.zero_sub]
    rfl
  | cons n ns ih =>
    have hpart : part skip 0 n = n - min n skip := if_neg (fun h => h rfl)
    rw [run, hpart, Nat.zero_sub, ih, List.sum_cons]
    by_cases hle : n ≤ skip
    · -- the block is skipped
      rw [Nat.min_eq_left hle, Nat.sub_self, List.range'_zero, List.nil_append]
      exact range'_congr (by omega) (by omega)
    · rw [Nat.min_eq_right (Nat.le_of_not_le hle), Nat.sub_self, Nat.add_zero, Nat.sub_zero]
      have hnext : pos + n = pos + skip + (n - skip) := by omega
      rw [hnext, List.range'_append_1]
      exact range'_congr (by omega) (fun _ => rfl)

/-- The window goes on behind a block in which the limit is not reached. -/
theorem window_cons {n total : ℕ} (h : n - min n skip < keep) :
    List.range' (pos + skip) (min keep (n + total - skip)) =
      List.range' (pos + min n skip) (n - min n skip) ++
        List.range' (pos + n + (skip - min n skip))
          (min (keep - (n - min n skip)) (total - (skip - min n skip))) := by
  by_cases hle : n ≤ skip
  · rw [Nat.min_eq_left hle, Nat.sub_self, List.range'_zero, List.nil_append, Nat.sub_zero]
    exact range'_congr (by omega) (by omega)
  · rw [Nat.min_eq_right (Nat.le_of_not_le hle), Nat.sub_self, Nat.add_zero, Nat.sub_zero]
    have hnext : pos + n = pos + skip + (n - skip) := by omega
    rw [hnext, List.range'_append_1]
    exact range'_congr (by omega) (fun _ => rfl)

/-- With a limit it is the window that is kept, and what is late. -/
theorem run_eq (hkeep : keep ≠ 0) (ns : List ℕ) :
    run skip keep pos ns = List.range' (pos + skip) (min keep (ns.sum - skip)) ++
      late (pos + skip + keep) pos ns := by
  induction ns generalizing skip keep pos with
  | nil =>
    rw [run, late, List.sum_nil, Nat.zero_sub, Nat.min_zero]
    rfl
  | cons n ns ih =>
    have hpart : part skip keep n = min (n - min n skip) keep := if_pos hkeep
    have hnot : ¬ pos + skip + keep ≤ pos := by omega
    rw [run, late, if_neg hnot, hpart, List.sum_cons]
    by_cases hend : keep ≤ n - min n skip
    · -- the limit is reached in the block
      have hskip : min n skip = skip := by omega
      rw [hskip] at hend ⊢
      rw [Nat.min_eq_right hend, Nat.sub_self, Nat.sub_self, run_zero, Nat.sub_zero, Nat.add_zero,
        late_of_le (by omega)]
      congr 1
      exact range'_congr (by omega) (fun _ => rfl)
    · have hbound : pos + n + (skip - min n skip) + (keep - (n - min n skip)) =
          pos + skip + keep := by omega
      rw [Nat.min_eq_left (Nat.le_of_not_le hend), ih (by omega), hbound, ← List.append_assoc,
        window_cons (Nat.lt_of_not_le hend)]

/-- A range that is not empty begins where it begins. -/
theorem head?_range'_pos {s n : ℕ} (h : n ≠ 0) : (List.range' s n).head? = some s := by
  rw [List.head?_range', if_neg h]

/-- What is kept, if it is anything, begins behind what is skipped. -/
theorem run_head {ns : List ℕ} (h : skip < ns.sum) :
    (run skip keep 0 ns).head? = some skip := by
  by_cases hkeep : keep = 0
  · rw [hkeep, run_zero, Nat.zero_add]
    exact head?_range'_pos (by omega)
  · rw [run_eq hkeep, Nat.zero_add, List.head?_append, head?_range'_pos (by omega)]
    rfl

/-- Nothing is late where there is nothing behind `bound`. -/
theorem before_of_le {ns : List ℕ} (h : pos + ns.sum ≤ bound) : Before bound pos ns := by
  induction ns generalizing pos with
  | nil => trivial
  | cons n ns ih =>
    rw [List.sum_cons] at h
    exact ⟨fun hn => by omega, ih (by omega)⟩

/-- When what is kept with one number of items to skip is the window of another. -/
def Exact (skip' skip keep : ℕ) (ns : List ℕ) : Prop :=
  if keep = 0 then ns.sum ≤ skip'
  else (ns.sum ≤ skip' ∧ ns.sum ≤ skip) ∨ (skip' = skip ∧ Before (skip + keep) 0 ns)

instance (skip' skip keep : ℕ) (ns : List ℕ) : Decidable (Exact skip' skip keep ns) :=
  inferInstanceAs (Decidable (if keep = 0 then ns.sum ≤ skip'
    else (ns.sum ≤ skip' ∧ ns.sum ≤ skip) ∨ (skip' = skip ∧ Before (skip + keep) 0 ns)))

theorem run_eq_window_iff (skip' skip keep : ℕ) (ns : List ℕ) :
    run skip' keep 0 ns = window skip keep ns.sum ↔ Exact skip' skip keep ns := by
  rw [Exact]
  split
  · rename_i hkeep
    rw [hkeep, run_zero, window, Nat.zero_min, List.range'_zero, List.range'_eq_nil_iff]
    omega
  rename_i hkeep
  by_cases hall : ns.sum ≤ skip'
  · -- nothing is kept
    have hnone : run skip' keep 0 ns = [] := by
      rw [run_eq hkeep, Nat.zero_add, Nat.sub_eq_zero_of_le hall, Nat.min_zero, List.range'_zero,
        List.nil_append, late_eq_nil_iff]
      exact before_of_le (by omega)
    rw [hnone, eq_comm, window, List.range'_eq_nil_iff]
    constructor
    · exact fun h => Or.inl ⟨hall, by omega⟩
    · rintro (⟨-, hle⟩ | ⟨rfl, -⟩)
      · omega
      · omega
  · have hhead : (run skip' keep 0 ns).head? = some skip' :=
      run_head (Nat.lt_of_not_le hall)
    constructor
    · intro h
      have hsame : skip' = skip := by
        rw [h, window, List.head?_range'] at hhead
        split at hhead
        · cases hhead
        · exact (Option.some.inj hhead).symm
      subst hsame
      rw [run_eq hkeep, Nat.zero_add, window, List.append_right_eq_self, late_eq_nil_iff] at h
      exact Or.inr ⟨rfl, h⟩
    · rintro (⟨hle, -⟩ | ⟨rfl, hbefore⟩)
      · exact absurd hle hall
      · rw [run_eq hkeep, Nat.zero_add, (late_eq_nil_iff ns).mpr hbefore, List.append_nil, window]

end Trim
