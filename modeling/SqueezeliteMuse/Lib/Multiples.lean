/-
SqueezeliteMuse/Lib/Multiples.lean

Rounding to multiples, and rounding again.

`down m` and `up m` round to a multiple of `m`, and are adjoint: a number stays
below what is left of another one rounded down exactly if rounding it up stays
below the other one.  Adjoints compose, so the same holds of one rounding after
the other, with those upwards in the opposite order.
-/
import Mathlib.Algebra.Order.Ring.Int
import Mathlib.Algebra.Order.Floor.Div
import Mathlib.Order.GaloisConnection.Basic
import Mathlib.Order.Bounds.Basic
import Mathlib.Tactic.Common

namespace Multiples

variable {m s t : ℕ}

/-- The largest multiple of `m` not above `s`. -/
def down (m s : ℕ) : ℕ := s / m * m

/-- The smallest multiple of `m` not below `t`. -/
def up (m t : ℕ) : ℕ := (t ⌈/⌉ m) * m

theorem gc_up_down (hm : 0 < m) : GaloisConnection (up m) (down m) := by
  intro t s
  calc t ⌈/⌉ m * m ≤ s
      ↔ t ⌈/⌉ m ≤ s / m := (Nat.le_div_iff_mul_le hm).symm
    _ ↔ t ≤ m * (s / m) := gc_mul_ceilDiv hm t (s / m)
    _ ↔ t ≤ s / m * m := by rw [Nat.mul_comm]

theorem down_le (m s : ℕ) : down m s ≤ s := Nat.div_mul_le_self s m

theorem dvd_down (m s : ℕ) : m ∣ down m s := Nat.dvd_mul_left m (s / m)

theorem down_of_dvd (h : m ∣ s) : down m s = s := Nat.div_mul_cancel h

theorem isGreatest_down (hm : 0 < m) : IsGreatest {n | m ∣ n ∧ n ≤ s} (down m s) := by
  refine ⟨⟨dvd_down m s, down_le m s⟩, ?_⟩
  rintro n ⟨hdvd, hle⟩
  rw [← down_of_dvd hdvd]
  exact (gc_up_down hm).monotone_u hle

/-- Rounding a smaller number down gives the same multiple exactly if the multiple is not above
it. -/
theorem down_eq_iff (hm : 0 < m) (hle : t ≤ s) : down m t = down m s ↔ down m s ≤ t := by
  constructor
  · intro h
    rw [← h]
    exact down_le m t
  · intro h
    apply le_antisymm
    · exact (gc_up_down hm).monotone_u hle
    · exact (isGreatest_down hm).2 ⟨dvd_down m s, h⟩

/-- A multiple rounded up is itself, and nothing else is. -/
theorem up_le_iff (hm : 0 < m) : up m t ≤ t ↔ m ∣ t := by
  rw [gc_up_down hm t t]
  constructor
  · intro h
    rw [← le_antisymm (down_le m t) h]
    exact dvd_down m t
  · intro h
    rw [down_of_dvd h]

/-! ### One after the other -/

/-- Adjoint maps compose along a list, in opposite orders. -/
theorem gc_fold {ι α : Type*} [Preorder α] {l u : ι → α → α} (is : List ι)
    (h : ∀ i ∈ is, GaloisConnection (l i) (u i)) :
    GaloisConnection (fun t => is.foldr l t) (fun s => is.foldl (fun s i => u i s) s) := by
  induction is with
  | nil => exact fun t s => Iff.rfl
  | cons i is ih =>
      intro t s
      have hrest := ih (fun j hj => h j (List.mem_cons_of_mem i hj)) t (u i s)
      exact (h i List.mem_cons_self _ s).trans hrest

theorem foldl_down_le (ms : List ℕ) (s : ℕ) : ms.foldl (fun s m => down m s) s ≤ s := by
  induction ms generalizing s with
  | nil => exact le_rfl
  | cons m ms ih => exact (ih (down m s)).trans (down_le m s)

/-- Rounding down by one modulus after the other costs nothing exactly if what is to be left,
rounded up by the same moduli from the last to the first, fits. -/
theorem down_foldl_eq_iff (hm : 0 < m) {ms : List ℕ} (hms : ∀ k ∈ ms, 0 < k) :
    down m (ms.foldl (fun s k => down k s) s) = down m s ↔ ms.foldr up (down m s) ≤ s := by
  rw [down_eq_iff hm (foldl_down_le ms s)]
  exact (gc_fold ms (fun k hk => gc_up_down (hms k hk)) (down m s) s).symm

theorem le_foldr_up {ms : List ℕ} (hms : ∀ k ∈ ms, 0 < k) (t : ℕ) : t ≤ ms.foldr up t := by
  induction ms with
  | nil => exact le_rfl
  | cons k ms ih =>
      have hk := hms k List.mem_cons_self
      have hup : ms.foldr up t ≤ up k (ms.foldr up t) :=
        ((gc_up_down hk).le_u_l _).trans (down_le k _)
      exact (ih fun j hj => hms j (List.mem_cons_of_mem k hj)).trans hup

/-- Nothing is added to a number by rounding it up exactly if all moduli divide it. -/
theorem foldr_up_le_iff {ms : List ℕ} (hms : ∀ k ∈ ms, 0 < k) :
    ms.foldr up t ≤ t ↔ ∀ k ∈ ms, k ∣ t := by
  induction ms with
  | nil => simp
  | cons k ms ih =>
      have hk := hms k List.mem_cons_self
      have hrest := fun j hj => hms j (List.mem_cons_of_mem k hj)
      rw [List.foldr_cons, List.forall_mem_cons, ← ih hrest, ← up_le_iff hk]
      constructor
      · intro h
        have hle : ms.foldr up t ≤ t :=
          ((gc_up_down hk).le_u_l _).trans ((down_le k _).trans h)
        rw [le_antisymm hle (le_foldr_up hrest t)] at h
        exact ⟨h, hle⟩
      · rintro ⟨h, hle⟩
        rw [le_antisymm hle (le_foldr_up hrest t)]
        exact h

end Multiples
