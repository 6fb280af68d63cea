/-
SqueezeliteMuse/Lib/Ranked.lean

Items with a rank, that come one after the other and are put where they belong.

`place` is the sweep that puts an item before the first of higher rank and goes on with the one it
found there.  What is made so of a sequence is sorted and has the same items; a sequence that comes
sorted stays as it is.  Items of the same rank may change places otherwise.
Nothing here is about a particular program.
-/
import Mathlib.Algebra.Order.Ring.Int
import Mathlib.Data.Int.Notation
import Mathlib.Data.List.Basic
import Mathlib.Data.List.Induction
import Mathlib.Order.Nat
import Mathlib.Tactic.Common

namespace Ranked

variable {ρ α : Type*} [LinearOrder ρ]

/-- The item pushes out those of higher rank, one by the other. -/
def place (x : ρ × α) : List (ρ × α) → List (ρ × α)
  | [] => [x]
  | y :: ys => if x.1 < y.1 then x :: place y ys else y :: place x ys

/-- The items in the order they came. -/
def sort (xs : List (ρ × α)) : List (ρ × α) := xs.foldl (fun ys x => place x ys) []

/-- In the order of their ranks. -/
def Sorted (ys : List (ρ × α)) : Prop := ys.Pairwise fun x y => x.1 ≤ y.1

/-- The two of rank 1 have changed places. -/
example : place (0, 'c') [(1, 'a'), (1, 'b')] = [(0, 'c'), (1, 'b'), (1, 'a')] := rfl

variable {x : ρ × α} {xs ys : List (ρ × α)}

theorem place_perm (x : ρ × α) (ys : List (ρ × α)) : (place x ys).Perm (x :: ys) := by
  induction ys generalizing x with
  | nil => exact List.Perm.refl _
  | cons y ys ih =>
      rw [place]
      split
      · exact (ih y).cons x
      · exact ((ih x).cons y).trans (List.Perm.swap x y ys)

theorem place_sorted (h : Sorted ys) : Sorted (place x ys) := by
  induction ys generalizing x with
  | nil => exact List.pairwise_singleton _ _
  | cons y ys ih =>
      obtain ⟨hfirst, hrest⟩ := List.pairwise_cons.mp h
      rw [place]
      split
      case isTrue hlt =>
        refine List.pairwise_cons.mpr ⟨fun z hz => ?_, ih hrest⟩
        rcases List.mem_cons.mp ((place_perm y ys).mem_iff.mp hz) with rfl | hz
        · exact hlt.le
        · exact hlt.le.trans (hfirst z hz)
      case isFalse hnot =>
        refine List.pairwise_cons.mpr ⟨fun z hz => ?_, ih hrest⟩
        rcases List.mem_cons.mp ((place_perm x ys).mem_iff.mp hz) with rfl | hz
        · exact not_lt.mp hnot
        · exact hfirst z hz

theorem place_last (h : ∀ y ∈ ys, y.1 ≤ x.1) : place x ys = ys ++ [x] := by
  induction ys with
  | nil => rfl
  | cons y ys ih =>
      rw [place, if_neg (not_lt.mpr (h y List.mem_cons_self)),
        ih fun z hz => h z (List.mem_cons_of_mem y hz), List.cons_append]

theorem length_place (x : ρ × α) (ys : List (ρ × α)) : (place x ys).length = ys.length + 1 :=
  (place_perm x ys).length_eq

theorem sort_append (xs : List (ρ × α)) (x : ρ × α) : sort (xs ++ [x]) = place x (sort xs) := by
  rw [sort, List.foldl_append]
  rfl

theorem sort_perm (xs : List (ρ × α)) : (sort xs).Perm xs := by
  induction xs using List.reverseRecOn with
  | nil => exact List.Perm.refl _
  | append_singleton xs x ih =>
      rw [sort_append]
      exact (place_perm x _).trans ((ih.cons x).trans (List.perm_append_singleton x xs).symm)

theorem sort_sorted (xs : List (ρ × α)) : Sorted (sort xs) := by
  induction xs using List.reverseRecOn with
  | nil => exact List.Pairwise.nil
  | append_singleton xs x ih =>
      rw [sort_append]
      exact place_sorted ih

theorem sort_eq_self (h : Sorted xs) : sort xs = xs := by
  induction xs using List.reverseRecOn with
  | nil => rfl
  | append_singleton xs x ih =>
      obtain ⟨hfront, -, hlast⟩ := List.pairwise_append.mp h
      rw [sort_append, ih hfront, place_last fun y hy => hlast y hy x List.mem_cons_self]

end Ranked
