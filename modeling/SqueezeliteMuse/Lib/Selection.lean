/-
SqueezeliteMuse/Lib/Selection.lean

Sorting by repeated selection: the largest of a list, the largest below that, and so on.

The least value of the order stands for "none".  What is selected goes down strictly until there
is none, and it is the values of the list below the first bound, each once.  So a fixed number of
rounds comes to "none" exactly where there are fewer of them (`bot_mem_descend`).
Nothing here is about a particular program.
-/
import Mathlib.Algebra.Order.Ring.Int
import Mathlib.Data.Finset.Card
import Mathlib.Data.List.TakeWhile
import Mathlib.Order.BoundedOrder.Basic
import Mathlib.Tactic.Common

namespace Selection

variable {α : Type*} [LinearOrder α] [OrderBot α]

/-- The largest value of the list below a bound, or the least of the order. -/
def best (xs : List α) (last : α) : α :=
  xs.foldl (fun largest x => if largest < x ∧ x < last then x else largest) ⊥

/-- `n` rounds of it, each below what the one before has selected. -/
def descend (xs : List α) : ℕ → α → List α
  | 0, _ => []
  | n + 1, last => best xs last :: descend xs n (best xs last)

/-- The values that are there to be selected. -/
def below (xs : List α) (last : α) : Finset α := xs.toFinset.filter fun x => ⊥ < x ∧ x < last

variable {xs : List α} {last x : α} {n : ℕ}

omit [OrderBot α] in
theorem foldl_spec (xs : List α) (last m : α) :
    m ≤ xs.foldl (fun largest x => if largest < x ∧ x < last then x else largest) m ∧
      (∀ x ∈ xs, x < last →
        x ≤ xs.foldl (fun largest x => if largest < x ∧ x < last then x else largest) m) ∧
      (xs.foldl (fun largest x => if largest < x ∧ x < last then x else largest) m = m ∨
        xs.foldl (fun largest x => if largest < x ∧ x < last then x else largest) m ∈ xs ∧
        xs.foldl (fun largest x => if largest < x ∧ x < last then x else largest) m < last) := by
  induction xs generalizing m with
  | nil => exact ⟨le_rfl, fun x hx => absurd hx List.not_mem_nil, .inl rfl⟩
  | cons y xs ih =>
      obtain ⟨hle, hall, hfrom⟩ := ih (if m < y ∧ y < last then y else m)
      rw [List.foldl_cons]
      refine ⟨le_trans ?_ hle, ?_, ?_⟩
      · split
        case isTrue h => exact h.1.le
        case isFalse => exact le_rfl
      · intro x hx hlast
        rcases List.mem_cons.mp hx with rfl | hx
        · refine le_trans ?_ hle
          split
          case isTrue => exact le_rfl
          case isFalse h => exact not_lt.mp fun hlt => h ⟨hlt, hlast⟩
        · exact hall x hx hlast
      · rcases hfrom with heq | ⟨hmem, hlt⟩
        · rw [heq]
          split
          case isTrue h => exact .inr ⟨List.mem_cons_self, h.2⟩
          case isFalse => exact .inl rfl
        · exact .inr ⟨List.mem_cons_of_mem y hmem, hlt⟩

theorem le_best (hx : x ∈ xs) (hlt : x < last) : x ≤ best xs last :=
  (foldl_spec xs last ⊥).2.1 x hx hlt

theorem best_mem (h : best xs last ≠ ⊥) : best xs last ∈ xs ∧ best xs last < last :=
  (foldl_spec xs last ⊥).2.2.resolve_left h

theorem mem_below : x ∈ below xs last ↔ x ∈ xs ∧ ⊥ < x ∧ x < last := by
  rw [below, Finset.mem_filter, List.mem_toFinset]

theorem best_eq_bot : best xs last = ⊥ ↔ below xs last = ∅ := by
  rw [Finset.eq_empty_iff_forall_notMem]
  constructor
  · intro h x hx
    obtain ⟨hmem, hpos, hlt⟩ := mem_below.mp hx
    have hle := le_best hmem hlt
    rw [h] at hle
    exact absurd hpos (not_lt.mpr hle)
  · intro h
    by_contra hne
    obtain ⟨hmem, hlt⟩ := best_mem hne
    exact h _ (mem_below.mpr ⟨hmem, bot_lt_iff_ne_bot.mpr hne, hlt⟩)

/-- What is left below a selected value is all but that value. -/
theorem below_best (h : best xs last ≠ ⊥) :
    below xs (best xs last) = (below xs last).erase (best xs last) := by
  obtain ⟨-, hbest⟩ := best_mem h
  ext x
  rw [Finset.mem_erase, mem_below, mem_below]
  constructor
  · rintro ⟨hmem, hpos, hlt⟩
    exact ⟨hlt.ne, hmem, hpos, hlt.trans hbest⟩
  · rintro ⟨hne, hmem, hpos, hlt⟩
    exact ⟨hmem, hpos, lt_of_le_of_ne (le_best hmem hlt) hne⟩

@[simp] theorem length_descend (xs : List α) (n : ℕ) (last : α) :
    (descend xs n last).length = n := by
  induction n generalizing last with
  | zero => rfl
  | succ n ih => rw [descend, List.length_cons, ih]

/-- What is selected is in the list, below the bound. -/
theorem mem_descend (hx : x ∈ descend xs n last) (hpos : x ≠ ⊥) : x ∈ xs ∧ x < last := by
  induction n generalizing last with
  | zero => exact absurd hx List.not_mem_nil
  | succ n ih =>
      rcases List.mem_cons.mp hx with rfl | hx
      · exact best_mem hpos
      · obtain ⟨hmem, hlt⟩ := ih hx
        have hne : best xs last ≠ ⊥ := (lt_of_le_of_lt bot_le hlt).ne'
        exact ⟨hmem, hlt.trans (best_mem hne).2⟩

/-- Up to the first that is none, the selected values go down. -/
theorem pairwise_descend (xs : List α) (n : ℕ) (last : α) :
    ((descend xs n last).takeWhile fun x => decide (x ≠ ⊥)).Pairwise (· > ·) := by
  induction n generalizing last with
  | zero => exact List.Pairwise.nil
  | succ n ih =>
      rw [descend, List.takeWhile_cons]
      split
      case isTrue =>
        refine List.pairwise_cons.mpr ⟨fun x hx => ?_, ih _⟩
        have hne : x ≠ ⊥ := by simpa using List.mem_takeWhile_imp hx
        exact (mem_descend (List.takeWhile_sublist _ |>.subset hx) hne).2
      case isFalse => exact List.Pairwise.nil

/-- Some round has none to select exactly where there are fewer values than rounds. -/
theorem bot_mem_descend : ⊥ ∈ descend xs n last ↔ (below xs last).card < n := by
  induction n generalizing last with
  | zero => exact iff_of_false List.not_mem_nil (Nat.not_lt_zero _)
  | succ n ih =>
      rw [descend, List.mem_cons]
      by_cases h : best xs last = ⊥
      · have hempty := best_eq_bot.mp h
        rw [h, hempty, Finset.card_empty]
        exact iff_of_true (.inl rfl) (Nat.succ_pos n)
      · have hmem : best xs last ∈ below xs last := by
          obtain ⟨hmem, hlt⟩ := best_mem h
          exact mem_below.mpr ⟨hmem, bot_lt_iff_ne_bot.mpr h, hlt⟩
        have hcard := Finset.card_pos.mpr ⟨_, hmem⟩
        rw [or_iff_right (Ne.symm h), ih, below_best h, Finset.card_erase_of_mem hmem]
        omega

/-- There are as many values as the list is long where it has none twice, and all are in the
range. -/
theorem card_below_eq_length :
    (below xs last).card = xs.length ↔ xs.Nodup ∧ ∀ x ∈ xs, ⊥ < x ∧ x < last := by
  have hsub : below xs last ⊆ xs.toFinset := Finset.filter_subset _ _
  have hle : (below xs last).card ≤ xs.toFinset.card := Finset.card_le_card hsub
  have hlen := xs.toFinset_card_le
  constructor
  · intro h
    have hcard : xs.toFinset.card = xs.length := by omega
    have hnodup : (xs : Multiset α).Nodup := Multiset.toFinset_card_eq_card_iff_nodup.mp hcard
    refine ⟨Multiset.coe_nodup.mp hnodup, fun x hx => ?_⟩
    have heq : below xs last = xs.toFinset := Finset.eq_of_subset_of_card_le hsub (by omega)
    exact (mem_below.mp (heq ▸ List.mem_toFinset.mpr hx)).2
  · rintro ⟨hnodup, hall⟩
    have heq : below xs last = xs.toFinset :=
      Finset.filter_true_of_mem fun x hx => hall x (List.mem_toFinset.mp hx)
    rw [heq, List.toFinset_card_of_nodup hnodup]

end Selection
