/-
SqueezeliteMuse/Lib/Loop.lean

A loop that goes from state to state until it returns.

`run` is the loop, for so many rounds; `visited` are the states at the head of these rounds.  It
returns if a measure falls from each of them to the next (`run_of_falls`), and never returns once it
is among states that it cannot leave (`run_stuck`).
Nothing here is about a particular program.
-/
import Mathlib.Algebra.Order.Ring.Int
import Mathlib.Data.List.Basic
import Mathlib.Tactic.Common

namespace Loop

variable {σ ρ : Type*}

/-- The loop: a round returns, or goes on with another state; `none` when the rounds are used up. -/
def run (step : σ → ρ ⊕ σ) : ℕ → σ → Option ρ
  | 0, _ => none
  | fuel + 1, s =>
      match step s with
      | .inl r => some r
      | .inr s' => run step fuel s'

/-- The states at the head of the rounds. -/
def visited (step : σ → ρ ⊕ σ) : ℕ → σ → List σ
  | 0, _ => []
  | fuel + 1, s =>
      s :: match step s with
        | .inl _ => []
        | .inr s' => visited step fuel s'

variable {step : σ → ρ ⊕ σ} {s s' t : σ} {r : ρ} {n k : ℕ}

theorem run_inl (h : step s = .inl r) : run step (n + 1) s = some r := by
  rw [run, h]

theorem run_inr (h : step s = .inr s') : run step (n + 1) s = run step n s' := by
  rw [run, h]

theorem visited_inl (h : step s = .inl r) : visited step (n + 1) s = [s] := by
  rw [visited, h]

theorem visited_inr (h : step s = .inr s') : visited step (n + 1) s = s :: visited step n s' := by
  rw [visited, h]

/-- More rounds make no difference. -/
theorem run_mono (n : ℕ) : ∀ {s : σ} {k : ℕ}, run step n s = some r → n ≤ k →
    run step k s = some r := by
  induction n with
  | zero => exact fun h => by cases h
  | succ n ih =>
    intro s k h hle
    obtain ⟨k, rfl⟩ : ∃ j, k = j + 1 := ⟨k - 1, by omega⟩
    cases hstep : step s with
    | inl r' =>
      rw [run_inl hstep] at h ⊢
      exact h
    | inr s' =>
      rw [run_inr hstep] at h ⊢
      exact ih h (by omega)

theorem run_unique (h : run step n s = some r) {r' : ρ} (h' : run step k s = some r') : r = r' := by
  rcases Nat.le_total n k with hle | hle
  · exact Option.some.inj ((run_mono n h hle).symm.trans h')
  · exact Option.some.inj (h.symm.trans (run_mono k h' hle))

/-- The loop returns from a state it has come to. -/
theorem run_eq_some_iff (n : ℕ) : ∀ {s : σ},
    run step n s = some r ↔ ∃ t ∈ visited step n s, step t = .inl r := by
  induction n with
  | zero =>
    intro s
    constructor
    · intro h
      cases h
    · rintro ⟨t, ht, -⟩
      exact absurd ht List.not_mem_nil
  | succ n ih =>
    intro s
    cases hstep : step s with
    | inl r' =>
      rw [run_inl hstep, visited_inl hstep]
      constructor
      · rintro ⟨⟩
        exact ⟨s, List.mem_singleton_self s, hstep⟩
      · rintro ⟨t, ht, hr⟩
        rw [List.mem_singleton] at ht
        subst ht
        exact congrArg some (Sum.inl.inj (hstep.symm.trans hr))
    | inr s' =>
      rw [run_inr hstep, visited_inr hstep, ih]
      constructor
      · rintro ⟨t, ht, hr⟩
        exact ⟨t, List.mem_cons_of_mem s ht, hr⟩
      · rintro ⟨t, ht, hr⟩
        rcases List.mem_cons.mp ht with rfl | ht
        · exact absurd (hstep.symm.trans hr) (by simp)
        · exact ⟨t, ht, hr⟩

/-- What each round keeps, where something holds that holds of all states, holds of all states. -/
theorem visited_keeps_where {P Q : σ → Prop}
    (hkeep : ∀ t t', P t → Q t → step t = .inr t' → P t') (n : ℕ) :
    ∀ {s : σ}, (∀ t ∈ visited step n s, Q t) → P s → ∀ t ∈ visited step n s, P t := by
  induction n with
  | zero => exact fun _ _ _ h => absurd h List.not_mem_nil
  | succ n ih =>
    intro s hQ hs t ht
    cases hstep : step s with
    | inl r =>
      rw [visited_inl hstep, List.mem_singleton] at ht
      exact ht ▸ hs
    | inr s' =>
      rw [visited_inr hstep] at ht hQ
      rcases List.mem_cons.mp ht with rfl | ht
      · exact hs
      · exact ih (fun t ht => hQ t (List.mem_cons_of_mem s ht))
          (hkeep s s' hs (hQ s List.mem_cons_self) hstep) t ht

/-- What each round keeps holds of all states. -/
theorem visited_keeps {P : σ → Prop} (hkeep : ∀ t t', P t → step t = .inr t' → P t') (n : ℕ)
    {s : σ} (hs : P s) : ∀ t ∈ visited step n s, P t :=
  visited_keeps_where (Q := fun _ => True) (fun t t' ht _ => hkeep t t' ht) n
    (fun _ _ => trivial) hs

/-- A loop that falls from state to state returns. -/
theorem run_of_falls (left : σ → ℕ) (n : ℕ) : ∀ {s : σ},
    (∀ t ∈ visited step n s, ∀ t', step t = .inr t' → left t' < left t) → left s < n →
    ∃ r, run step n s = some r := by
  induction n with
  | zero => exact fun _ h => absurd h (Nat.not_lt_zero _)
  | succ n ih =>
    intro s hfalls hlt
    cases hstep : step s with
    | inl r => exact ⟨r, run_inl hstep⟩
    | inr s' =>
      rw [visited_inr hstep] at hfalls
      have hnext := hfalls s (List.mem_cons_self ..) s' hstep
      rw [run_inr hstep]
      exact ih (fun t ht => hfalls t (List.mem_cons_of_mem s ht)) (by omega)

/-- A loop whose rounds keep an invariant, and fall as long as they go on, returns from a state with
the invariant. -/
theorem run_ends {P : σ → Prop} (left : σ → ℕ)
    (hstep : ∀ t, P t → (∃ r, step t = .inl r) ∨ ∃ t', step t = .inr t' ∧ P t' ∧ left t' < left t)
    {s : σ} (hs : P s) : ∃ n r t, run step n s = some r ∧ P t ∧ step t = .inl r := by
  induction hleft : left s using Nat.strongRecOn generalizing s with
  | _ m ih =>
    rcases hstep s hs with ⟨r, hr⟩ | ⟨s', hs', hP, hlt⟩
    · exact ⟨1, r, s, run_inl hr, hs, hr⟩
    · obtain ⟨n, r, t, hrun, ht⟩ := ih (left s') (hleft ▸ hlt) hP rfl
      exact ⟨n + 1, r, t, (run_inr hs').trans hrun, ht⟩

/-- A loop that returns comes to no other states, however many rounds it may take. -/
theorem visited_of_run (n : ℕ) : ∀ {s : σ}, run step n s = some r →
    ∀ k, ∀ t ∈ visited step k s, t ∈ visited step n s := by
  induction n with
  | zero => exact fun h => by cases h
  | succ n ih =>
    intro s h k t ht
    cases k with
    | zero => exact absurd ht List.not_mem_nil
    | succ k =>
      cases hstep : step s with
      | inl r' =>
        rw [visited_inl hstep] at ht ⊢
        exact ht
      | inr s' =>
        rw [run_inr hstep] at h
        rw [visited_inr hstep] at ht ⊢
        rcases List.mem_cons.mp ht with rfl | ht
        · exact List.mem_cons_self ..
        · exact List.mem_cons_of_mem _ (ih h k t ht)

theorem run_trapped {P : σ → Prop} (htrap : ∀ t, P t → ∃ t', step t = .inr t' ∧ P t') (k : ℕ) :
    ∀ {s : σ}, P s → run step k s = none := by
  induction k with
  | zero => exact fun _ => rfl
  | succ k ih =>
    intro s hs
    obtain ⟨s', hstep, hs'⟩ := htrap s hs
    rw [run_inr hstep]
    exact ih hs'

/-- A loop that comes to states it cannot leave never returns. -/
theorem run_stuck {P : σ → Prop} (htrap : ∀ t, P t → ∃ t', step t = .inr t' ∧ P t') (n : ℕ) :
    ∀ {s : σ}, t ∈ visited step n s → P t → ∀ k, run step k s = none := by
  induction n with
  | zero => exact fun h => absurd h List.not_mem_nil
  | succ n ih =>
    intro s ht hP k
    cases hstep : step s with
    | inl r =>
      rw [visited_inl hstep, List.mem_singleton] at ht
      exact run_trapped htrap k (ht ▸ hP)
    | inr s' =>
      rw [visited_inr hstep] at ht
      rcases List.mem_cons.mp ht with rfl | ht
      · exact run_trapped htrap k hP
      · cases k with
        | zero => rfl
        | succ k =>
          rw [run_inr hstep]
          exact ih ht hP k

end Loop
