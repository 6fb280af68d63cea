/-
SqueezeliteMuse/Lib/Painting.lean

Operations that set bits of a memory.

`Paints g S v` says that `g` gives the bits of `S` the values that `v` has for them, and leaves the
others.  Such operations compose, over lists as well, and two of them that paint with the same
values are the same if they paint the same bits; only then, even, as the memory is arbitrary.
`Acts g a k φ` follows a single bit, through operations that toggle it as well, and `Flips g a k`
says that nothing else is done to it.
Nothing here is about a particular program.
-/
import Mathlib.Algebra.Order.Ring.Int
import Mathlib.Data.List.Basic
import Mathlib.Logic.Function.Basic
import Mathlib.Tactic.Common

namespace Painting

/-- A bit of a byte of the memory. -/
def bit (f : ℕ → UInt8) (a k : ℕ) : Bool := (f a).toBitVec.getLsbD k

theorem memory_ext {f g : ℕ → UInt8} (h : ∀ a k, k < 8 → bit f a k = bit g a k) : f = g := by
  funext a
  exact UInt8.toBitVec_inj.mp (BitVec.eq_of_getLsbD_eq fun k hk => h a k hk)

/-- `memset` -/
def memset (f : ℕ → UInt8) (a : ℕ) (x : UInt8) (n : ℕ) : ℕ → UInt8 := fun i =>
  if a ≤ i ∧ i < a + n then x else f i

/-- The operation gives the bits of `S` the values `v`, and leaves the others. -/
structure Paints (g : (ℕ → UInt8) → ℕ → UInt8) (S : ℕ → ℕ → Prop) (v : ℕ → ℕ → Bool) : Prop where
  inside : ∀ f a k, k < 8 → S a k → bit (g f) a k = v a k
  outside : ∀ f a k, k < 8 → ¬ S a k → bit (g f) a k = bit f a k

namespace Paints

variable {g g' : (ℕ → UInt8) → ℕ → UInt8} {S S' : ℕ → ℕ → Prop} {v v' : ℕ → ℕ → Bool}

protected theorem id : Paints id (fun _ _ => False) v where
  inside _ _ _ _ h := h.elim
  outside _ _ _ _ _ := rfl

/-- Only what is painted, and how, matters. -/
theorem congr (h : Paints g S v) (hS : ∀ a k, k < 8 → (S a k ↔ S' a k))
    (hv : ∀ a k, k < 8 → S a k → v a k = v' a k) : Paints g S' v' where
  inside f a k hk hin := by
    have hin' := (hS a k hk).mpr hin
    rw [h.inside f a k hk hin', hv a k hk hin']
  outside f a k hk hout := h.outside f a k hk fun hin => hout ((hS a k hk).mp hin)

/-- One operation after the other. -/
theorem comp (h : Paints g S v) (h' : Paints g' S' v) :
    Paints (fun f => g' (g f)) (fun a k => S a k ∨ S' a k) v where
  inside f a k hk hin := by
    by_cases hlast : S' a k
    · exact h'.inside (g f) a k hk hlast
    · rw [h'.outside (g f) a k hk hlast]
      exact h.inside f a k hk (hin.resolve_right hlast)
  outside f a k hk hout := by
    rw [h'.outside (g f) a k hk fun hin => hout (.inr hin)]
    exact h.outside f a k hk fun hin => hout (.inl hin)

/-- An operation on a condition. -/
theorem onlyIf (h : Paints g S v) (P : Prop) [Decidable P] :
    Paints (fun f => if P then g f else f) (fun a k => P ∧ S a k) v where
  inside f a k hk hin := by
    rw [if_pos hin.1]
    exact h.inside f a k hk hin.2
  outside f a k hk hout := by
    split
    case isTrue hP => exact h.outside f a k hk fun hin => hout ⟨hP, hin⟩
    case isFalse => rfl

/-- One operation for each member of a list. -/
theorem foldl {ι : Type*} {op : ι → (ℕ → UInt8) → ℕ → UInt8} {T : ι → ℕ → ℕ → Prop}
    (l : List ι) (h : ∀ p ∈ l, Paints (op p) (T p) v) :
    Paints (fun f => l.foldl (fun f p => op p f) f) (fun a k => ∃ p ∈ l, T p a k) v := by
  induction l with
  | nil =>
    refine (Paints.id (v := v)).congr (fun a k _ => ?_) fun _ _ _ _ => rfl
    exact ⟨False.elim, fun ⟨_, hp, _⟩ => absurd hp List.not_mem_nil⟩
  | cons p l ih =>
    have hrest := ih fun q hq => h q (List.mem_cons_of_mem p hq)
    refine ((h p List.mem_cons_self).comp hrest).congr (fun a k _ => ?_) fun _ _ _ _ => rfl
    exact (List.exists_mem_cons_iff (fun q => T q a k) p l).symm

/-- Operations that paint the same with the same values are the same. -/
theorem unique (h : Paints g S v) (h' : Paints g' S v) : g = g' := by
  funext f
  refine memory_ext fun a k hk => ?_
  by_cases hin : S a k
  · rw [h.inside f a k hk hin, h'.inside f a k hk hin]
  · rw [h.outside f a k hk hin, h'.outside f a k hk hin]

/-- A memory all of whose bits are the same. -/
theorem exists_bit (b : Bool) : ∃ f : ℕ → UInt8, ∀ a k, k < 8 → bit f a k = b := by
  cases b with
  | false => exact ⟨fun _ => 0, fun a k _ => BitVec.getLsbD_zero⟩
  | true => exact ⟨fun _ => 255, fun a k hk => by
      have hones : (255 : UInt8).toBitVec = BitVec.allOnes 8 := rfl
      rw [bit, hones, BitVec.getLsbD_allOnes, decide_eq_true hk]⟩

/-- The same operation paints no other bits. -/
theorem mem_of_eq (h : Paints g S v) (h' : Paints g' S' v') (heq : g = g') {a k : ℕ} (hk : k < 8)
    (hin : S a k) : S' a k := by
  by_contra hout
  obtain ⟨f, hf⟩ := exists_bit (!v a k)
  have hval := h.inside f a k hk hin
  rw [heq, h'.outside f a k hk hout, hf a k hk] at hval
  exact (Bool.not_eq_self _).mp hval

/-- The same operation paints with the same values. -/
theorem val_of_eq (h : Paints g S v) (h' : Paints g' S' v') (heq : g = g') {a k : ℕ} (hk : k < 8)
    (hin : S a k) : v a k = v' a k := by
  have hin' := h.mem_of_eq h' heq hk hin
  obtain ⟨f, -⟩ := exists_bit true
  rw [← h.inside f a k hk hin, heq, h'.inside f a k hk hin']

/-- Bytes that are all the same. -/
theorem memset (a : ℕ) (x : UInt8) (n : ℕ)
    (hx : ∀ i k, k < 8 → a ≤ i ∧ i < a + n → x.toBitVec.getLsbD k = v i k) :
    Paints (fun f => Painting.memset f a x n) (fun i _ => a ≤ i ∧ i < a + n) v where
  inside f i k hk hin := by
    rw [bit, Painting.memset, if_pos hin]
    exact hx i k hk hin
  outside f i k hk hout := by
    rw [bit, Painting.memset, if_neg hout, bit]

/-- A byte that is changed, in some of its bits. -/
theorem update (a : ℕ) (new : UInt8 → UInt8) (T : ℕ → Prop)
    (hin : ∀ x k, k < 8 → T k → (new x).toBitVec.getLsbD k = v a k)
    (hout : ∀ x k, k < 8 → ¬ T k → (new x).toBitVec.getLsbD k = x.toBitVec.getLsbD k) :
    Paints (fun f => Function.update f a (new (f a))) (fun i k => i = a ∧ T k) v where
  inside f i k hk h := by
    obtain ⟨rfl, hT⟩ := h
    rw [bit, Function.update_self]
    exact hin _ k hk hT
  outside f i k hk h := by
    by_cases hi : i = a
    · subst hi
      rw [bit, Function.update_self]
      exact hout _ k hk fun hT => h ⟨rfl, hT⟩
    · rw [bit, Function.update_of_ne hi, bit]

end Paints

/-! ### One bit -/

/-- What the operation makes of one bit. -/
def Acts (g : (ℕ → UInt8) → ℕ → UInt8) (a k : ℕ) (φ : Bool → Bool) : Prop :=
  ∀ f, bit (g f) a k = φ (bit f a k)

namespace Acts

variable {g g' : (ℕ → UInt8) → ℕ → UInt8} {a k : ℕ} {φ ψ : Bool → Bool}

theorem comp (h : Acts g a k φ) (h' : Acts g' a k ψ) :
    Acts (fun f => g' (g f)) a k fun b => ψ (φ b) := fun f => by rw [h', h]

/-- Operations that all leave the bit. -/
theorem foldl_id {ι : Type*} {op : ι → (ℕ → UInt8) → ℕ → UInt8} (l : List ι)
    (h : ∀ p ∈ l, Acts (op p) a k id) : Acts (fun f => l.foldl (fun f p => op p f) f) a k id := by
  induction l with
  | nil => exact fun _ => rfl
  | cons p l ih =>
    exact (h p List.mem_cons_self).comp (ih fun q hq => h q (List.mem_cons_of_mem p hq))

/-- Operations of which only one takes the bit. -/
theorem foldl_one {ι : Type*} {op : ι → (ℕ → UInt8) → ℕ → UInt8} {p : ι} {l : List ι}
    (hp : p ∈ l) (hnodup : l.Nodup) (hone : Acts (op p) a k φ)
    (hid : ∀ q ∈ l, q ≠ p → Acts (op q) a k id) :
    Acts (fun f => l.foldl (fun f p => op p f) f) a k φ := by
  induction l with
  | nil => exact absurd hp List.not_mem_nil
  | cons q l ih =>
    obtain ⟨hnot, hnodup'⟩ := List.nodup_cons.mp hnodup
    have hrest : ∀ q' ∈ l, q' ≠ p → Acts (op q') a k id := fun q' hq' =>
      hid q' (List.mem_cons_of_mem q hq')
    rcases List.mem_cons.mp hp with rfl | hmem
    · exact hone.comp (foldl_id l fun q' hq' => hrest q' hq' fun h => hnot (h ▸ hq'))
    · have hne : q ≠ p := fun h => hnot (h ▸ hmem)
      exact (hid q List.mem_cons_self hne).comp (ih hmem hnodup' hrest)

/-- What paints the bit makes it what it is painted, and what does not leaves it. -/
theorem of_paints {S : ℕ → ℕ → Prop} {v : ℕ → ℕ → Bool} (h : Paints g S v) (hk : k < 8) :
    (S a k → Acts g a k fun _ => v a k) ∧ (¬ S a k → Acts g a k id) :=
  ⟨fun hin f => h.inside f a k hk hin, fun hout f => h.outside f a k hk hout⟩

/-- A bit of a byte that is toggled, and no other. -/
theorem toggle (i n : ℕ) (x : UInt8) (hx : ∀ k, k < 8 → x.toBitVec.getLsbD k = decide (n = k))
    (hk : k < 8) :
    Acts (fun f => Function.update f i (f i ^^^ x)) a k
      (if a = i ∧ k = n then Bool.not else id) := by
  intro f
  change bit (Function.update f i (f i ^^^ x)) a k = _
  by_cases hi : a = i
  · subst hi
    rw [bit, Function.update_self, UInt8.toBitVec_xor, BitVec.getLsbD_xor, hx k hk, bit]
    by_cases hn : k = n
    · rw [if_pos ⟨rfl, hn⟩, decide_eq_true hn.symm, Bool.xor_true]
    · rw [if_neg fun h => hn h.2, decide_eq_false (Ne.symm hn), Bool.xor_false, id]
  · rw [if_neg fun h => hi h.1, bit, Function.update_of_ne hi, bit, id]

end Acts

/-- The bit is kept or toggled. -/
def Flips (g : (ℕ → UInt8) → ℕ → UInt8) (a k : ℕ) : Prop := Acts g a k id ∨ Acts g a k Bool.not

namespace Flips

variable {g g' : (ℕ → UInt8) → ℕ → UInt8} {a k : ℕ}

theorem comp (h : Flips g a k) (h' : Flips g' a k) : Flips (fun f => g' (g f)) a k := by
  have hnot : (fun b : Bool => Bool.not (Bool.not b)) = id := funext Bool.not_not
  rcases h with h | h <;> rcases h' with h' | h'
  · exact .inl (h.comp h')
  · exact .inr (h.comp h')
  · exact .inr (h.comp h')
  · exact .inl (hnot ▸ h.comp h')

theorem foldl {ι : Type*} {op : ι → (ℕ → UInt8) → ℕ → UInt8} (l : List ι)
    (h : ∀ p ∈ l, Flips (op p) a k) : Flips (fun f => l.foldl (fun f p => op p f) f) a k := by
  induction l with
  | nil => exact .inl fun _ => rfl
  | cons p l ih =>
    exact (h p List.mem_cons_self).comp (ih fun q hq => h q (List.mem_cons_of_mem p hq))

/-- What paints the bit does not. -/
theorem not_paints {S : ℕ → ℕ → Prop} {v : ℕ → ℕ → Bool} (h : Flips g a k) (hk : k < 8)
    (hin : S a k) : ¬ Paints g S v := by
  intro hpaint
  obtain ⟨f, hf⟩ := Paints.exists_bit (v a k)
  obtain ⟨f', hf'⟩ := Paints.exists_bit (!v a k)
  have hval := hpaint.inside f a k hk hin
  have hval' := hpaint.inside f' a k hk hin
  rcases h with h | h
  · rw [h f', hf' a k hk, id] at hval'
    exact (Bool.not_eq_self _).mp hval'
  · rw [h f, hf a k hk] at hval
    exact (Bool.not_eq_self _).mp hval

end Flips

end Painting
