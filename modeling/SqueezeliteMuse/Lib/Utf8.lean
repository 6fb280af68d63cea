/-
SqueezeliteMuse/Lib/Utf8.lean

UTF-8: how a character is encoded, and how a string of bytes reads.

A character is the number of its code point (`Scalar`).  A string `Reads` as the characters that
are encoded in it, from the front on; where none begins, one byte is passed over, and stands as
`none`.  Every string reads in exactly one way (`exists_reads`), since no encoding is the beginning
of another (`eq_of_begins`).  The encodings of each length are the bytes in certain ranges (`enc_two`
and its like), and there are no others (`enc_cases`).
Nothing here is about a particular program.
-/
import Mathlib.Algebra.Order.Ring.Int
import Mathlib.Data.List.Basic
import Mathlib.Tactic.Common

namespace Utf8

/-! ### Characters and their encodings -/

/-- The code points that are characters: no surrogates, and none behind the last. -/
def Scalar (v : ℕ) : Prop := v < 0xD800 ∨ 0xE000 ≤ v ∧ v < 0x110000

/-- A byte behind the first one: six bits. -/
def tail (v : ℕ) : UInt8 := UInt8.ofNat (0x80 + v % 64)

/-- The encoding of a character. -/
def enc (v : ℕ) : List UInt8 :=
  if v < 0x80 then [UInt8.ofNat v]
  else if v < 0x800 then [UInt8.ofNat (0xC0 + v / 64), tail v]
  else if v < 0x10000 then [UInt8.ofNat (0xE0 + v / 4096), tail (v / 64), tail v]
  else [UInt8.ofNat (0xF0 + v / 262144), tail (v / 4096), tail (v / 64), tail v]

/-- A byte in a range. -/
def In (lo hi : ℕ) (c : UInt8) : Prop := lo ≤ c.toNat ∧ c.toNat ≤ hi

instance (lo hi : ℕ) (c : UInt8) : Decidable (In lo hi c) :=
  inferInstanceAs (Decidable (_ ∧ _))

variable {v w : ℕ} {a b c d : UInt8}

theorem ofNat_eq_iff (n : ℕ) : UInt8.ofNat n = a ↔ n % 256 = a.toNat := by
  rw [← UInt8.toNat_inj, UInt8.toNat_ofNat']

theorem tail_eq_iff : tail v = a ↔ 0x80 + v % 64 = a.toNat := by
  rw [tail, ofNat_eq_iff, Nat.mod_eq_of_lt (by omega)]

theorem enc_one (h : a.toNat < 0x80) : enc a.toNat = [a] := by
  rw [enc, if_pos h, UInt8.ofNat_toNat]

theorem enc_two (ha : In 0xC2 0xDF a) (hb : In 0x80 0xBF b) :
    ∃ v, Scalar v ∧ enc v = [a, b] := by
  obtain ⟨ha₁, ha₂⟩ := ha
  obtain ⟨hb₁, hb₂⟩ := hb
  refine ⟨(a.toNat - 0xC0) * 64 + (b.toNat - 0x80), Or.inl (by omega), ?_⟩
  rw [enc, if_neg (by omega), if_pos (by omega), (ofNat_eq_iff _).mpr (by omega : _ = a.toNat),
    tail_eq_iff.mpr (by omega : _ = b.toNat)]

theorem enc_three (ha : In 0xE0 0xEF a) (hb : In 0x80 0xBF b) (hc : In 0x80 0xBF c)
    (hlow : a.toNat = 0xE0 → 0xA0 ≤ b.toNat) (hhigh : a.toNat = 0xED → b.toNat ≤ 0x9F) :
    ∃ v, Scalar v ∧ enc v = [a, b, c] := by
  obtain ⟨ha₁, ha₂⟩ := ha
  obtain ⟨hb₁, hb₂⟩ := hb
  obtain ⟨hc₁, hc₂⟩ := hc
  refine ⟨((a.toNat - 0xE0) * 64 + (b.toNat - 0x80)) * 64 + (c.toNat - 0x80), ?_, ?_⟩
  · unfold Scalar
    omega
  · rw [enc, if_neg (by omega), if_neg (by omega), if_pos (by omega),
      (ofNat_eq_iff _).mpr (by omega : _ = a.toNat), tail_eq_iff.mpr (by omega : _ = b.toNat),
      tail_eq_iff.mpr (by omega : _ = c.toNat)]

theorem enc_four (ha : In 0xF0 0xF4 a) (hb : In 0x80 0xBF b) (hc : In 0x80 0xBF c)
    (hd : In 0x80 0xBF d) (hlow : a.toNat = 0xF0 → 0x90 ≤ b.toNat)
    (hhigh : a.toNat = 0xF4 → b.toNat ≤ 0x8F) :
    ∃ v, Scalar v ∧ enc v = [a, b, c, d] := by
  obtain ⟨ha₁, ha₂⟩ := ha
  obtain ⟨hb₁, hb₂⟩ := hb
  obtain ⟨hc₁, hc₂⟩ := hc
  obtain ⟨hd₁, hd₂⟩ := hd
  refine ⟨(((a.toNat - 0xF0) * 64 + (b.toNat - 0x80)) * 64 + (c.toNat - 0x80)) * 64 +
    (d.toNat - 0x80), ?_, ?_⟩
  · unfold Scalar
    omega
  · rw [enc, if_neg (by omega), if_neg (by omega), if_neg (by omega),
      (ofNat_eq_iff _).mpr (by omega : _ = a.toNat), tail_eq_iff.mpr (by omega : _ = b.toNat),
      tail_eq_iff.mpr (by omega : _ = c.toNat), tail_eq_iff.mpr (by omega : _ = d.toNat)]

/-- There are no other encodings. -/
theorem enc_cases (h : Scalar v) :
    (∃ a, enc v = [a] ∧ a.toNat < 0x80 ∧ v = a.toNat) ∨
    (∃ a b, enc v = [a, b] ∧ In 0xC2 0xDF a ∧ In 0x80 0xBF b ∧
      v = (a.toNat - 0xC0) * 64 + (b.toNat - 0x80)) ∨
    (∃ a b c, enc v = [a, b, c] ∧ In 0xE0 0xEF a ∧ In 0x80 0xBF b ∧ In 0x80 0xBF c ∧
      (a.toNat = 0xE0 → 0xA0 ≤ b.toNat) ∧ (a.toNat = 0xED → b.toNat ≤ 0x9F) ∧
      v = ((a.toNat - 0xE0) * 64 + (b.toNat - 0x80)) * 64 + (c.toNat - 0x80)) ∨
    ∃ a b c d, enc v = [a, b, c, d] ∧ In 0xF0 0xF4 a ∧ In 0x80 0xBF b ∧ In 0x80 0xBF c ∧
      In 0x80 0xBF d ∧ (a.toNat = 0xF0 → 0x90 ≤ b.toNat) ∧ (a.toNat = 0xF4 → b.toNat ≤ 0x8F) ∧
      v = (((a.toNat - 0xF0) * 64 + (b.toNat - 0x80)) * 64 + (c.toNat - 0x80)) * 64 +
        (d.toNat - 0x80) := by
  have hlead : ∀ n, n < 256 → (UInt8.ofNat n).toNat = n := fun n hn => by
    rw [UInt8.toNat_ofNat', Nat.mod_eq_of_lt hn]
  have htail : ∀ n, (tail n).toNat = 0x80 + n % 64 := fun n => (tail_eq_iff.mp rfl).symm
  unfold Scalar at h
  unfold enc In
  split
  case isTrue h₁ =>
    refine Or.inl ⟨_, rfl, ?_⟩
    rw [hlead _ (by omega)]
    omega
  case isFalse h₁ =>
    split
    case isTrue h₂ =>
      refine Or.inr (Or.inl ⟨_, _, rfl, ?_⟩)
      rw [hlead _ (by omega), htail]
      omega
    case isFalse h₂ =>
      split
      case isTrue h₃ =>
        refine Or.inr (Or.inr (Or.inl ⟨_, _, _, rfl, ?_⟩))
        rw [hlead _ (by omega), htail, htail]
        omega
      case isFalse h₃ =>
        refine Or.inr (Or.inr (Or.inr ⟨_, _, _, _, rfl, ?_⟩))
        rw [hlead _ (by omega), htail, htail, htail]
        omega

theorem enc_ne_nil (v : ℕ) : enc v ≠ [] := by
  unfold enc
  split_ifs <;> exact List.cons_ne_nil _ _

/-- What is encoded, by the bytes. -/
def value : List UInt8 → ℕ
  | [a] => a.toNat
  | [a, b] => (a.toNat - 0xC0) * 64 + (b.toNat - 0x80)
  | [a, b, c] => ((a.toNat - 0xE0) * 64 + (b.toNat - 0x80)) * 64 + (c.toNat - 0x80)
  | [a, b, c, d] =>
      (((a.toNat - 0xF0) * 64 + (b.toNat - 0x80)) * 64 + (c.toNat - 0x80)) * 64 + (d.toNat - 0x80)
  | _ => 0

theorem value_enc (h : Scalar v) : value (enc v) = v := by
  rcases enc_cases h with ⟨a, he, -, hv⟩ | ⟨a, b, he, -, -, hv⟩ |
    ⟨a, b, c, he, -, -, -, -, -, hv⟩ | ⟨a, b, c, d, he, -, -, -, -, -, -, hv⟩
  all_goals
    rw [he]
    exact hv.symm

/-- How many bytes an encoding has, by the first. -/
def width (a : UInt8) : ℕ :=
  if a.toNat < 0x80 then 1 else if a.toNat < 0xE0 then 2 else if a.toNat < 0xF0 then 3 else 4

theorem length_enc (h : Scalar v) : ∃ a t, enc v = a :: t ∧ (enc v).length = width a := by
  unfold width
  rcases enc_cases h with ⟨a, he, ha, -⟩ | ⟨a, b, he, ⟨ha₁, ha₂⟩, -⟩ |
    ⟨a, b, c, he, ⟨ha₁, ha₂⟩, -⟩ | ⟨a, b, c, d, he, ⟨ha₁, ha₂⟩, -⟩
  · exact ⟨a, _, he, by rw [he, if_pos ha]; rfl⟩
  · exact ⟨a, _, he, by rw [he, if_neg (by omega), if_pos (by omega)]; rfl⟩
  · exact ⟨a, _, he, by rw [he, if_neg (by omega), if_neg (by omega), if_pos (by omega)]; rfl⟩
  · exact ⟨a, _, he, by rw [he, if_neg (by omega), if_neg (by omega), if_neg (by omega)]; rfl⟩

/-- No encoding is the beginning of another. -/
theorem eq_of_begins (hv : Scalar v) (hw : Scalar w) (h : enc v <+: enc w) : v = w := by
  obtain ⟨a, t, ha, hlen⟩ := length_enc hv
  obtain ⟨a', t', ha', hlen'⟩ := length_enc hw
  have hhead : a = a' := by
    rw [ha, ha'] at h
    exact (List.cons_prefix_cons.mp h).1
  have heq := h.eq_of_length (by rw [hlen, hlen', hhead])
  rw [← value_enc hv, heq, value_enc hw]

/-! ### Reading a string -/

/-- What a string reads as: its characters, and `none` for a byte where no character begins. -/
inductive Reads : List UInt8 → List (Option ℕ) → Prop
  | nil : Reads [] []
  | char {v s ps} : Scalar v → Reads s ps → Reads (enc v ++ s) (some v :: ps)
  | junk {c s ps} : (∀ v, Scalar v → ¬ enc v <+: c :: s) → Reads s ps →
      Reads (c :: s) (none :: ps)

theorem reads_total (n : ℕ) : ∀ s : List UInt8, s.length < n → ∃ ps, Reads s ps := by
  induction n with
  | zero => exact fun _ h => absurd h (Nat.not_lt_zero _)
  | succ n ih =>
    intro s hlen
    rcases s with - | ⟨c, s⟩
    · exact ⟨[], .nil⟩
    · by_cases h : ∃ v, Scalar v ∧ enc v <+: c :: s
      · obtain ⟨v, hv, t, ht⟩ := h
        have hpos := List.length_pos_of_ne_nil (enc_ne_nil v)
        have hsum := congrArg List.length ht
        rw [List.length_append] at hsum
        obtain ⟨ps, hps⟩ := ih t (by omega)
        exact ⟨some v :: ps, ht ▸ .char hv hps⟩
      · obtain ⟨ps, hps⟩ := ih s (by rw [List.length_cons] at hlen; omega)
        exact ⟨none :: ps, .junk (fun v hv hpre => h ⟨v, hv, hpre⟩) hps⟩

theorem Reads.unique {s : List UInt8} {ps qs : List (Option ℕ)} (h : Reads s ps)
    (h' : Reads s qs) : qs = ps := by
  induction h generalizing qs with
  | nil =>
    generalize hs : ([] : List UInt8) = s at h'
    cases h' with
    | nil => rfl
    | char => exact absurd (List.append_eq_nil_iff.mp hs.symm).1 (enc_ne_nil _)
    | junk => cases hs
  | @char v s ps hv _ ih =>
    generalize hs : enc v ++ s = s' at h'
    cases h' with
    | nil => exact absurd (List.append_eq_nil_iff.mp hs).1 (enc_ne_nil v)
    | @char w t _ hw ht =>
      obtain rfl : v = w := by
        have hpre : enc v <+: enc w ++ t := ⟨s, hs⟩
        rcases List.prefix_or_prefix_of_prefix hpre (List.prefix_append (enc w) t) with h | h
        · exact eq_of_begins hv hw h
        · exact (eq_of_begins hw hv h).symm
      obtain rfl := List.append_cancel_left hs
      rw [ih ht]
    | junk hno => exact absurd ⟨s, hs⟩ (hno v hv)
  | @junk c s ps hno _ ih =>
    generalize hs : c :: s = s' at h'
    cases h' with
    | nil => cases hs
    | @char w t _ hw => exact absurd ⟨t, hs.symm⟩ (hno w hw)
    | junk _ ht =>
      obtain ⟨rfl, rfl⟩ := List.cons.inj hs
      rw [ih ht]

/-- Every string reads in one way. -/
theorem exists_reads (s : List UInt8) : ∃ ps, ∀ qs, Reads s qs ↔ qs = ps := by
  obtain ⟨ps, hps⟩ := reads_total (s.length + 1) s (Nat.lt_succ_self _)
  exact ⟨ps, fun qs => ⟨hps.unique, fun h => h ▸ hps⟩⟩

end Utf8
