/-
SqueezeliteMuse/Utf8.lean

`utf8_decode` of tools.c: a string of UTF-8 is converted to CP1252 in its own place.

An automaton (`utf8d`) takes byte after byte.  It has a state for an error, which it never leaves,
so nothing behind an invalid byte is converted any more.  A character that has no byte in CP1252 is
written as a NUL, which ends the text there; of a character above 16 bits the lower 16 are
converted.

Main result: `utf8_decode_iff`: the characters of a string are converted one by one, if and only if
no character that has a byte stands behind an invalid byte, or behind a character that has none.
-/
import SqueezeliteMuse.Lib.CString
import SqueezeliteMuse.Lib.Loop
import SqueezeliteMuse.Lib.Octets
import SqueezeliteMuse.Lib.Utf8

namespace SqueezeliteMuse

namespace Cp1252

open Octets Ring Utf8

/-! ### The code -/

/-- `utf8d`: the types of the 256 bytes, and then for each state the next one by the type. -/
def utf8d : List UInt8 := [
  0,0,0,0,0,0,0,0,0,0,0,0,0,0,0,0,0,0,0,0,0,0,0,0,0,0,0,0,0,0,0,0, -- 00..1f
  0,0,0,0,0,0,0,0,0,0,0,0,0,0,0,0,0,0,0,0,0,0,0,0,0,0,0,0,0,0,0,0, -- 20..3f
  0,0,0,0,0,0,0,0,0,0,0,0,0,0,0,0,0,0,0,0,0,0,0,0,0,0,0,0,0,0,0,0, -- 40..5f
  0,0,0,0,0,0,0,0,0,0,0,0,0,0,0,0,0,0,0,0,0,0,0,0,0,0,0,0,0,0,0,0, -- 60..7f
  1,1,1,1,1,1,1,1,1,1,1,1,1,1,1,1,9,9,9,9,9,9,9,9,9,9,9,9,9,9,9,9, -- 80..9f
  7,7,7,7,7,7,7,7,7,7,7,7,7,7,7,7,7,7,7,7,7,7,7,7,7,7,7,7,7,7,7,7, -- a0..bf
  8,8,2,2,2,2,2,2,2,2,2,2,2,2,2,2,2,2,2,2,2,2,2,2,2,2,2,2,2,2,2,2, -- c0..df
  0xa,0x3,0x3,0x3,0x3,0x3,0x3,0x3,0x3,0x3,0x3,0x3,0x3,0x4,0x3,0x3, -- e0..ef
  0xb,0x6,0x6,0x6,0x5,0x8,0x8,0x8,0x8,0x8,0x8,0x8,0x8,0x8,0x8,0x8, -- f0..ff
  0x0,0x1,0x2,0x3,0x5,0x8,0x7,0x1,0x1,0x1,0x4,0x6,0x1,0x1,0x1,0x1, -- s0..s0
  1,1,1,1,1,1,1,1,1,1,1,1,1,1,1,1,1,0,1,1,1,1,1,0,1,0,1,1,1,1,1,1, -- s1..s2
  1,2,1,1,1,1,1,2,1,2,1,1,1,1,1,1,1,1,1,1,1,1,1,2,1,1,1,1,1,1,1,1, -- s3..s4
  1,2,1,1,1,1,1,1,1,2,1,1,1,1,1,1,1,1,1,1,1,1,1,3,1,3,1,1,1,1,1,1, -- s5..s6
  1,3,1,1,1,1,1,3,1,3,1,1,1,1,1,1,1,3,1,1,1,1,1,1,1,1,1,1,1,1,1,1] -- s7..s8

/-- `UTF8_ACCEPT` -/
def utf8Accept : UInt32 := 0

/-- `decode`: the state and the code point after a byte. -/
def decode (state codep byte : UInt32) : UInt32 × UInt32 :=
  let type := (utf8d.getD byte.toNat 0).toUInt32
  let codep : UInt32 :=
    if state ≠ utf8Accept then (byte &&& (0x3f : UInt32)) ||| (codep <<< 6)
    else (0xff >>> type) &&& byte
  ((utf8d.getD (256 + state * 16 + type).toNat 0).toUInt32, codep)

/-- `UNICODEtoCP1252` -/
def unicodeToCP1252 (chr : UInt16) : UInt8 :=
  if chr ≤ 0xff then (chr &&& 0xff).toUInt8
  else
    match chr.toNat with
    | 0x20ac => 0x80
    | 0x201a => 0x82
    | 0x0192 => 0x83
    | 0x201e => 0x84
    | 0x2026 => 0x85
    | 0x2020 => 0x86
    | 0x2021 => 0x87
    | 0x02c6 => 0x88
    | 0x2030 => 0x89
    | 0x0160 => 0x8a
    | 0x2039 => 0x8b
    | 0x0152 => 0x8c
    | 0x017d => 0x8e
    | 0x2018 => 0x91
    | 0x2019 => 0x92
    | 0x201c => 0x93
    | 0x201d => 0x94
    | 0x2022 => 0x95
    | 0x2013 => 0x96
    | 0x2014 => 0x97
    | 0x02dc => 0x98
    | 0x2122 => 0x99
    | 0x0161 => 0x9a
    | 0x203a => 0x9b
    | 0x0153 => 0x9c
    | 0x017e => 0x9e
    | 0x0178 => 0x9f
    | _ => 0x00

/-- The memory, and the variables of `utf8_decode`. -/
structure Scan where
  mem : ℕ → UInt8
  src : ℕ
  dst : ℕ
  state : UInt32
  codep : UInt32

/-- A round of `utf8_decode`; a `char` has no sign on this processor. -/
def utf8Round (s : Scan) : (ℕ → UInt8) ⊕ Scan :=
  let c := s.mem s.src
  if c = 0 then .inl (Function.update s.mem s.dst 0)
  else
    let (state, codep) := decode s.state s.codep c.toUInt32
    let s := { s with src := s.src + 1, state := state, codep := codep }
    if state = 0 then
      .inr { s with
        mem := Function.update s.mem s.dst (unicodeToCP1252 codep.toUInt16), dst := s.dst + 1 }
    else .inr s

/-- `utf8_decode`, for so many rounds: the memory after it. -/
def utf8Decode (n : ℕ) (mem : ℕ → UInt8) (src : ℕ) : Option (ℕ → UInt8) :=
  Loop.run utf8Round n ⟨mem, src, src, utf8Accept, 0⟩

/-! ### What it is for -/

/-- The characters of CP1252 from 0x80 to 0x9f; zero where there is none. -/
def codePage : List ℕ := [
  0x20AC, 0, 0x201A, 0x0192, 0x201E, 0x2026, 0x2020, 0x2021,
  0x02C6, 0x2030, 0x0160, 0x2039, 0x0152, 0, 0x017D, 0,
  0, 0x2018, 0x2019, 0x201C, 0x201D, 0x2022, 0x2013, 0x2014,
  0x02DC, 0x2122, 0x0161, 0x203A, 0x0153, 0, 0x017E, 0x0178]

/-- The byte of a character: up to 0xff its own number, and else its place in the code page. -/
def byteOf (v : ℕ) : Option UInt8 :=
  if v ≤ 0xff then some (UInt8.ofNat v)
  else if v ∈ codePage then some (UInt8.ofNat (0x80 + codePage.idxOf v))
  else none

/-- What stands for a character, or for an invalid byte, wherever it is in the string.  The
characters above 16 bits are in no code page: which byte stands for them, or none, is left to the
code. -/
def image : Option ℕ → List UInt8
  | none => []
  | some v =>
      if v < 0x10000 then (byteOf v).toList
      else if v % 0x10000 = 0 then [] else (byteOf (v % 0x10000)).toList

/-- The string is converted in its place, each of its characters for itself. -/
def Converts (mem : ℕ → UInt8) (src : ℕ) (s : List UInt8) (ps : List (Option ℕ)) : Prop :=
  ∃ n mem', utf8Decode n mem src = some mem' ∧
    (∀ i, i < src ∨ src + s.length < i → mem' i = mem i) ∧
    Octets.Holds mem' src (ps.flatMap image ++ [0])

/-- Behind what has no byte there is nothing that has one. -/
def Fine (ps : List (Option ℕ)) : Prop := ps.Pairwise fun p q => image p = [] → image q = []

instance (ps : List (Option ℕ)) : Decidable (Fine ps) :=
  inferInstanceAs (Decidable (ps.Pairwise _))

/-! ### The automaton -/

/-- The state behind the first byte of a character. -/
def leadState (a : ℕ) : UInt32 :=
  if a < 0x80 then 0 else if a < 0xC2 then 1 else if a < 0xE0 then 2 else if a = 0xE0 then 4
  else if a = 0xED then 5 else if a < 0xF0 then 3 else if a = 0xF0 then 6 else if a < 0xF4 then 7
  else if a = 0xF4 then 8 else 1

/-- The bits of the first byte. -/
def leadBits (a : ℕ) : ℕ :=
  if a < 0x80 then a else if a < 0xE0 then a - 0xC0 else if a < 0xF0 then a - 0xE0 else a - 0xF0

/-- The states inside of a character: the bytes that may follow, and the next state. -/
def follow : List (UInt32 × ℕ × ℕ × UInt32) := [
  (2, 0x80, 0xBF, 0), (3, 0x80, 0xBF, 2), (4, 0xA0, 0xBF, 2), (5, 0x80, 0x9F, 2),
  (6, 0x90, 0xBF, 3), (7, 0x80, 0xBF, 3), (8, 0x80, 0x8F, 3)]

variable {a b c : UInt8} {q q' codep : UInt32} {lo hi : ℕ} {s : List UInt8}

theorem state_lead (a : UInt8) (codep : UInt32) :
    (decode 0 codep a.toUInt32).1 = leadState a.toNat := by
  have hall : ∀ n < 256, (decode 0 0 (UInt8.ofNat n).toUInt32).1 = leadState n := by
    decide +kernel
  have h := hall a.toNat a.toNat_lt
  rw [UInt8.ofNat_toNat] at h
  exact h

theorem state_reject (a : UInt8) (codep : UInt32) : (decode 1 codep a.toUInt32).1 = 1 := by
  have hall : ∀ n < 256, (decode 1 0 (UInt8.ofNat n).toUInt32).1 = 1 := by
    decide +kernel
  have h := hall a.toNat a.toNat_lt
  rw [UInt8.ofNat_toNat] at h
  exact h

theorem state_follow (h : (q, lo, hi, q') ∈ follow) (c : UInt8) (codep : UInt32) :
    (decode q codep c.toUInt32).1 = if In lo hi c then q' else 1 := by
  have hall : ∀ r ∈ follow, ∀ n < 256, (decode r.1 0 (UInt8.ofNat n).toUInt32).1 =
      if In r.2.1 r.2.2.1 (UInt8.ofNat n) then r.2.2.2 else 1 := by
    decide +kernel
  have hc := hall _ h c.toNat c.toNat_lt
  rw [UInt8.ofNat_toNat] at hc
  exact hc

theorem codep_lead (hno : leadState a.toNat ≠ 1) (codep : UInt32) :
    (decode 0 codep a.toUInt32).2.toNat = leadBits a.toNat := by
  have hall : ∀ n < 256, leadState n ≠ 1 →
      (decode 0 0 (UInt8.ofNat n).toUInt32).2.toNat = leadBits n := by
    decide +kernel
  have h := hall a.toNat a.toNat_lt hno
  rw [UInt8.ofNat_toNat] at h
  exact h

/-- The six bits of a byte are put behind what there is. -/
theorem codep_follow (hq : q ≠ 0) (hc : In 0x80 0xBF c) (hcodep : codep.toNat < 2 ^ 26) :
    (decode q codep c.toUInt32).2.toNat = codep.toNat * 64 + (c.toNat - 0x80) := by
  obtain ⟨hlow, hhigh⟩ := hc
  have hbits : (c.toUInt32 &&& 0x3f).toNat = c.toNat - 0x80 := by
    have hmod : c.toNat &&& 2 ^ 6 - 1 = c.toNat % 2 ^ 6 := Nat.and_two_pow_sub_one_eq_mod c.toNat 6
    rw [UInt32.toNat_and, UInt8.toNat_toUInt32]
    have hmask : (0x3f : UInt32).toNat = 2 ^ 6 - 1 := rfl
    rw [hmask, hmod]
    omega
  have hshift : (codep <<< 6).toNat = codep.toNat <<< 6 := by
    rw [UInt32.toNat_shiftLeft, Nat.mod_eq_of_lt]
    · rfl
    · rw [Nat.shiftLeft_eq]
      have hsix : (6 : UInt32).toNat % 32 = 6 := rfl
      rw [hsix]
      omega
  have hval : (decode q codep c.toUInt32).2 =
      (c.toUInt32 &&& (0x3f : UInt32)) ||| (codep <<< 6) := if_pos hq
  rw [hval, UInt32.toNat_or, hbits, hshift, Nat.or_comm, ← Nat.shiftLeft_add_eq_or_of_lt (by omega),
    Nat.shiftLeft_eq]

/-! ### The bytes that are written -/

/-- The bytes that are written for a string. -/
def emitted (state codep : UInt32) : List UInt8 → List UInt8
  | [] => []
  | c :: s =>
      let (state, codep) := decode state codep c.toUInt32
      if state = 0 then unicodeToCP1252 codep.toUInt16 :: emitted state codep s
      else emitted state codep s

theorem emitted_cons (h : (decode q codep c.toUInt32).1 = q') :
    emitted q codep (c :: s) =
      if q' = 0 then
        unicodeToCP1252 (decode q codep c.toUInt32).2.toUInt16 ::
          emitted q' (decode q codep c.toUInt32).2 s
      else emitted q' (decode q codep c.toUInt32).2 s := by
  subst h
  rfl

theorem length_emitted (s : List UInt8) (q codep : UInt32) :
    (emitted q codep s).length ≤ s.length := by
  induction s generalizing q codep with
  | nil => exact Nat.le_refl _
  | cons c s ih =>
    rw [emitted_cons rfl]
    split
    · exact Nat.succ_le_succ (ih _ _)
    · exact Nat.le_succ_of_le (ih _ _)

/-- The state for an error is never left. -/
theorem emitted_reject (s : List UInt8) (codep : UInt32) : emitted 1 codep s = [] := by
  induction s generalizing codep with
  | nil => rfl
  | cons c s ih => rw [emitted_cons (state_reject c codep), if_neg (by decide), ih]

/-- The first byte of a longer character. -/
theorem emitted_lead (hq : leadState a.toNat = q) (h₀ : q ≠ 0) (h₁ : q ≠ 1) (codep : UInt32)
    (s : List UInt8) : ∃ codep', emitted 0 codep (a :: s) = emitted q codep' s ∧
      codep'.toNat = leadBits a.toNat := by
  refine ⟨(decode 0 codep a.toUInt32).2, ?_, codep_lead (hq ▸ h₁) codep⟩
  rw [emitted_cons (state_lead a codep), hq, if_neg h₀]

/-- A byte inside of a character. -/
theorem emitted_follow (h : (q, lo, hi, q') ∈ follow) (hq : q ≠ 0) (hq' : q' ≠ 0)
    (hc : In lo hi c) (hin : In 0x80 0xBF c) (hcodep : codep.toNat < 2 ^ 26) (s : List UInt8) :
    ∃ codep', emitted q codep (c :: s) = emitted q' codep' s ∧
      codep'.toNat = codep.toNat * 64 + (c.toNat - 0x80) := by
  have hstate : (decode q codep c.toUInt32).1 = q' := by rw [state_follow h, if_pos hc]
  refine ⟨(decode q codep c.toUInt32).2, ?_, codep_follow hq hin hcodep⟩
  rw [emitted_cons hstate, if_neg hq']

/-- The last byte of a longer character. -/
theorem emitted_last (hc : In 0x80 0xBF c) (hcodep : codep.toNat < 2 ^ 26) (s : List UInt8) :
    ∃ codep', emitted 2 codep (c :: s) =
      unicodeToCP1252 (UInt16.ofNat (codep.toNat * 64 + (c.toNat - 0x80))) ::
        emitted 0 codep' s := by
  have hstate : (decode 2 codep c.toUInt32).1 = 0 := by
    rw [state_follow (by decide : ((2 : UInt32), 0x80, 0xBF, (0 : UInt32)) ∈ follow), if_pos hc]
  refine ⟨(decode 2 codep c.toUInt32).2, ?_⟩
  have hval : (decode 2 codep c.toUInt32).2.toUInt16 =
      UInt16.ofNat (codep.toNat * 64 + (c.toNat - 0x80)) := by
    rw [← codep_follow (q := 2) (by decide) hc hcodep]
    rfl
  rw [emitted_cons hstate, if_pos rfl, hval]

theorem follow_ne (h : (q, lo, hi, q') ∈ follow) : q ≠ 0 ∧ q ≠ 1 := by
  have hall : ∀ r ∈ follow, r.1 ≠ 0 ∧ r.1 ≠ 1 := by decide
  exact hall _ h

/-- The second byte of three. -/
theorem follow_three (ha : In 0xE0 0xEF a) : ∃ lo hi, (leadState a.toNat, lo, hi, 2) ∈ follow ∧
    ∀ b, In lo hi b ↔ In 0x80 0xBF b ∧ (a.toNat = 0xE0 → 0xA0 ≤ b.toNat) ∧
      (a.toNat = 0xED → b.toNat ≤ 0x9F) := by
  obtain ⟨ha₁, ha₂⟩ := ha
  unfold In
  by_cases he₀ : a.toNat = 0xE0
  · refine ⟨0xA0, 0xBF, ?_, fun b => by omega⟩
    rw [he₀]
    decide
  · by_cases hed : a.toNat = 0xED
    · refine ⟨0x80, 0x9F, ?_, fun b => by omega⟩
      rw [hed]
      decide
    · refine ⟨0x80, 0xBF, ?_, fun b => by omega⟩
      have hlead : leadState a.toNat = 3 := by
        rw [leadState, if_neg (by omega), if_neg (by omega), if_neg (by omega), if_neg he₀,
          if_neg hed, if_pos (by omega)]
      rw [hlead]
      decide

/-- The second byte of four. -/
theorem follow_four (ha : In 0xF0 0xF4 a) : ∃ lo hi, (leadState a.toNat, lo, hi, 3) ∈ follow ∧
    ∀ b, In lo hi b ↔ In 0x80 0xBF b ∧ (a.toNat = 0xF0 → 0x90 ≤ b.toNat) ∧
      (a.toNat = 0xF4 → b.toNat ≤ 0x8F) := by
  obtain ⟨ha₁, ha₂⟩ := ha
  unfold In
  by_cases hf₀ : a.toNat = 0xF0
  · refine ⟨0x90, 0xBF, ?_, fun b => by omega⟩
    rw [hf₀]
    decide
  · by_cases hf₄ : a.toNat = 0xF4
    · refine ⟨0x80, 0x8F, ?_, fun b => by omega⟩
      rw [hf₄]
      decide
    · refine ⟨0x80, 0xBF, ?_, fun b => by omega⟩
      have hlead : leadState a.toNat = 7 := by
        rw [leadState, if_neg (by omega), if_neg (by omega), if_neg (by omega), if_neg (by omega),
          if_neg (by omega), if_neg (by omega), if_neg hf₀, if_pos (by omega)]
      rw [hlead]
      decide

/-- A character is converted for itself. -/
theorem emitted_char {v : ℕ} (hv : Scalar v) (codep : UInt32) (s : List UInt8) :
    ∃ codep', emitted 0 codep (enc v ++ s) =
      unicodeToCP1252 (UInt16.ofNat v) :: emitted 0 codep' s := by
  rcases enc_cases hv with ⟨a, he, ha, hval⟩ | ⟨a, b, he, ha, hb, hval⟩ |
    ⟨a, b, c, he, ha, hb, hc, hlow, hhigh, hval⟩ |
    ⟨a, b, c, d, he, ha, hb, hc, hd, hlow, hhigh, hval⟩
  · have hlead : leadState a.toNat = 0 := if_pos ha
    have hbits : (decode 0 codep a.toUInt32).2.toUInt16 = UInt16.ofNat v := by
      have hcodep := codep_lead (a := a) (by rw [hlead]; decide) codep
      rw [leadBits, if_pos ha, ← hval] at hcodep
      rw [← hcodep]
      rfl
    refine ⟨(decode 0 codep a.toUInt32).2, ?_⟩
    rw [he, List.singleton_append, emitted_cons (state_lead a codep), hlead, if_pos rfl, hbits]
  · obtain ⟨ha₁, ha₂⟩ := ha
    have hlead : leadState a.toNat = 2 := by
      rw [leadState, if_neg (by omega), if_neg (by omega), if_pos (by omega)]
    obtain ⟨k₁, h₁, hk₁⟩ := emitted_lead hlead (by decide) (by decide) codep (b :: s)
    rw [leadBits, if_neg (by omega), if_pos (by omega)] at hk₁
    obtain ⟨k₂, h₂⟩ := emitted_last hb (by omega : k₁.toNat < _) s
    refine ⟨k₂, ?_⟩
    rw [he, List.cons_append, List.singleton_append, h₁, h₂, hk₁, ← hval]
  · obtain ⟨lo, hi, hmem, hiff⟩ := follow_three ha
    have hin := (hiff b).mpr ⟨hb, hlow, hhigh⟩
    obtain ⟨ha₁, ha₂⟩ := ha
    obtain ⟨hb₁, hb₂⟩ := hb
    obtain ⟨h₀, h₁⟩ := follow_ne hmem
    obtain ⟨k₁, h₁, hk₁⟩ := emitted_lead rfl h₀ h₁ codep (b :: c :: s)
    rw [leadBits, if_neg (by omega), if_neg (by omega), if_pos (by omega)] at hk₁
    obtain ⟨k₂, h₂, hk₂⟩ :=
      emitted_follow hmem h₀ (by decide) hin ⟨hb₁, hb₂⟩ (by omega : k₁.toNat < _) (c :: s)
    obtain ⟨k₃, h₃⟩ := emitted_last hc (by omega : k₂.toNat < _) s
    refine ⟨k₃, ?_⟩
    rw [he, List.cons_append, List.cons_append, List.singleton_append, h₁, h₂, h₃, hk₂, hk₁, ← hval]
  · obtain ⟨lo, hi, hmem, hiff⟩ := follow_four ha
    have hin := (hiff b).mpr ⟨hb, hlow, hhigh⟩
    obtain ⟨ha₁, ha₂⟩ := ha
    obtain ⟨hb₁, hb₂⟩ := hb
    obtain ⟨hc₁, hc₂⟩ := hc
    obtain ⟨h₀, h₁⟩ := follow_ne hmem
    obtain ⟨k₁, h₁, hk₁⟩ := emitted_lead rfl h₀ h₁ codep (b :: c :: d :: s)
    rw [leadBits, if_neg (by omega), if_neg (by omega), if_neg (by omega)] at hk₁
    obtain ⟨k₂, h₂, hk₂⟩ :=
      emitted_follow hmem h₀ (by decide) hin ⟨hb₁, hb₂⟩ (by omega : k₁.toNat < _) (c :: d :: s)
    obtain ⟨k₃, h₃, hk₃⟩ :=
      emitted_follow (by decide : ((3 : UInt32), 0x80, 0xBF, (2 : UInt32)) ∈ follow) (by decide)
        (by decide) ⟨hc₁, hc₂⟩ ⟨hc₁, hc₂⟩ (by omega : k₂.toNat < _) (d :: s)
    obtain ⟨k₄, h₄⟩ := emitted_last hd (by omega : k₃.toNat < _) s
    refine ⟨k₄, ?_⟩
    rw [he, List.cons_append, List.cons_append, List.cons_append, List.singleton_append, h₁, h₂, h₃,
      h₄, hk₃, hk₂, hk₁, ← hval]

/-- If anything is written from inside of a character, a byte follows that may. -/
theorem follow_of_emitted (h : (q, lo, hi, q') ∈ follow) (hne : emitted q codep s ≠ []) :
    ∃ c t, s = c :: t ∧ In lo hi c ∧ (q' ≠ 0 → ∃ codep', emitted q' codep' t ≠ []) := by
  rcases s with - | ⟨c, t⟩
  · exact absurd rfl hne
  · rw [emitted_cons (state_follow h c codep)] at hne
    by_cases hc : In lo hi c
    · rw [if_pos hc] at hne
      refine ⟨c, t, rfl, hc, fun hq' => ⟨(decode q codep c.toUInt32).2, ?_⟩⟩
      rw [if_neg hq'] at hne
      exact hne
    · rw [if_neg hc, if_neg (by decide), emitted_reject] at hne
      exact absurd rfl hne

theorem last_of_emitted (hne : emitted 2 codep s ≠ []) : ∃ c t, s = c :: t ∧ In 0x80 0xBF c := by
  obtain ⟨c, t, ht, hc, -⟩ :=
    follow_of_emitted (by decide : ((2 : UInt32), 0x80, 0xBF, (0 : UInt32)) ∈ follow) hne
  exact ⟨c, t, ht, hc⟩

/-- If anything is written, a character stands in front. -/
theorem char_of_emitted (hne : emitted 0 codep s ≠ []) : ∃ v, Scalar v ∧ enc v <+: s := by
  rcases s with - | ⟨a, s⟩
  · exact absurd rfl hne
  have hno : leadState a.toNat ≠ 1 := by
    intro h
    rw [emitted_cons (state_lead a codep), h, if_neg (by decide), emitted_reject] at hne
    exact absurd rfl hne
  rcases Nat.lt_or_ge a.toNat 0x80 with h₀ | h₀
  · refine ⟨a.toNat, Or.inl (by omega), ?_⟩
    rw [enc_one h₀]
    exact ⟨s, rfl⟩
  have hgo : leadState a.toNat ≠ 0 → ∃ codep', emitted (leadState a.toNat) codep' s ≠ [] := by
    intro h
    rw [emitted_cons (state_lead a codep), if_neg h] at hne
    exact ⟨_, hne⟩
  rcases Nat.lt_or_ge a.toNat 0xE0 with h₁ | h₁
  · have hlow : 0xC2 ≤ a.toNat := by
      refine Nat.le_of_not_lt fun hlt => hno ?_
      rw [leadState, if_neg (by omega), if_pos hlt]
    have hlead : leadState a.toNat = 2 := by
      rw [leadState, if_neg (by omega), if_neg (by omega), if_pos h₁]
    rw [hlead] at hgo
    obtain ⟨codep₁, hne₁⟩ := hgo (by decide)
    obtain ⟨b, t, rfl, hb⟩ := last_of_emitted hne₁
    obtain ⟨v, hv, he⟩ := enc_two ⟨hlow, by omega⟩ hb
    exact ⟨v, hv, he ▸ ⟨t, rfl⟩⟩
  rcases Nat.lt_or_ge a.toNat 0xF0 with h₂ | h₂
  · have ha : In 0xE0 0xEF a := ⟨h₁, by omega⟩
    obtain ⟨lo, hi, hmem, hiff⟩ := follow_three ha
    obtain ⟨codep₁, hne₁⟩ := hgo (follow_ne hmem).1
    obtain ⟨b, t, rfl, hin, hnext⟩ := follow_of_emitted hmem hne₁
    obtain ⟨codep₂, hne₂⟩ := hnext (by decide)
    obtain ⟨c, t, rfl, hc⟩ := last_of_emitted hne₂
    obtain ⟨hb, hlow, hhigh⟩ := (hiff b).mp hin
    obtain ⟨v, hv, he⟩ := enc_three ha hb hc hlow hhigh
    exact ⟨v, hv, he ▸ ⟨t, rfl⟩⟩
  · have hhigh : a.toNat ≤ 0xF4 := by
      refine Nat.le_of_not_lt fun hlt => hno ?_
      rw [leadState, if_neg (by omega), if_neg (by omega), if_neg (by omega), if_neg (by omega),
        if_neg (by omega), if_neg (by omega), if_neg (by omega), if_neg (by omega),
        if_neg (by omega)]
    have ha : In 0xF0 0xF4 a := ⟨h₂, hhigh⟩
    obtain ⟨lo, hi, hmem, hiff⟩ := follow_four ha
    obtain ⟨codep₁, hne₁⟩ := hgo (follow_ne hmem).1
    obtain ⟨b, t, rfl, hin, hnext⟩ := follow_of_emitted hmem hne₁
    obtain ⟨codep₂, hne₂⟩ := hnext (by decide)
    obtain ⟨c, t, rfl, hc, hlast⟩ :=
      follow_of_emitted (by decide : ((3 : UInt32), 0x80, 0xBF, (2 : UInt32)) ∈ follow) hne₂
    obtain ⟨codep₃, hne₃⟩ := hlast (by decide)
    obtain ⟨d, t, rfl, hd⟩ := last_of_emitted hne₃
    obtain ⟨hb, hlow, hhigh⟩ := (hiff b).mp hin
    obtain ⟨v, hv, he⟩ := enc_four ha hb hc hd hlow hhigh
    exact ⟨v, hv, he ▸ ⟨t, rfl⟩⟩

/-! ### The bytes of a character -/

/-- `UNICODEtoCP1252` knows the code page. -/
theorem unicodeToCP1252_eq (chr : UInt16) : unicodeToCP1252 chr = (byteOf chr.toNat).getD 0 := by
  by_cases h : chr ≤ 0xff
  · have hle : chr.toNat ≤ 0xff := UInt16.le_iff_toNat_le.mp h
    have hmask : (chr &&& 0xff).toNat = chr.toNat := by
      have hmod := Nat.and_two_pow_sub_one_eq_mod chr.toNat 8
      have hff : (0xff : UInt16).toNat = 2 ^ 8 - 1 := rfl
      rw [UInt16.toNat_and, hff, hmod]
      omega
    rw [unicodeToCP1252, if_pos h, byteOf, if_pos hle, Option.getD_some, ← UInt8.toNat_inj,
      UInt16.toNat_toUInt8, hmask, UInt8.toNat_ofNat']
  · have hgt : ¬ chr.toNat ≤ 0xff := fun hle => h (UInt16.le_iff_toNat_le.mpr hle)
    rw [unicodeToCP1252, if_neg h]
    split
    case h_28 =>
      have hno : chr.toNat ∉ codePage := by
        intro hmem
        simp only [codePage, List.mem_cons, List.not_mem_nil, or_false] at hmem
        grind
      rw [byteOf, if_neg hgt, if_neg hno, Option.getD_none]
    all_goals
      rename_i hchr
      rw [hchr]
      decide

/-- No character but NUL has the byte zero. -/
theorem byteOf_ne_zero {v : ℕ} (hv : v ≠ 0) : byteOf v ≠ some 0 := by
  unfold byteOf
  split
  case isTrue hle =>
    intro h
    have hzero := (ofNat_eq_iff v).mp (Option.some.inj h)
    rw [Nat.mod_eq_of_lt (by omega)] at hzero
    exact hv hzero
  case isFalse =>
    split
    case isTrue hmem =>
      intro h
      have hlt : codePage.idxOf v < 32 := List.idxOf_lt_length_iff.mpr hmem
      have hzero := (ofNat_eq_iff _).mp (Option.some.inj h)
      rw [Nat.mod_eq_of_lt (by omega)] at hzero
      exact absurd hzero (by simp)
    case isFalse => exact Option.some_ne_none _ |>.symm

theorem toList_byteOf {v : ℕ} (hv : v ≠ 0) : (byteOf v).toList =
    if (byteOf v).getD 0 = 0 then [] else [(byteOf v).getD 0] := by
  have hne := byteOf_ne_zero hv
  cases hb : byteOf v with
  | none => rfl
  | some b =>
    rw [hb] at hne
    rw [Option.getD_some, if_neg fun h => hne (congrArg some h)]
    rfl

theorem image_some {v : ℕ} (hv : v ≠ 0) :
    image (some v) = if unicodeToCP1252 (UInt16.ofNat v) = 0 then []
      else [unicodeToCP1252 (UInt16.ofNat v)] := by
  rw [unicodeToCP1252_eq, UInt16.toNat_ofNat']
  by_cases hlt : v < 0x10000
  · rw [Nat.mod_eq_of_lt hlt, ← toList_byteOf hv]
    exact if_pos hlt
  · by_cases hzero : v % 0x10000 = 0
    · have hv' : v % 2 ^ 16 = 0 := hzero
      rw [hv', image, if_neg hlt, if_pos hzero]
      rfl
    · rw [image, if_neg hlt, if_neg hzero]
      exact toList_byteOf hzero

/-! ### The string in memory -/

/-- What is written goes over what was read; nothing behind the string is touched. -/
theorem run_utf8Round (s : List UInt8) (hs : 0 ∉ s) (mem : ℕ → UInt8) (src dst : ℕ)
    (q codep : UInt32) (hle : dst ≤ src) (hmem : Octets.Holds mem src (s ++ [0])) :
    Loop.run utf8Round (s.length + 1) ⟨mem, src, dst, q, codep⟩ =
      some (write mem dst (emitted q codep s ++ [0])) := by
  induction s generalizing mem src dst q codep with
  | nil =>
    have hnul : mem src = 0 := hmem 0 (Nat.lt_succ_self 0)
    refine (Loop.run_inl (r := Function.update mem dst 0) ?_).trans ?_
    · simp only [utf8Round, hnul, if_true]
    · rw [emitted, List.nil_append, write_cons, write_nil]
  | cons c s ih =>
    have hc : mem src = c := hmem 0 (Nat.succ_pos _)
    have hne : c ≠ 0 := fun h => hs (h ▸ List.mem_cons_self)
    have hs' : 0 ∉ s := fun h => hs (List.mem_cons_of_mem c h)
    have hsplit : Octets.Holds mem src ([c] ++ (s ++ [0])) := hmem
    have hrest : Octets.Holds mem (src + 1) (s ++ [0]) := (holds_append.mp hsplit).2
    cases hdec : decode q codep c.toUInt32 with
    | mk q' codep' =>
      have hstate : (decode q codep c.toUInt32).1 = q' := congrArg Prod.fst hdec
      rw [List.length_cons, emitted_cons hstate, hdec]
      by_cases hq : q' = 0
      · -- `dst` is not ahead of `src`, so what is left of the string stays
        have hkept : Octets.Holds
            (Function.update mem dst (unicodeToCP1252 codep'.toUInt16)) (src + 1) (s ++ [0]) := fun i hi => by
          rw [Function.update_of_ne (by omega), hrest i hi]
        have hrun := ih hs' _ _ _ q' codep' (Nat.succ_le_succ hle) hkept
        refine (Loop.run_inr ?_).trans (hrun.trans ?_)
        · simp only [utf8Round, hc, if_neg hne, hdec, if_pos hq]
        · rw [if_pos hq, List.cons_append, write_cons]
      · have hrun := ih hs' mem _ dst q' codep' (Nat.le_succ_of_le hle) hrest
        refine (Loop.run_inr ?_).trans (hrun.trans ?_)
        · simp only [utf8Round, hc, if_neg hne, hdec, if_neg hq]
        · rw [if_neg hq]

/-- A string ends at its first NUL. -/
theorem holds_unique {mem : ℕ → UInt8} {src : ℕ} {x y : List UInt8} (hx : 0 ∉ x) (hy : 0 ∉ y)
    (h : Octets.Holds mem src (x ++ [0])) (h' : Octets.Holds mem src (y ++ [0])) : x = y := by
  induction x generalizing y src with
  | nil =>
    cases y with
    | nil => rfl
    | cons d y =>
      have hzero : 0 = d := (h 0 (Nat.succ_pos _)).symm.trans (h' 0 (Nat.succ_pos _))
      exact absurd (hzero ▸ List.mem_cons_self) hy
  | cons c x ih =>
    cases y with
    | nil =>
      have hzero : 0 = c := (h' 0 (Nat.succ_pos _)).symm.trans (h 0 (Nat.succ_pos _))
      exact absurd (hzero ▸ List.mem_cons_self) hx
    | cons d y =>
      have hcd : c = d := (h 0 (Nat.succ_pos _)).symm.trans (h' 0 (Nat.succ_pos _))
      have hsplit : Octets.Holds mem src ([c] ++ (x ++ [0])) := h
      have hsplit' : Octets.Holds mem src ([d] ++ (y ++ [0])) := h'
      have hrest := (holds_append.mp hsplit).2
      have hrest' := (holds_append.mp hsplit').2
      have hx' : 0 ∉ x := fun hm => hx (List.mem_cons_of_mem c hm)
      have hy' : 0 ∉ y := fun hm => hy (List.mem_cons_of_mem d hm)
      rw [hcd, ih hx' hy' hrest hrest']

/-- The string that is in memory then ends at the first NUL that was written. -/
theorem holds_cstr_iff {out : List UInt8} (hout : 0 ∉ out) (mem : ℕ → UInt8) (src : ℕ)
    (em : List UInt8) :
    Octets.Holds (write mem src (em ++ [0])) src (out ++ [0]) ↔ out = CString.cstr em := by
  have hno : 0 ∉ CString.cstr em := by
    intro h
    unfold CString.cstr at h
    exact absurd (List.mem_takeWhile_imp h) (by decide)
  obtain ⟨t, ht⟩ : ∃ t, em ++ [0] = CString.cstr em ++ [0] ++ t := by
    clear hno
    induction em with
    | nil => exact ⟨[], rfl⟩
    | cons c em ih =>
      by_cases hc : c = 0
      · subst hc
        exact ⟨em ++ [0], rfl⟩
      · obtain ⟨t, ht⟩ := ih
        have hkeep : CString.cstr (c :: em) = c :: CString.cstr em :=
          List.takeWhile_cons_of_pos (decide_eq_true hc)
        exact ⟨t, by rw [hkeep, List.cons_append, ht, List.cons_append, List.cons_append]⟩
  have hcstr : Octets.Holds (write mem src (em ++ [0])) src (CString.cstr em ++ [0]) := by
    have hall : Octets.Holds (write mem src (em ++ [0])) src (em ++ [0]) := fun i hi => write_add hi
    rw [ht] at hall ⊢
    exact (holds_append.mp hall).1
  exact ⟨fun h => holds_unique hout hno h hcstr, fun h => h ▸ hcstr⟩

/-! ### Character by character -/

/-- The characters are converted up to the first that has no byte. -/
theorem cstr_emitted {ps : List (Option ℕ)} (hps : Utf8.Reads s ps) (hs : 0 ∉ s) (codep : UInt32) :
    CString.cstr (emitted 0 codep s) = (ps.takeWhile fun p => image p ≠ []).flatMap image := by
  induction hps generalizing codep with
  | nil => rfl
  | @char v s ps hv _ ih =>
    have hs' : 0 ∉ s := fun h => hs (List.mem_append_right _ h)
    have hne : v ≠ 0 := by
      rintro rfl
      exact hs (List.mem_append_left s (by decide))
    obtain ⟨codep', he⟩ := emitted_char hv codep s
    have himage := image_some hne
    rw [he]
    by_cases hb : unicodeToCP1252 (UInt16.ofNat v) = 0
    · rw [if_pos hb] at himage
      rw [hb, List.takeWhile_cons_of_neg (by simp [himage])]
      rfl
    · rw [if_neg hb] at himage
      rw [List.takeWhile_cons_of_pos (by simp [himage]), List.flatMap_cons, himage, ← ih hs' codep']
      exact List.takeWhile_cons_of_pos (decide_eq_true hb)
  | @junk c s ps hno _ _ =>
    have hnil : emitted 0 codep (c :: s) = [] := by
      by_contra hne
      obtain ⟨v, hv, hpre⟩ := char_of_emitted hne
      exact hno v hv hpre
    rw [hnil, List.takeWhile_cons_of_neg (by simp [image])]
    rfl

theorem fine_iff (ps : List (Option ℕ)) :
    ps.flatMap image = (ps.takeWhile fun p => image p ≠ []).flatMap image ↔ Fine ps := by
  induction ps with
  | nil => exact ⟨fun _ => List.Pairwise.nil, fun _ => rfl⟩
  | cons p ps ih =>
    rw [Fine, List.pairwise_cons]
    by_cases hp : image p = []
    · rw [List.takeWhile_cons_of_neg (by simp [hp]), List.flatMap_cons, hp, List.nil_append,
        List.flatMap_nil, List.flatMap_eq_nil_iff]
      constructor
      · intro h
        refine ⟨fun q hq _ => h q hq, List.pairwise_of_forall_mem_list fun _ _ q hq _ => h q hq⟩
      · exact fun h q hq => h.1 q hq rfl
    · rw [List.takeWhile_cons_of_pos (by simp [hp]), List.flatMap_cons, List.flatMap_cons,
        List.append_cancel_left_eq, ih]
      exact ⟨fun h => ⟨fun _ _ hnil => absurd hnil hp, h⟩, fun h => h.2⟩

theorem zero_not_mem_image {ps : List (Option ℕ)} (hps : Utf8.Reads s ps) (hs : 0 ∉ s) :
    0 ∉ ps.flatMap image := by
  induction hps with
  | nil => exact List.not_mem_nil
  | @char v s ps _ _ ih =>
    have hne : v ≠ 0 := by
      rintro rfl
      exact hs (List.mem_append_left s (by decide))
    rw [List.flatMap_cons, List.mem_append, image_some hne]
    rintro (h | h)
    · split at h
      case isTrue => exact absurd h List.not_mem_nil
      case isFalse hb => exact hb (List.mem_singleton.mp h).symm
    · exact ih (fun hm => hs (List.mem_append_right _ hm)) h
  | @junk c s ps _ _ ih => exact ih fun hm => hs (List.mem_cons_of_mem c hm)

/-- The characters of a string are converted one by one, if and only if nothing that has a byte
stands behind something that has none. -/
theorem utf8_decode_iff (mem : ℕ → UInt8) (src : ℕ) (s : List UInt8)
    (hmem : Octets.Holds mem src (s ++ [0])) (hs : 0 ∉ s) :
    ∃ ps, (∀ qs, Utf8.Reads s qs ↔ qs = ps) ∧ (Converts mem src s ps ↔ Fine ps) := by
  obtain ⟨ps, hread⟩ := exists_reads s
  have hps : Utf8.Reads s ps := (hread ps).mpr rfl
  have hrun := run_utf8Round s hs mem src src 0 0 (Nat.le_refl src) hmem
  have hout := zero_not_mem_image hps hs
  refine ⟨ps, hread, ?_⟩
  rw [← fine_iff, ← cstr_emitted hps hs 0, ← holds_cstr_iff hout mem src]
  constructor
  · rintro ⟨n, mem', hrun', -, hholds⟩
    rw [Loop.run_unique hrun hrun']
    exact hholds
  · intro hholds
    refine ⟨_, _, hrun, ?_, hholds⟩
    have hlen := length_emitted s 0 0
    rintro i (hlt | hgt)
    · exact write_of_lt hlt
    · refine write_of_ge ?_
      rw [List.length_append]
      simp only [List.length_singleton]
      omega

/-- `é€` is converted. -/
theorem utf8_decode_euro : Converts (ofList [0xC3, 0xA9, 0xE2, 0x82, 0xAC, 0]) 0
    [0xC3, 0xA9, 0xE2, 0x82, 0xAC] [some 0xE9, some 0x20AC] := by
  have hreads : Utf8.Reads [0xC3, 0xA9, 0xE2, 0x82, 0xAC] [some 0xE9, some 0x20AC] :=
    .char (v := 0xE9) (Or.inl (by decide)) (.char (v := 0x20AC) (Or.inl (by decide)) .nil)
  obtain ⟨ps, hread, hiff⟩ := utf8_decode_iff (ofList [0xC3, 0xA9, 0xE2, 0x82, 0xAC, 0]) 0
    [0xC3, 0xA9, 0xE2, 0x82, 0xAC] (holds_ofList _) (by decide)
  rw [← (hread _).mp hreads] at hiff
  exact hiff.mpr (by decide)

/-- Of `Āb` nothing is left: the text is cut where the first character has no byte.  Nor is the `b`
behind an invalid byte converted. -/
theorem utf8_decode_cut :
    (Utf8.Reads [0xC4, 0x80, 0x62] [some 0x100, some 0x62] ∧
      ¬ Converts (ofList [0xC4, 0x80, 0x62, 0]) 0 [0xC4, 0x80, 0x62] [some 0x100, some 0x62]) ∧
    ¬ Converts (ofList [0xFF, 0x62, 0]) 0 [0xFF, 0x62] [none, some 0x62] := by
  have hb : Utf8.Reads [0x62] [some 0x62] := .char (v := 0x62) (Or.inl (by decide)) .nil
  refine ⟨⟨.char (v := 0x100) (Or.inl (by decide)) hb, ?_⟩, ?_⟩
  · rintro ⟨n, mem', hrun, -, hholds⟩
    have hrun' : utf8Decode 4 (ofList [0xC4, 0x80, 0x62, 0]) 0 = some _ := rfl
    rw [Loop.run_unique hrun hrun'] at hholds
    exact absurd (hholds 0 (by decide)) (by decide)
  · rintro ⟨n, mem', hrun, -, hholds⟩
    have hrun' : utf8Decode 3 (ofList [0xFF, 0x62, 0]) 0 = some _ := rfl
    rw [Loop.run_unique hrun hrun'] at hholds
    exact absurd (hholds 0 (by decide)) (by decide)

end Cp1252

end SqueezeliteMuse
