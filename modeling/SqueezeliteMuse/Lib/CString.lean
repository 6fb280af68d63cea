/-
SqueezeliteMuse/Lib/CString.lean

Functions of the C library on strings, in the C locale.

A string is the list of its bytes without the NUL that ends it.  A pointer into
a string is the list of the bytes from there on.
-/
import Mathlib.Algebra.Order.Ring.Int
import Mathlib.Data.Int.Notation
import Mathlib.Data.List.Basic
import Mathlib.Data.List.TakeWhile
import Mathlib.Tactic.Common

namespace CString

/-- The bytes of a string of ASCII characters. -/
def ascii (s : String) : List UInt8 := s.toList.map fun c => UInt8.ofNat c.toNat

/-- `isspace` -/
def isspace (c : UInt8) : Bool := c == 32 || (9 ≤ c && c ≤ 13)

/-- `isdigit` -/
def isdigit (c : UInt8) : Bool := 48 ≤ c && c ≤ 57

/-- `tolower` -/
def tolower (c : UInt8) : UInt8 := if 65 ≤ c ∧ c ≤ 90 then c + 32 else c

/-- `strcasecmp` finds no difference. -/
def CaseEq (a b : List UInt8) : Prop := a.map tolower = b.map tolower

instance (a b : List UInt8) : Decidable (CaseEq a b) := decEq (a.map tolower) (b.map tolower)

/-- The string that a block of bytes holds. -/
def cstr (s : List UInt8) : List UInt8 := s.takeWhile (· ≠ 0)

/-- `strstr`: where the first occurrence begins. -/
def strstr : List UInt8 → List UInt8 → Option (List UInt8)
  | [], sub => if sub = [] then some [] else none
  | c :: s, sub => if sub <+: c :: s then some (c :: s) else strstr s sub

attribute [local simp] strstr

/-- `strcasestr`: where the first occurrence begins, small or capital. -/
def strcasestr : List UInt8 → List UInt8 → Option (List UInt8)
  | [], sub => if sub = [] then some [] else none
  | c :: s, sub =>
      if sub.map tolower <+: (c :: s).map tolower then some (c :: s) else strcasestr s sub

/-- What the digits in front make. -/
def digits (s : List UInt8) : ℕ :=
  (s.takeWhile isdigit).foldl (fun n c => 10 * n + (c.toNat - 48)) 0

/-- `atol`, where a `long` has 32 bits -/
def atol (s : List UInt8) : ℤ :=
  match s.dropWhile isspace with
  | [] => 0
  | c :: t =>
      if c = 45 then max (-2 ^ 31) (-(digits t : ℤ))
      else if c = 43 then min (2 ^ 31 - 1) (digits t)
      else min (2 ^ 31 - 1) (digits (c :: t))

/-- `strtok`: the token, and where the next call goes on; `none` for NULL. -/
def strtok (delim s : List UInt8) : Option (List UInt8 × List UInt8) :=
  match s.dropWhile (· ∈ delim) with
  | [] => none
  | c :: t =>
      some ((c :: t).takeWhile (· ∉ delim), ((c :: t).dropWhile (· ∉ delim)).tail)

/-- What `%s` of `sscanf` takes. -/
def token (s : List UInt8) : List UInt8 := (s.dropWhile isspace).takeWhile fun c => !isspace c

/-- `strlcpy` to `dest + i`; `none` if it writes behind the block. -/
def strlcpy (dest : List UInt8) (i : ℕ) (src : List UInt8) (size : ℕ) : Option (List UInt8) :=
  if size = 0 then some dest
  else if i + (min src.length (size - 1) + 1) ≤ dest.length then
    some (dest.take i ++ src.take (size - 1) ++ 0 :: dest.drop (i + (min src.length (size - 1) + 1)))
  else none

variable {a b s : List UInt8} {c : UInt8}

theorem cstr_eq_self (h : 0 ∉ s) : cstr s = s :=
  List.takeWhile_eq_self_iff.mpr fun _ hc => decide_eq_true fun hzero => h (hzero ▸ hc)

/-- A string ends at its NUL. -/
theorem cstr_append_nul (a s : List UInt8) : cstr (a ++ 0 :: s) = cstr a := by
  induction a with
  | nil => rfl
  | cons c a ih =>
      simp only [cstr] at ih
      simp only [cstr, List.cons_append, List.takeWhile_cons, ih]

/-- What fits is copied whole. -/
theorem strlcpy_eq {dest : List UInt8} {i size : ℕ} (hsize : s.length < size)
    (hdest : i + (s.length + 1) ≤ dest.length) :
    strlcpy dest i s size = some (dest.take i ++ s ++ 0 :: dest.drop (i + (s.length + 1))) := by
  have hmin : min s.length (size - 1) = s.length := by omega
  have htake : s.take (size - 1) = s := List.take_of_length_le (by omega)
  rw [strlcpy, if_neg (by omega), hmin, if_pos hdest, htake]

/-- A character is where the part without it ends. -/
theorem strstr_char (h : c ∉ a) (s : List UInt8) : strstr (a ++ c :: s) [c] = some (c :: s) := by
  induction a with
  | nil => rw [List.nil_append, strstr, if_pos ⟨s, rfl⟩]
  | cons d a ih =>
      have hne : ¬ [c] <+: d :: (a ++ c :: s) := by
        rintro ⟨t, ht⟩
        exact h (List.mem_cons.mpr (.inl (List.cons.inj ht).1))
      rw [List.cons_append, strstr, if_neg hne, ih fun hc => h (List.mem_cons_of_mem d hc)]

theorem strstr_char_none (h : c ∉ s) : strstr s [c] = none := by
  induction s with
  | nil => rfl
  | cons d s ih =>
      have hne : ¬ [c] <+: d :: s := by
        rintro ⟨t, ht⟩
        exact h (List.mem_cons.mpr (.inl (List.cons.inj ht).1))
      rw [strstr, if_neg hne, ih fun hc => h (List.mem_cons_of_mem d hc)]

/-- A part that begins with some character, and has it nowhere else, is found behind a string
without it, where this character follows. -/
theorem strstr_behind {sub : List UInt8} (hc : c ∉ sub) (ha : strstr a (c :: sub) = none)
    (s : List UInt8) : strstr (a ++ c :: s) (c :: sub) = strstr (c :: s) (c :: sub) := by
  induction a with
  | nil => rfl
  | cons d a ih =>
      rw [strstr] at ha
      split at ha
      case isTrue => exact absurd ha (Option.some_ne_none _)
      case isFalse hno =>
        have hne : ¬ c :: sub <+: d :: (a ++ c :: s) := by
          intro hpre
          have hda : d :: a <+: d :: (a ++ c :: s) := ⟨c :: s, rfl⟩
          rcases List.prefix_or_prefix_of_prefix hpre hda with h | ⟨t, ht⟩
          · exact hno h
          · rcases t with - | ⟨e, t⟩
            · rw [List.append_nil] at ht
              exact hno ⟨[], by rw [List.append_nil, ht]⟩
            · obtain ⟨u, hu⟩ := hpre
              rw [← ht, List.append_assoc, ← List.cons_append, List.cons_append] at hu
              have htail := List.append_cancel_left (List.cons.inj hu).2
              obtain rfl := (List.cons.inj htail).1
              rw [List.cons_append] at ht
              exact hc ((List.cons.inj ht).2 ▸ List.mem_append_right a List.mem_cons_self)
        rw [List.cons_append, strstr, if_neg hne, ih ha]

theorem strstr_isSome (s sub : List UInt8) : (strstr s sub).isSome = true ↔ sub <:+: s := by
  induction s with
  | nil =>
      rw [strstr]
      split
      case isTrue h => simp [h]
      case isFalse h => simpa using h
  | cons c s ih =>
      rw [strstr, List.infix_cons_iff, ← ih]
      split
      case isTrue h => exact ⟨fun _ => .inl h, fun _ => rfl⟩
      case isFalse h => exact ⟨.inr, fun hor => hor.resolve_left h⟩

theorem strcasestr_isSome (s sub : List UInt8) :
    (strcasestr s sub).isSome = true ↔ sub.map tolower <:+: s.map tolower := by
  induction s with
  | nil =>
      rw [strcasestr]
      split
      case isTrue h => simp [h]
      case isFalse h => simpa using h
  | cons c s ih =>
      rw [strcasestr, List.map_cons, List.infix_cons_iff, ← ih]
      split
      case isTrue h => exact ⟨fun _ => .inl h, fun _ => rfl⟩
      case isFalse h => exact ⟨.inr, fun hor => hor.resolve_left h⟩

theorem digits_of_not_digit (hc : isdigit c = false) : digits (c :: s) = 0 := by
  rw [digits, List.takeWhile_cons_of_neg (by simp [hc]), List.foldl_nil]

/-- A zero in front makes no difference. -/
theorem digits_zero_cons (s : List UInt8) : digits (48 :: s) = digits s := by
  have hzero : isdigit 48 = true := by decide
  rw [digits, List.takeWhile_cons_of_pos hzero, List.foldl_cons]
  rfl

section Strtok

variable {delim t : List UInt8}

/-- A token ends at the separator behind it. -/
theorem strtok_token (hne : t ≠ []) (ht : ∀ d ∈ t, d ∉ delim) (hc : c ∈ delim) :
    strtok delim (t ++ c :: s) = some (t, s) := by
  obtain ⟨d, t, rfl⟩ := List.exists_cons_of_ne_nil hne
  have hd : d ∉ delim := ht d List.mem_cons_self
  have hdrop : (d :: t ++ c :: s).dropWhile (· ∈ delim) = d :: (t ++ c :: s) :=
    List.dropWhile_cons_of_neg (by simpa using hd)
  have hkeep : ∀ x ∈ d :: t, decide (x ∉ delim) = true := fun x hx => decide_eq_true (ht x hx)
  rw [strtok, hdrop]
  simp only [← List.cons_append]
  rw [List.takeWhile_append_of_pos hkeep, List.dropWhile_append_of_pos hkeep,
    List.takeWhile_cons_of_neg (by simpa using hc), List.dropWhile_cons_of_neg (by simpa using hc),
    List.append_nil, List.tail_cons]

/-- The last token ends with the string. -/
theorem strtok_last (hne : t ≠ []) (ht : ∀ d ∈ t, d ∉ delim) : strtok delim t = some (t, []) := by
  obtain ⟨d, t, rfl⟩ := List.exists_cons_of_ne_nil hne
  have hd : d ∉ delim := ht d List.mem_cons_self
  have hkeep : ∀ x ∈ d :: t, decide (x ∉ delim) = true := fun x hx => decide_eq_true (ht x hx)
  rw [strtok, List.dropWhile_cons_of_neg (by simpa using hd)]
  simp only
  rw [List.takeWhile_eq_self_iff.mpr hkeep, List.dropWhile_eq_nil_iff.mpr hkeep, List.tail_nil]

/-- A string that begins with no separator begins with its token. -/
theorem strtok_cons (hc : c ∉ delim) :
    ∃ rest, strtok delim (c :: s) = some (c :: s.takeWhile (· ∉ delim), rest) := by
  refine ⟨((c :: s).dropWhile (· ∉ delim)).tail, ?_⟩
  rw [strtok, List.dropWhile_cons_of_neg (by simpa using hc)]
  simp only
  rw [List.takeWhile_cons_of_pos (by simpa using hc)]

end Strtok

section Search

variable {s : List UInt8} {c : UInt8}

/-- A character that the text does not have cuts the search. -/
theorem strcasestr_append {sub : List UInt8} (hsub : sub ≠ []) (hc : tolower c ∉ sub.map tolower)
    (a s : List UInt8) : strcasestr (a ++ c :: s) sub =
      ((strcasestr a sub).map (· ++ c :: s)).or (strcasestr s sub) := by
  -- what begins with the text does so in front of the character
  have hcut (l : List UInt8) : sub.map tolower <+: (l ++ c :: s).map tolower ↔
      sub.map tolower <+: l.map tolower := by
    rw [List.map_append, List.map_cons]
    constructor
    · intro h
      rcases List.prefix_or_prefix_of_prefix h (List.prefix_append (l.map tolower) _) with h' | h'
      · exact h'
      · obtain ⟨t, ht⟩ := h'
        rw [← ht, List.prefix_append_right_inj] at h
        rcases t with - | ⟨d, t⟩
        · have heq : l.map tolower = sub.map tolower := by simpa using ht
          exact heq ▸ List.prefix_rfl
        · rw [List.cons_prefix_cons] at h
          exact absurd (by rw [← ht, h.1]; simp) hc
    · exact fun h => h.trans (List.prefix_append _ _)
  have hnil : strcasestr [] sub = none := if_neg hsub
  induction a with
  | nil =>
      have hno := (hcut []).not.mpr (by simpa using hsub)
      rw [List.nil_append] at hno
      rw [hnil, List.nil_append, strcasestr, if_neg hno]
      rfl
  | cons d a ih =>
      rw [List.cons_append, strcasestr, strcasestr]
      have hd := hcut (d :: a)
      rw [List.cons_append] at hd
      simp only [hd]
      split
      · rfl
      · exact ih

/-- What is found begins with the text. -/
theorem strcasestr_found {sub p : List UInt8} (h : strcasestr s sub = some p) :
    sub.map tolower <+: p.map tolower ∧ p <:+ s := by
  induction s with
  | nil =>
      rw [strcasestr] at h
      split at h
      case isTrue hsub =>
        obtain rfl := Option.some.inj h
        exact ⟨hsub ▸ List.prefix_rfl, List.suffix_rfl⟩
      case isFalse => cases h
  | cons d s ih =>
      rw [strcasestr] at h
      split at h
      case isTrue hpre =>
        obtain rfl := Option.some.inj h
        exact ⟨hpre, List.suffix_rfl⟩
      case isFalse => exact ⟨(ih h).1, (ih h).2.trans (List.suffix_cons _ _)⟩

theorem strcasestr_prefixed {sub p : List UInt8} (h : sub.map tolower <+: p.map tolower) :
    strcasestr p sub = some p := by
  rcases p with - | ⟨d, p⟩
  · exact if_pos (by simpa using h)
  · exact if_pos h

theorem strcasestr_self (sub r : List UInt8) : strcasestr (sub ++ r) sub = some (sub ++ r) := by
  refine strcasestr_prefixed ?_
  rw [List.map_append]
  exact List.prefix_append _ _

/-- A text with a letter is not found in numbers. -/
theorem strcasestr_none {sub : List UInt8} (hs : ∀ c ∈ s, c ≤ 58)
    (hsub : ∃ d ∈ sub.map tolower, 58 < d) : strcasestr s sub = none := by
  rw [← Option.not_isSome_iff_eq_none, strcasestr_isSome]
  intro h
  obtain ⟨d, hd, hlarge⟩ := hsub
  obtain ⟨c, hc, rfl⟩ := List.mem_map.mp (h.subset hd)
  have hle := hs c hc
  have hsmall : ¬ 65 ≤ c := fun h65 => absurd (UInt8.le_trans h65 hle) (by decide)
  rw [tolower, if_neg fun h => hsmall h.1] at hlarge
  exact absurd hlarge (UInt8.not_lt.mpr hle)

end Search

end CString
