/-
SqueezeliteMuse/NvsSet.lean

The command `nvs_set` of the console: `set_value_in_nvs` and `store_blob` of cmd_nvs.c.

A number is what `strtol` or one of its relatives makes of the text, with `errno` for an overflow.
Nothing sets `errno` back, and nothing looks at what is left of the text.

Main result: `exact_run_iff`: each command of a run stores what its text denotes, and is refused if
that is nothing, if and only if none with a value comes after an overflow, and what is taken for
the number in other texts is out of range.
-/
import SqueezeliteMuse.Lib.CString
import Mathlib.Data.Int.Notation

namespace SqueezeliteMuse

namespace NvsSet

open CString

export CString (ascii)

/-! ### Numbers -/

/-- What a character is worth as a digit; 36 if it is none. -/
def digit (c : UInt8) : ℕ :=
  if 48 ≤ c ∧ c ≤ 57 then c.toNat - 48
  else if 97 ≤ c ∧ c ≤ 122 then c.toNat - 87
  else if 65 ≤ c ∧ c ≤ 90 then c.toNat - 55
  else 36

/-- The digits in front, their value and what follows, if there are any. -/
def magnitude (base : ℕ) (s : List UInt8) : Option (ℕ × List UInt8) :=
  match s.takeWhile fun c => digit c < base with
  | [] => none
  | c :: ds => some ((c :: ds).foldl (fun n c => n * base + digit c) 0,
      s.dropWhile fun c => digit c < base)

/-- A number in the base that it shows itself: hexadecimal, octal or decimal. -/
def anyBase : List UInt8 → Option (ℕ × List UInt8)
  | 48 :: x :: s =>
      if x = 120 ∨ x = 88 then (magnitude 16 s).or (some (0, x :: s))
      else magnitude 8 (48 :: x :: s)
  | 48 :: s => magnitude 8 (48 :: s)
  | s => magnitude 10 s

/-- The number in front of a text, its sign and what follows, as `strtol` has it with base 0. -/
def numeral (s : List UInt8) : Option (Bool × ℕ × List UInt8) :=
  match s.dropWhile isspace with
  | 45 :: s => (anyBase s).map fun m => (true, m)
  | 43 :: s => (anyBase s).map fun m => (false, m)
  | s => (anyBase s).map fun m => (false, m)

/-- `strtol` of so many bits: its result, and if it is an overflow. -/
def strtol (bits : ℕ) (s : List UInt8) : ℤ × Bool :=
  match numeral s with
  | none => (0, false)
  | some (negative, m, _) =>
      let n : ℤ := if negative then -(m : ℤ) else m
      if n < -2 ^ (bits - 1) then (-2 ^ (bits - 1), true)
      else if 2 ^ (bits - 1) ≤ n then (2 ^ (bits - 1) - 1, true)
      else (n, false)

/-- `strtoul`, which takes a minus sign as well. -/
def strtoul (bits : ℕ) (s : List UInt8) : ℤ × Bool :=
  match numeral s with
  | none => (0, false)
  | some (negative, m, _) =>
      if 2 ^ bits ≤ m then (2 ^ bits - 1, true)
      else ((if negative then -(m : ℤ) else m) % 2 ^ bits, false)

/-! ### The code -/

/-- `nvs_type_t` -/
inductive NvsType
  | i8 | u8 | i16 | u16 | i32 | u32 | i64 | u64 | str | blob | any
  deriving DecidableEq

/-- `type_str_pair` -/
def typeStrPair : List (NvsType × List UInt8) :=
  [(.i8, ascii "i8"), (.u8, ascii "u8"), (.u16, ascii "u16"), (.i16, ascii "i16"),
    (.u32, ascii "u32"), (.i32, ascii "i32"), (.u64, ascii "u64"), (.i64, ascii "i64"),
    (.str, ascii "str"), (.blob, ascii "blob"), (.any, ascii "any")]

/-- `str_to_type` -/
def strToType (type : List UInt8) : NvsType :=
  match typeStrPair.find? fun p => p.2 = type with
  | some p => p.1
  | none => .any

/-- `esp_err_t` -/
inductive Err
  | ok | typeMismatch | noMem | valueTooLong | other (code : ℕ)
  deriving DecidableEq

/-- What is stored under a key. -/
inductive Value
  | int (type : NvsType) (n : ℤ)
  | str (s : List UInt8)
  | blob (b : List UInt8)
  deriving DecidableEq

/-- `nvs_open`, the functions `nvs_set_*` and `nvs_commit`, on the contents `σ` of the flash, and
which sizes there is memory for. -/
structure Env (σ : Type*) where
  malloc : ℕ → Bool
  openNvs : σ → Err
  set : List UInt8 → Value → σ → Err × σ
  commit : σ → Err

/-- The flash, and if `errno` is `ERANGE`. -/
structure State (σ : Type*) where
  nvs : σ
  erange : Bool

/-- A command: its key, its type and its value. -/
structure Command where
  key : List UInt8
  type : List UInt8
  value : List UInt8

/-- The result of the conversion, and if it overflows. -/
def convert : NvsType → List UInt8 → ℤ × Bool
  | .i8, s | .i16, s | .i32, s => strtol 32 s
  | .u8, s | .u16, s | .u32, s => strtoul 32 s
  | .i64, s => strtol 64 s
  | .u64, s => strtoul 64 s
  | _, _ => (0, false)

/-- The comparisons of the types that are smaller than what is converted to. -/
def outside : NvsType → ℤ → Bool
  | .i8, v => v < -128 || v > 127
  | .u8, v => v > 255
  | .i16, v => v < -32768 || v > 32767
  | .u16, v => v > 65535
  | _, _ => false

/-- The types that make these comparisons. -/
def narrow : NvsType → Bool
  | .i8 | .u8 | .i16 | .u16 => true
  | _ => false

/-- The digit of a blob. -/
def hexDigit (ch : UInt8) : Option UInt8 :=
  if 48 ≤ ch ∧ ch ≤ 57 then some (ch - 48)
  else if 65 ≤ ch ∧ ch ≤ 70 then some (ch - 65 + 10)
  else if 97 ≤ ch ∧ ch ≤ 102 then some (ch - 97 + 10)
  else none

/-- The loop of `store_blob`, from character `i` on, with `blob[j]`. -/
def blobLoop : ℕ → List UInt8 → UInt8 → List UInt8 → Option (List UInt8)
  | _, blob, _, [] => some blob
  | i, blob, last, ch :: s =>
      match hexDigit ch with
      | none => none
      | some value =>
          if i % 2 = 1 then blobLoop (i + 1) (blob ++ [last + value]) last s
          else blobLoop (i + 1) blob (value <<< 4) s

variable {σ : Type*} (env : Env σ)

/-- `store_blob` -/
def storeBlob (key str_values : List UInt8) (nvs : σ) : Err × σ :=
  if str_values.length % 2 = 1 then (.typeMismatch, nvs)
  else if env.malloc (str_values.length / 2) then
    match blobLoop 0 [] 0 str_values with
    | none => (.typeMismatch, nvs)
    | some blob =>
        let (err, nvs) := env.set key (.blob blob) nvs
        if err = .ok then (env.commit nvs, nvs) else (err, nvs)
  else (.noMem, nvs)

/-- The branches of the types: `err`, and `range_error`. -/
def setBranch (type : NvsType) (key value : List UInt8) (st : State σ) : Err × Bool × State σ :=
  match type with
  | .str =>
      let (err, nvs) := env.set key (.str value) st.nvs
      (err, false, { st with nvs := nvs })
  | .blob =>
      let (err, nvs) := storeBlob env key value st.nvs
      (err, false, { st with nvs := nvs })
  | type =>
      let (v, overflow) := convert type value
      let erange := st.erange || overflow
      if narrow type && (outside type v || erange) then (.ok, true, { st with erange := erange })
      else if erange then (.ok, false, { st with erange := erange })
      else
        let (err, nvs) := env.set key (.int type v) st.nvs
        (err, false, ⟨nvs, erange⟩)

/-- `set_value_in_nvs` -/
def setValueInNvs (c : Command) (st : State σ) : Err × State σ :=
  let type := strToType c.type
  if type = .any then (.typeMismatch, st)
  else
    let err := env.openNvs st.nvs
    if err ≠ .ok then (err, st)
    else
      let (err, rangeError, st) := setBranch env type c.key c.value st
      if rangeError ∨ st.erange then (.valueTooLong, st)
      else if err = .ok then (env.commit st.nvs, st)
      else (err, st)

/-! ### What it is for -/

/-- The least number of a type, and the first above the greatest. -/
def bounds : NvsType → ℤ × ℤ
  | .i8 => (-2 ^ 7, 2 ^ 7)
  | .u8 => (0, 2 ^ 8)
  | .i16 => (-2 ^ 15, 2 ^ 15)
  | .u16 => (0, 2 ^ 16)
  | .i32 => (-2 ^ 31, 2 ^ 31)
  | .u32 => (0, 2 ^ 32)
  | .i64 => (-2 ^ 63, 2 ^ 63)
  | .u64 => (0, 2 ^ 64)
  | .str | .blob | .any => (0, 0)

/-- The numbers of a type. -/
def InRange (type : NvsType) (n : ℤ) : Prop := (bounds type).1 ≤ n ∧ n < (bounds type).2

instance (type : NvsType) (n : ℤ) : Decidable (InRange type n) := instDecidableAnd

/-- The bytes that pairs of digits stand for. -/
def bytes : List UInt8 → Option (List UInt8)
  | [] => some []
  | [_] => none
  | a :: b :: s => do
      let h ← hexDigit a
      let l ← hexDigit b
      let rest ← bytes s
      pure ((h <<< 4 + l) :: rest)

/-- The value that a text denotes: a number is all of it, and in the range of its type. -/
def denotes (type : NvsType) (text : List UInt8) : Option Value :=
  match type with
  | .any => none
  | .str => some (.str text)
  | .blob => (bytes text).map .blob
  | type =>
      match numeral text with
      | some (negative, m, []) =>
          let n : ℤ := if negative then -(m : ℤ) else m
          if InRange type n then some (.int type n) else none
      | _ => none

/-- The command stores what its text denotes, and succeeds; or it fails, and stores nothing. -/
def Exact (c : Command) (st : State σ) : Prop :=
  let r := setValueInNvs env c st
  match denotes (strToType c.type) c.value with
  | some v => r.1 = .ok ∧ r.2.nvs = (env.set c.key v st.nvs).2
  | none => r.1 ≠ .ok ∧ r.2.nvs = st.nvs

/-- Each command of a run does. -/
def ExactRun : State σ → List Command → Prop
  | _, [] => True
  | st, c :: cs => Exact env c st ∧ ExactRun (setValueInNvs env c st).2 cs

/-- What is taken for the number is out of range, or the text is for no number. -/
def Refused (type : NvsType) (text : List UInt8) : Prop :=
  match type with
  | .any | .str | .blob => True
  | type => outside type (convert type text).1 ∨ (convert type text).2

/-- A text that denotes a value does not come after an overflow, and there is memory for a blob; of
any other the number in front is out of range, or it does come after an overflow. -/
def Fine (c : Command) (st : State σ) : Prop :=
  match denotes (strToType c.type) c.value with
  | some _ => st.erange = false ∧
      (strToType c.type = .blob → env.malloc (c.value.length / 2))
  | none => st.erange = true ∨ Refused (strToType c.type) c.value

def FineRun : State σ → List Command → Prop
  | _, [] => True
  | st, c :: cs => Fine env c st ∧ FineRun (setValueInNvs env c st).2 cs

/-- The flash takes all that is stored. -/
structure Works : Prop where
  open_ok : ∀ s, env.openNvs s = .ok
  set_ok : ∀ key v s, (env.set key v s).1 = .ok
  commit_ok : ∀ s, env.commit s = .ok

/-! ### Blobs -/

/-- The loop, at an even place, makes the bytes of the pairs to come. -/
theorem blobLoop_eq (text : List UInt8) : ∀ (i : ℕ) (blob : List UInt8) (last : UInt8),
    i % 2 = 0 → text.length % 2 = 0 →
      blobLoop i blob last text = (bytes text).map fun rest => blob ++ rest := by
  induction text using bytes.induct with
  | case1 =>
    intro i blob last _ _
    rw [blobLoop, bytes, Option.map_some, List.append_nil]
  | case2 a =>
    intro i blob last _ hlen
    exact absurd hlen (by rw [List.length_singleton]; decide)
  | case3 a b text ih =>
    intro i blob last hi hlen
    have hlen' : text.length % 2 = 0 := by
      simp only [List.length_cons] at hlen
      omega
    rw [blobLoop, bytes]
    cases hexDigit a with
    | none => rfl
    | some h =>
      simp only [if_neg (show ¬ i % 2 = 1 by omega), blobLoop]
      cases hexDigit b with
      | none => rfl
      | some l =>
        simp only [if_pos (show (i + 1) % 2 = 1 by omega)]
        rw [ih (i + 1 + 1) _ _ (by omega) hlen']
        cases bytes text with
        | none => rfl
        | some rest =>
          change some (blob ++ [h <<< 4 + l] ++ rest) = some (blob ++ (h <<< 4 + l) :: rest)
          rw [List.append_assoc, List.singleton_append]

theorem bytes_odd (text : List UInt8) (hlen : text.length % 2 = 1) : bytes text = none := by
  induction text using bytes.induct with
  | case1 => exact absurd hlen (by decide)
  | case2 a => rfl
  | case3 a b text ih =>
    have hrest := ih (by
      simp only [List.length_cons] at hlen
      omega)
    rw [bytes, hrest]
    cases hexDigit a with
    | none => rfl
    | some h =>
      cases hexDigit b with
      | none => rfl
      | some l => rfl

variable {env} {key text : List UInt8} {nvs : σ}

/-- A blob is stored if its text denotes one, and there is memory for it. -/
theorem storeBlob_some (hworks : Works env) {b : List UInt8} (hb : bytes text = some b) :
    storeBlob env key text nvs =
      if env.malloc (text.length / 2) then (.ok, (env.set key (.blob b) nvs).2)
      else (.noMem, nvs) := by
  have heven : ¬ text.length % 2 = 1 := fun hodd => by
    rw [bytes_odd text hodd] at hb
    cases hb
  have hloop := blobLoop_eq text 0 [] 0 rfl (by omega)
  rw [hb] at hloop
  rw [storeBlob, if_neg heven]
  split
  case isTrue =>
    rw [hloop]
    simp only [Option.map_some, List.nil_append, if_pos (hworks.set_ok _ _ _), hworks.commit_ok]
  case isFalse => rfl

theorem storeBlob_none (env : Env σ) (key : List UInt8) (nvs : σ) (hb : bytes text = none) :
    (storeBlob env key text nvs).1 ≠ .ok ∧ (storeBlob env key text nvs).2 = nvs := by
  rw [storeBlob]
  by_cases hodd : text.length % 2 = 1
  · rw [if_pos hodd]
    exact ⟨by simp, rfl⟩
  · have hloop := blobLoop_eq text 0 [] 0 rfl (by omega)
    rw [hb] at hloop
    rw [if_neg hodd]
    split
    case isTrue =>
      rw [hloop]
      exact ⟨by simp, rfl⟩
    case isFalse => exact ⟨by simp, rfl⟩

/-! ### Numbers -/

/-- The types of numbers. -/
def IsInt (type : NvsType) : Prop := type ≠ .any ∧ type ≠ .str ∧ type ≠ .blob

theorem outside_narrow {type : NvsType} {v : ℤ} (h : outside type v = true) :
    narrow type = true := by
  cases type <;> first | rfl | exact absurd h (by simp [outside])

theorem strtol_eq {bits : ℕ} {negative : Bool} {m : ℕ} {rest : List UInt8} {n : ℤ}
    (hnum : numeral text = some (negative, m, rest)) (hn : n = if negative then -(m : ℤ) else m)
    (hlow : -2 ^ (bits - 1) ≤ n) (hhigh : n < 2 ^ (bits - 1)) : strtol bits text = (n, false) := by
  rw [strtol, hnum]
  simp only [← hn]
  rw [if_neg (by omega), if_neg (by omega)]

theorem strtoul_eq {bits : ℕ} {negative : Bool} {m : ℕ} {rest : List UInt8} {n : ℤ}
    (hnum : numeral text = some (negative, m, rest)) (hn : n = if negative then -(m : ℤ) else m)
    (hlow : 0 ≤ n) (hhigh : n < 2 ^ bits) : strtoul bits text = (n, false) := by
  have hm : n = m := by
    cases negative with
    | false => exact hn
    | true =>
      simp only [if_true] at hn
      omega
  have hm' : m < 2 ^ bits := by
    have hcast : ((m : ℕ) : ℤ) < ((2 ^ bits : ℕ) : ℤ) := by
      rw [← hm]
      exact_mod_cast hhigh
    exact_mod_cast hcast
  rw [strtoul, hnum]
  simp only [← hn]
  rw [if_neg (by omega), Int.emod_eq_of_lt hlow hhigh]

/-- A number of the type is converted to itself. -/
theorem convert_eq {type : NvsType} {negative : Bool} {m : ℕ} {rest : List UInt8} {n : ℤ}
    (hnum : numeral text = some (negative, m, rest)) (hn : n = if negative then -(m : ℤ) else m)
    (hrange : InRange type n) : convert type text = (n, false) ∧ outside type n = false := by
  obtain ⟨hlow, hhigh⟩ := hrange
  cases type with
  | i8 =>
    simp only [bounds] at hlow hhigh
    exact ⟨strtol_eq hnum hn (by omega) (by omega), by simp [outside]; omega⟩
  | u8 =>
    simp only [bounds] at hlow hhigh
    exact ⟨strtoul_eq hnum hn (by omega) (by omega), by simp [outside]; omega⟩
  | i16 =>
    simp only [bounds] at hlow hhigh
    exact ⟨strtol_eq hnum hn (by omega) (by omega), by simp [outside]; omega⟩
  | u16 =>
    simp only [bounds] at hlow hhigh
    exact ⟨strtoul_eq hnum hn (by omega) (by omega), by simp [outside]; omega⟩
  | i32 =>
    simp only [bounds] at hlow hhigh
    exact ⟨strtol_eq hnum hn (by omega) (by omega), rfl⟩
  | u32 =>
    simp only [bounds] at hlow hhigh
    exact ⟨strtoul_eq hnum hn (by omega) (by omega), rfl⟩
  | i64 =>
    simp only [bounds] at hlow hhigh
    exact ⟨strtol_eq hnum hn (by omega) (by omega), rfl⟩
  | u64 =>
    simp only [bounds] at hlow hhigh
    exact ⟨strtoul_eq hnum hn (by omega) (by omega), rfl⟩
  | str =>
    simp only [bounds] at hlow hhigh
    omega
  | blob =>
    simp only [bounds] at hlow hhigh
    omega
  | any =>
    simp only [bounds] at hlow hhigh
    omega

/-! ### One command -/

section Step

variable {c : Command} {st : State σ}

/-- The branches for numbers, all in one. -/
theorem setBranch_int {type : NvsType} (h : IsInt type) :
    setBranch env type key text st =
      if narrow type && (outside type (convert type text).1 || (st.erange || (convert type text).2))
        then (.ok, true, { st with erange := st.erange || (convert type text).2 })
      else if st.erange || (convert type text).2 then
        (.ok, false, { st with erange := st.erange || (convert type text).2 })
      else
        ((env.set key (.int type (convert type text).1) st.nvs).1, false,
          ⟨(env.set key (.int type (convert type text).1) st.nvs).2,
            st.erange || (convert type text).2⟩) := by
  obtain ⟨hany, hstr, hblob⟩ := h
  cases type with
  | any => exact absurd rfl hany
  | str => exact absurd rfl hstr
  | blob => exact absurd rfl hblob
  | _ => rfl

theorem denotes_int {type : NvsType} (h : IsInt type) :
    denotes type text =
      match numeral text with
      | some (negative, m, []) =>
          if InRange type (if negative then -(m : ℤ) else m) then
            some (.int type (if negative then -(m : ℤ) else m))
          else none
      | _ => none := by
  obtain ⟨hany, hstr, hblob⟩ := h
  cases type with
  | any => exact absurd rfl hany
  | str => exact absurd rfl hstr
  | blob => exact absurd rfl hblob
  | _ => rfl

theorem refused_int {type : NvsType} (h : IsInt type) : Refused type text ↔
    outside type (convert type text).1 = true ∨ (convert type text).2 = true := by
  obtain ⟨hany, hstr, hblob⟩ := h
  cases type with
  | any => exact absurd rfl hany
  | str => exact absurd rfl hstr
  | blob => exact absurd rfl hblob
  | _ => exact Iff.rfl

/-- What a text for a number denotes is what it is converted to. -/
theorem denotes_convert {type : NvsType} (h : IsInt type) {v : Value}
    (hv : denotes type text = some v) : v = .int type (convert type text).1 ∧
      (convert type text).2 = false ∧ outside type (convert type text).1 = false := by
  rw [denotes_int h] at hv
  split at hv
  case h_1 negative m hnum =>
    by_cases hrange : InRange type (if negative then -(m : ℤ) else m)
    · obtain ⟨hconvert, hin⟩ := convert_eq hnum rfl hrange
      rw [if_pos hrange] at hv
      cases hv
      rw [hconvert]
      exact ⟨rfl, rfl, hin⟩
    · rw [if_neg hrange] at hv
      cases hv
  case h_2 => cases hv

/-- A number that is out of range, or comes after an overflow, is not stored. -/
theorem setValueInNvs_refused (hworks : Works env) (h : IsInt (strToType c.type))
    (hbad : st.erange = true ∨
      outside (strToType c.type) (convert (strToType c.type) c.value).1 = true ∨
      (convert (strToType c.type) c.value).2 = true) :
    (setValueInNvs env c st).1 ≠ .ok ∧ (setValueInNvs env c st).2.nvs = st.nvs := by
  rw [setValueInNvs]
  simp only [if_neg h.1, hworks.open_ok, ne_eq, not_true_eq_false, if_false, setBranch_int h]
  by_cases hnarrow : (narrow (strToType c.type) &&
      (outside (strToType c.type) (convert (strToType c.type) c.value).1 ||
        (st.erange || (convert (strToType c.type) c.value).2))) = true
  · rw [if_pos hnarrow]
    simp
  · rw [if_neg hnarrow]
    have herange : (st.erange || (convert (strToType c.type) c.value).2) = true := by
      rcases hbad with hbad | hbad | hbad
      · rw [hbad, Bool.true_or]
      · refine absurd ?_ hnarrow
        rw [outside_narrow hbad, hbad, Bool.true_or, Bool.and_true]
      · rw [hbad, Bool.or_true]
    rw [if_pos herange]
    simp [herange]

/-- Another one is. -/
theorem setValueInNvs_stored (hworks : Works env) (h : IsInt (strToType c.type))
    (herange : st.erange = false)
    (hout : outside (strToType c.type) (convert (strToType c.type) c.value).1 = false)
    (hover : (convert (strToType c.type) c.value).2 = false) :
    (setValueInNvs env c st).1 = .ok ∧ (setValueInNvs env c st).2.nvs =
      (env.set c.key (.int (strToType c.type) (convert (strToType c.type) c.value).1)
        st.nvs).2 := by
  rw [setValueInNvs]
  simp only [if_neg h.1, hworks.open_ok, ne_eq, not_true_eq_false, if_false, setBranch_int h,
    herange, hout, hover, Bool.or_self, Bool.and_false, Bool.false_eq_true, hworks.set_ok, if_true,
    hworks.commit_ok, or_self, and_self]

theorem exact_int (hworks : Works env) (h : IsInt (strToType c.type)) :
    Exact env c st ↔ Fine env c st := by
  have hnot : ¬ strToType c.type = .blob := h.2.2
  rw [Exact, Fine]
  cases hv : denotes (strToType c.type) c.value with
  | some v =>
    obtain ⟨rfl, hover, hout⟩ := denotes_convert h hv
    simp only [hnot, false_imp_iff, and_true]
    cases herange : st.erange with
    | true =>
      have hrefused := setValueInNvs_refused hworks h (.inl herange)
      exact iff_of_false (fun hok => hrefused.1 hok.1) (by decide)
    | false => exact iff_of_true (setValueInNvs_stored hworks h herange hout hover) rfl
  | none =>
    simp only [refused_int h]
    constructor
    · rintro ⟨herr, -⟩
      by_contra hgood
      obtain ⟨herange, hrest⟩ := not_or.mp hgood
      obtain ⟨hout, hover⟩ := not_or.mp hrest
      rw [Bool.not_eq_true] at herange hout hover
      exact herr (setValueInNvs_stored hworks h herange hout hover).1
    · exact setValueInNvs_refused hworks h

theorem exact_str (hworks : Works env) (h : strToType c.type = .str) :
    Exact env c st ↔ Fine env c st := by
  have hrun : setValueInNvs env c st =
      if st.erange then (.valueTooLong, ⟨(env.set c.key (.str c.value) st.nvs).2, st.erange⟩)
      else (.ok, ⟨(env.set c.key (.str c.value) st.nvs).2, st.erange⟩) := by
    rw [setValueInNvs]
    simp [h, hworks.open_ok, setBranch, hworks.set_ok, hworks.commit_ok]
  rw [Exact, Fine, hrun, h]
  cases st.erange with
  | true => exact iff_of_false (fun hok => absurd hok.1 (by simp)) (by simp [denotes])
  | false => exact iff_of_true ⟨rfl, rfl⟩ (by simp [denotes])

theorem exact_blob (hworks : Works env) (h : strToType c.type = .blob) :
    Exact env c st ↔ Fine env c st := by
  have hrun : setValueInNvs env c st =
      let r := storeBlob env c.key c.value st.nvs
      if st.erange then (.valueTooLong, ⟨r.2, st.erange⟩)
      else if r.1 = .ok then (env.commit r.2, ⟨r.2, st.erange⟩) else (r.1, ⟨r.2, st.erange⟩) := by
    rw [setValueInNvs]
    simp [h, hworks.open_ok, setBranch]
  rw [Exact, Fine, hrun, h]
  cases hb : bytes c.value with
  | none =>
    have hdenotes : denotes .blob c.value = none := by rw [denotes, hb]; rfl
    obtain ⟨herr, hsame⟩ := storeBlob_none env c.key st.nvs hb
    simp only [hdenotes]
    refine iff_of_true ?_ (.inr trivial)
    cases st.erange with
    | true => exact ⟨by simp, hsame⟩
    | false =>
      simp only [Bool.false_eq_true, if_false, if_neg herr]
      exact ⟨herr, hsame⟩
  | some b =>
    have hdenotes : denotes .blob c.value = some (.blob b) := by rw [denotes, hb]; rfl
    simp only [hdenotes, storeBlob_some hworks hb]
    cases hmem : env.malloc (c.value.length / 2) with
    | true =>
      simp only [if_true, hworks.commit_ok]
      cases st.erange with
      | true => exact iff_of_false (fun hok => absurd hok.1 (by simp)) (by simp)
      | false => exact iff_of_true ⟨rfl, rfl⟩ (by simp)
    | false =>
      simp only [Bool.false_eq_true, if_false]
      refine iff_of_false (fun hok => ?_) fun hfine => absurd (hfine.2 trivial) (by simp)
      have herr := hok.1
      split at herr <;> exact absurd herr (by simp)

/-- A command does what its text says, exactly if it is fine. -/
theorem exact_iff (hworks : Works env) (c : Command) (st : State σ) :
    Exact env c st ↔ Fine env c st := by
  by_cases hstr : strToType c.type = .str
  · exact exact_str hworks hstr
  by_cases hblob : strToType c.type = .blob
  · exact exact_blob hworks hblob
  by_cases hany : strToType c.type = .any
  · rw [Exact, Fine, setValueInNvs, hany]
    exact iff_of_true ⟨by simp, rfl⟩ (.inr trivial)
  · exact exact_int hworks ⟨hany, hstr, hblob⟩

end Step

/-- Each command of a run stores what its text denotes or is refused, exactly if all are fine. -/
theorem exact_run_iff {env : Env σ} (hworks : Works env) (cs : List Command) (st : State σ) :
    ExactRun env st cs ↔ FineRun env st cs := by
  induction cs generalizing st with
  | nil => exact Iff.rfl
  | cons c cs ih => exact and_congr (exact_iff hworks c st) (ih _)

/-- A flash that remembers what is stored under each key. -/
def remembering : Env (List UInt8 → Option Value) where
  malloc _ := true
  openNvs _ := .ok
  set key v nvs := (.ok, Function.update nvs key (some v))
  commit _ := .ok

theorem remembering_works : Works remembering := ⟨fun _ => rfl, fun _ _ _ => rfl, fun _ => rfl⟩

/-- A number that is too large for its type, a string and a number. -/
theorem exact_three : ExactRun remembering ⟨fun _ => none, false⟩
    [⟨ascii "a", ascii "u8", ascii "0x100"⟩, ⟨ascii "b", ascii "str", ascii "x"⟩,
      ⟨ascii "a", ascii "i16", ascii "-17"⟩] := by
  refine (exact_run_iff remembering_works _ _).mpr ⟨?_, ?_, ?_, trivial⟩
  · exact Or.inr (Or.inl (by decide))
  · exact ⟨rfl, fun h => absurd h (by decide)⟩
  · exact ⟨rfl, fun h => absurd h (by decide)⟩

/-- After an overflow a good number is refused. -/
theorem refused_after_overflow : ¬ ExactRun remembering ⟨fun _ => none, false⟩
    [⟨ascii "a", ascii "i32", ascii "99999999999"⟩, ⟨ascii "b", ascii "i32", ascii "5"⟩] := by
  rintro ⟨-, hexact, -⟩
  have hok : (setValueInNvs remembering ⟨ascii "b", ascii "i32", ascii "5"⟩
      ⟨fun _ => none, true⟩).1 = .ok := hexact.1
  exact absurd hok (by decide)

end NvsSet

end SqueezeliteMuse
