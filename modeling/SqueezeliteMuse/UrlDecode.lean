/-
SqueezeliteMuse/UrlDecode.lean

`url_decode` of tools.c.

The string is copied, and the copy is read while the string is written in place.  What
follows a `%` is taken for two hexadecimal digits, whatever it is: the NUL as well, and
what lies behind the block of the copy.

Main result: `url_decode_iff`: the string is decoded in its place, and an encoding gives
back what was encoded, if and only if every escape has its two characters.
-/
import SqueezeliteMuse.Lib.CString
import SqueezeliteMuse.Lib.Ring

namespace SqueezeliteMuse

namespace Url

open CString Ring

export CString (isdigit tolower)

/-! ### The code -/

/-- `from_hex` -/
def fromHex (ch : UInt8) : UInt8 := if isdigit ch then ch - 48 else tolower ch - 97 + 10

/-- The loop of `url_decode`, with what is left of the copy, its NUL included: the memory and
where the string ends; `none` if it reads behind the copy. -/
def decodeFrom : List UInt8 → (ℕ → UInt8) → ℕ → Option ((ℕ → UInt8) × ℕ)
  | [], _, _ => none
  | c :: src, mem, url =>
      if c = 0 then some (Function.update mem url 0, url)
      else if c = 37 then
        match src with
        | hi :: lo :: src =>
            decodeFrom src (Function.update mem url (fromHex hi <<< 4 ||| fromHex lo)) (url + 1)
        | _ => none
      else if c = 43 then decodeFrom src (Function.update mem url 32) (url + 1)
      else decodeFrom src (Function.update mem url c) (url + 1)

/-- `url_decode`, of a string in memory. -/
def decode (mem : ℕ → UInt8) (s : List UInt8) : Option ((ℕ → UInt8) × ℕ) :=
  decodeFrom (s ++ [0]) (write mem 0 (s ++ [0])) 0

/-! ### What it is for -/

/-- A hexadecimal digit, small or capital. -/
def IsDigit (d : UInt8) (v : UInt8) : Prop :=
  (CString.ascii "0123456789abcdef")[v.toNat]? = some (tolower d)

instance (d v : UInt8) : Decidable (IsDigit d v) :=
  decEq ((CString.ascii _)[v.toNat]?) (some (tolower d))

/-- The encodings of a string: which characters are escaped is left open. -/
inductive Encodes : List UInt8 → List UInt8 → Prop
  | nil : Encodes [] []
  | self {x s} (c : UInt8) (hc : c ∉ CString.ascii "%+ ") : Encodes x s → Encodes (c :: x) (c :: s)
  | plus {x s} : Encodes x s → Encodes (32 :: x) (43 :: s)
  | escape {x s} (hi lo v w : UInt8) (hhi : IsDigit hi v) (hlo : IsDigit lo w) :
      Encodes x s → Encodes ((16 * v + w) :: x) (37 :: hi :: lo :: s)

/-- The string is decoded in its place: nothing behind its NUL is read or written, and a NUL ends
what is left; an encoding gives back what was encoded. -/
def Decodes (mem : ℕ → UInt8) (s : List UInt8) : Prop :=
  ∃ mem' stop, decode mem s = some (mem', stop) ∧ stop ≤ s.length ∧ mem' stop = 0 ∧
    (∀ i, s.length < i → mem' i = mem i) ∧ ∀ x, Encodes x s → (List.range stop).map mem' = x

/-- Every escape has its two characters. -/
def Complete : List UInt8 → Prop
  | [] => True
  | c :: s =>
      if c = 37 then
        match s with
        | _ :: _ :: s => Complete s
        | _ => False
      else Complete s

theorem complete_escape (hi lo : UInt8) (s : List UInt8) :
    Complete (37 :: hi :: lo :: s) ↔ Complete s := by
  rw [Complete, if_pos rfl]

theorem complete_cons {c : UInt8} (h : c ≠ 37) (s : List UInt8) :
    Complete (c :: s) ↔ Complete s := by
  conv_lhs => unfold Complete
  rw [if_neg h]

theorem not_complete {s : List UInt8} (h : s.length < 2) : ¬ Complete (37 :: s) := by
  match s with
  | [] => exact id
  | [_] => exact id
  | _ :: _ :: _ => exact absurd h (by simp)

/-! ### One character after the other -/

theorem tolower_digit {d : UInt8} (h : isdigit d = true) : tolower d = d := by
  have hd : d ≤ 57 := by
    simp only [isdigit, Bool.and_eq_true, decide_eq_true_eq] at h
    exact h.2
  refine if_neg fun hcap => ?_
  exact absurd (UInt8.le_trans hcap.1 hd) (by decide)

/-- What `tolower` makes of a capital letter is none. -/
theorem tolower_tolower (d : UInt8) : tolower (tolower d) = tolower d := by
  by_cases hcap : 65 ≤ d ∧ d ≤ 90
  · have h₁ := UInt8.le_iff_toNat_le.mp hcap.1
    have h₂ := UInt8.le_iff_toNat_le.mp hcap.2
    simp only [UInt8.reduceToNat] at h₁ h₂
    have hsmall : tolower d = d + 32 := if_pos hcap
    rw [hsmall]
    refine if_neg fun h => ?_
    have h₃ := UInt8.le_iff_toNat_le.mp h.2
    rw [UInt8.toNat_add] at h₃
    simp only [UInt8.reduceToNat] at h₃
    omega
  · have hself : tolower d = d := if_neg hcap
    rw [hself, hself]

theorem isdigit_tolower (d : UInt8) : isdigit (tolower d) = isdigit d := by
  by_cases hcap : 65 ≤ d ∧ d ≤ 90
  · have h₁ := UInt8.le_iff_toNat_le.mp hcap.1
    have h₂ := UInt8.le_iff_toNat_le.mp hcap.2
    simp only [UInt8.reduceToNat] at h₁ h₂
    have hno : ∀ e : UInt8, 58 ≤ e.toNat → isdigit e = false := by
      intro e he
      simp only [isdigit, Bool.and_eq_false_iff, decide_eq_false_iff_not, UInt8.le_iff_toNat_le,
        UInt8.reduceToNat]
      omega
    rw [hno d (by omega), hno (tolower d)]
    rw [tolower, if_pos hcap, UInt8.toNat_add]
    simp only [UInt8.reduceToNat]
    omega
  · rw [tolower, if_neg hcap]

/-- The value of a digit. -/
theorem fromHex_digit {d v : UInt8} (h : IsDigit d v) : fromHex d = v ∧ v.toNat < 16 := by
  have hlt : v.toNat < 16 := (List.getElem?_eq_some_iff.mp h).1
  have hsmall : fromHex (tolower d) = fromHex d := by
    rw [fromHex, isdigit_tolower, tolower_tolower, fromHex]
    split
    case isTrue hdig => rw [tolower_digit hdig]
    case isFalse => rfl
  have htable : ∀ n : Fin 16, ((CString.ascii "0123456789abcdef")[n.val]?).map fromHex =
      some (UInt8.ofNat n.val) := by decide
  have hv := htable ⟨v.toNat, hlt⟩
  rw [h, Option.map_some, hsmall, UInt8.ofNat_toNat] at hv
  exact ⟨Option.some.inj hv, hlt⟩

section Run

variable {c hi lo : UInt8} {s src : List UInt8} (mem : ℕ → UInt8) (url : ℕ)

theorem decodeFrom_nul : decodeFrom (0 :: src) mem url = some (Function.update mem url 0, url) := by
  conv_lhs => unfold decodeFrom
  exact if_pos rfl

theorem decodeFrom_escape : decodeFrom (37 :: hi :: lo :: src) mem url =
    decodeFrom src (Function.update mem url (fromHex hi <<< 4 ||| fromHex lo)) (url + 1) := by
  rw [decodeFrom, if_neg (by decide), if_pos rfl]

theorem decodeFrom_cut : decodeFrom [37, c] mem url = none := by
  rw [decodeFrom, if_neg (by decide), if_pos rfl]
  simp

theorem decodeFrom_self (h₀ : c ≠ 0) (h : c ≠ 37) : decodeFrom (c :: src) mem url =
    decodeFrom src (Function.update mem url (if c = 43 then 32 else c)) (url + 1) := by
  conv_lhs => unfold decodeFrom
  rw [if_neg h₀, if_neg h]
  split <;> rfl

end Run

/-! ### Whole strings -/

variable {s : List UInt8}

/-- Two digits are put together. -/
theorem digits_byte {v w : UInt8} (hv : v.toNat < 16) (hw : w.toNat < 16) :
    v <<< 4 ||| w = 16 * v + w := by
  have htable : ∀ a b : Fin 16,
      UInt8.ofNat a <<< 4 ||| UInt8.ofNat b = 16 * UInt8.ofNat a + UInt8.ofNat b := by decide
  have h := htable ⟨v.toNat, hv⟩ ⟨w.toNat, hw⟩
  simpa only [UInt8.ofNat_toNat] using h

theorem decodeFrom_escape_encodes {hi lo v w : UInt8} (hhi : IsDigit hi v) (hlo : IsDigit lo w) :
    fromHex hi <<< 4 ||| fromHex lo = 16 * v + w := by
  obtain ⟨rfl, hv⟩ := fromHex_digit hhi
  obtain ⟨rfl, hw⟩ := fromHex_digit hlo
  exact digits_byte hv hw

/-- The characters that a string with complete escapes is decoded to. -/
theorem decodeFrom_complete (hs : 0 ∉ s) (h : Complete s) (mem : ℕ → UInt8) (url : ℕ) :
    ∃ out, decodeFrom (s ++ [0]) mem url =
        some (write mem url (out ++ [0]), url + out.length) ∧ out.length ≤ s.length ∧
      ∀ x, Encodes x s → out = x := by
  induction s using Complete.induct generalizing mem url with
  | case1 =>
      refine ⟨[], ?_, Nat.le_refl _, ?_⟩
      · rw [List.nil_append, decodeFrom_nul]
        simp only [write_cons, write_nil, List.length_nil, Nat.add_zero]
      · rintro x ⟨⟩
        rfl
  | case2 hi lo s ih =>
      have hs' : 0 ∉ s := fun hmem => hs (by simp [hmem])
      obtain ⟨out, hrun, hlen, hx⟩ := ih hs' ((complete_escape hi lo s).mp h)
        (Function.update mem url (fromHex hi <<< 4 ||| fromHex lo)) (url + 1)
      refine ⟨(fromHex hi <<< 4 ||| fromHex lo) :: out, ?_, ?_, ?_⟩
      · rw [List.cons_append, List.cons_append, List.cons_append, decodeFrom_escape, hrun,
          List.cons_append, write_cons, List.length_cons, Nat.add_right_comm, Nat.add_assoc]
      · simp only [List.length_cons]
        omega
      · rintro x henc
        cases henc with
        | self c hc => exact absurd (by decide) hc
        | escape _ _ v w hhi hlo henc =>
            rw [decodeFrom_escape_encodes hhi hlo, hx _ henc]
  | case3 s hcut =>
      refine absurd h (not_complete ?_)
      match s with
      | [] => decide
      | [_] => exact Nat.lt_succ_self 1
      | hi :: lo :: s => exact (hcut hi lo s rfl).elim
  | case4 c s hc ih =>
      have hs' : 0 ∉ s := fun hmem => hs (List.mem_cons_of_mem c hmem)
      have hne : c ≠ 0 := fun hzero => hs (hzero ▸ List.mem_cons_self)
      obtain ⟨out, hrun, hlen, hx⟩ := ih hs' ((complete_cons hc s).mp h)
        (Function.update mem url (if c = 43 then 32 else c)) (url + 1)
      refine ⟨(if c = 43 then 32 else c) :: out, ?_, Nat.succ_le_succ hlen, ?_⟩
      · rw [List.cons_append, decodeFrom_self _ _ hne hc, hrun, List.cons_append, write_cons,
          List.length_cons, Nat.add_right_comm, Nat.add_assoc]
      · rintro x henc
        cases henc with
        | self c hc henc =>
            have hplus : c ≠ 43 := fun h => hc (h ▸ by decide)
            rw [if_neg hplus, hx _ henc]
        | plus henc => rw [if_pos rfl, hx _ henc]
        | escape => exact absurd rfl hc

/-- An escape that is cut short is read behind the NUL. -/
theorem decodeFrom_of_not_complete (hs : 0 ∉ s) (h : ¬ Complete s) (mem : ℕ → UInt8) (url : ℕ) :
    decodeFrom (s ++ [0]) mem url = none := by
  induction s using Complete.induct generalizing mem url with
  | case1 => exact absurd trivial h
  | case2 hi lo s ih =>
      have hs' : 0 ∉ s := fun hmem => hs (by simp [hmem])
      rw [List.cons_append, List.cons_append, List.cons_append, decodeFrom_escape]
      exact ih hs' (fun hc => h ((complete_escape hi lo s).mpr hc)) _ _
  | case3 s hcut =>
      match s with
      | [] => exact decodeFrom_cut mem url
      | [c] =>
          -- the NUL is taken for the second digit
          rw [List.cons_append, List.singleton_append, decodeFrom_escape, decodeFrom]
      | hi :: lo :: s => exact (hcut hi lo s rfl).elim
  | case4 c s hc ih =>
      have hs' : 0 ∉ s := fun hmem => hs (List.mem_cons_of_mem c hmem)
      have hne : c ≠ 0 := fun hzero => hs (hzero ▸ List.mem_cons_self)
      rw [List.cons_append, decodeFrom_self _ _ hne hc]
      exact ih hs' (fun hc' => h ((complete_cons hc s).mpr hc')) _ _

/-- `url_decode` decodes a string in its place if and only if every escape has its two
characters. -/
theorem url_decode_iff (mem : ℕ → UInt8) (s : List UInt8) (hs : 0 ∉ s) :
    Decodes mem s ↔ Complete s := by
  constructor
  · rintro ⟨mem', stop, hrun, -⟩
    by_contra h
    rw [decode, decodeFrom_of_not_complete hs h] at hrun
    cases hrun
  · intro h
    obtain ⟨out, hrun, hlen, hx⟩ := decodeFrom_complete hs h (write mem 0 (s ++ [0])) 0
    rw [Nat.zero_add] at hrun
    refine ⟨_, _, hrun, hlen, ?_, ?_, ?_⟩
    · have hstop := @write_add _ (write mem 0 (s ++ [0])) 0 out.length (out ++ [0]) (by simp)
      simpa using hstop
    · intro i hi
      rw [write_of_ge (by simp; omega), write_of_ge (by simp; omega)]
    · intro x henc
      rw [← hx x henc]
      refine List.ext_getElem (by simp) fun i hi _ => ?_
      have hi' : i < out.length := by simpa using hi
      have hget := @write_add _ (write mem 0 (s ++ [0])) 0 i (out ++ [0]) (by simp; omega)
      rw [Nat.zero_add] at hget
      rw [List.getElem_map, List.getElem_range, hget, List.getElem_append_left hi']

/-- The two blanks of `"a%20b+c"`. -/
theorem url_decode_blanks : Decodes (fun _ => 255) (CString.ascii "a%20b+c") := by
  have htext : CString.ascii "a%20b+c" = [97, 37, 50, 48, 98, 43, 99] := by decide
  refine (url_decode_iff _ _ (by decide)).mpr ?_
  rw [htext, complete_cons (by decide), complete_escape, complete_cons (by decide),
    complete_cons (by decide), complete_cons (by decide)]
  trivial

/-- `"a%4"` is read behind its NUL. -/
theorem url_decode_reads_behind : ¬ Decodes (fun _ => 255) (CString.ascii "a%4") := by
  rintro ⟨mem', stop, hrun, -⟩
  have htext : CString.ascii "a%4" = [97, 37, 52] := by decide
  have hcut : ¬ Complete [97, 37, 52] := by
    rw [complete_cons (by decide)]
    exact not_complete (by decide)
  rw [htext, decode, decodeFrom_of_not_complete (by decide) hcut] at hrun
  cases hrun

end Url

end SqueezeliteMuse
