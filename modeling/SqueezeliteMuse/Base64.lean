/-
SqueezeliteMuse/Base64.lean

The base64 of raop.c.

A challenge and the keys of a stream come without the padding that base64 has,
and the answer is sent without it.  So there are three routines: `base64_encode`,
`base64_pad`, which is to put the padding back, and `base64_decode`.  `base64_pad`
adds `strlen % 4` characters where 4 less that is what is missing: the same for a
rest of 2, but not for a rest of 3.  `base64_decode` then finds a group that is too
short and returns -1, although the bytes are there.

Strings are lists of bytes without the NUL, and `char`s are bytes.

Main result: `base64_iff`: the encoding is that of RFC 4648, and the round trip gives
back the bytes and their number if and only if this is not 2 modulo 3.
-/
import SqueezeliteMuse.Lib.Regroup
import Mathlib.Data.Int.Notation
import Mathlib.Data.Nat.Bitwise

namespace SqueezeliteMuse

open Regroup

/-! ### The code -/

/-- `DECODE_ERROR` -/
def DECODE_ERROR : ℕ := 0xffffffff

/-- `base64_chars`: the capital letters, the small ones, the digits, `+` and `/`. -/
def base64Chars : List UInt8 :=
  [65, 66, 67, 68, 69, 70, 71, 72, 73, 74, 75, 76, 77, 78, 79, 80, 81, 82, 83, 84, 85, 86, 87, 88,
    89, 90, 97, 98, 99, 100, 101, 102, 103, 104, 105, 106, 107, 108, 109, 110, 111, 112, 113, 114,
    115, 116, 117, 118, 119, 120, 121, 122, 48, 49, 50, 51, 52, 53, 54, 55, 56, 57, 43, 47]

/-- `'='` -/
def padChar : UInt8 := 61

/-- `base64_pad` -/
def base64Pad (src : List UInt8) : List UInt8 := src ++ List.replicate (src.length % 4) padChar

/-- `pos` -/
def base64Pos (c : UInt8) : ℤ :=
  if c ∈ base64Chars then (base64Chars.idxOf c : ℤ) else -1

/-- `base64_chars[k]` -/
def base64Char (k : ℕ) : UInt8 := base64Chars.getD k 0

/-- `c` in `base64_encode`: three bytes from `q[i]` on, as far as there are any. -/
def base64Group (q : List UInt8) (i : ℕ) : ℕ :=
  let c := (q.getD i 0).toNat * 256
  let c := (if i + 1 < q.length then c + (q.getD (i + 1) 0).toNat else c) * 256
  if i + 2 < q.length then c + (q.getD (i + 2) 0).toNat else c

/-- What a round of `base64_encode` stores. -/
def base64Round (q : List UInt8) (i : ℕ) : List UInt8 :=
  let c := base64Group q i
  [base64Char ((c &&& 0x00fc0000) >>> 18),
    base64Char ((c &&& 0x0003f000) >>> 12),
    if i + 3 > q.length + 1 then padChar else base64Char ((c &&& 0x00000fc0) >>> 6),
    if i + 3 > q.length then padChar else base64Char ((c &&& 0x0000003f) >>> 0)]

/-- `base64_encode`: a round for every third `i` below `size`. -/
def base64Encode (q : List UInt8) : List UInt8 :=
  (List.range ((q.length + 2) / 3)).flatMap fun k => base64Round q (3 * k)

/-- The loop of `handle_rtsp` that removes the padding, at `n`. -/
def unpadFrom : ℕ → List UInt8 → List UInt8
  | 0, s => s
  | n + 1, s => if s.getD (n + 1) 0 = padChar then unpadFrom n (s.take (n + 1)) else s

/-- The encoding without its padding. -/
def base64Unpad (s : List UInt8) : List UInt8 := unpadFrom (s.length - 1) s

/-- A character in `token_decode`: `val` and `marker`, unless it is an error. -/
def tokenChar : Option (ℕ × ℕ) → UInt8 → Option (ℕ × ℕ)
  | none, _ => none
  | some (val, marker), c =>
      if c = padChar then some (val * 64 % 2 ^ 32, marker + 1)
      else if 0 < marker then none
      else some (((val * 64 + base64Pos c) % 2 ^ 32).toNat, marker)

/-- `token_decode` -/
def tokenDecode (token : List UInt8) : ℕ :=
  if token.length < 4 then DECODE_ERROR
  else
    match (token.take 4).foldl tokenChar (some (0, 0)) with
    | none => DECODE_ERROR
    | some (val, marker) => if 2 < marker then DECODE_ERROR else (marker <<< 24) ||| val

/-- What a round of `base64_decode` stores. -/
def tokenBytes (val : ℕ) : List UInt8 :=
  let marker := (val >>> 24) &&& 0xff
  [UInt8.ofNat ((val >>> 16) &&& 0xff)] ++
    (if marker < 2 then [UInt8.ofNat ((val >>> 8) &&& 0xff)] else []) ++
    (if marker < 1 then [UInt8.ofNat (val &&& 0xff)] else [])

/-- The loop of `base64_decode`, from `p` on: what it stores, and whether it gets through. -/
def base64DecodeFrom : ℕ → List UInt8 → List UInt8 × Bool
  | 0, _ => ([], false)
  | fuel + 1, p =>
      match p with
      | [] => ([], true)
      | c :: _ =>
          if c = padChar ∨ c ∈ base64Chars then
            if tokenDecode p = DECODE_ERROR then ([], false)
            else
              (tokenBytes (tokenDecode p) ++ (base64DecodeFrom fuel (p.drop 4)).1,
                (base64DecodeFrom fuel (p.drop 4)).2)
          else ([], true)

/-- `base64_decode`: what it stores, and what it returns. -/
def base64Decode (str : List UInt8) : List UInt8 × ℤ :=
  let r := base64DecodeFrom (str.length + 1) str
  (r.1, if r.2 then r.1.length else -1)

/-! ### RFC 4648 -/

/-- The base 64 alphabet. -/
def rfcChar (k : ℕ) : UInt8 :=
  if k < 26 then UInt8.ofNat (65 + k)
  else if k < 52 then UInt8.ofNat (97 + (k - 26))
  else if k < 62 then UInt8.ofNat (48 + (k - 52))
  else if k = 62 then 43
  else 47

/-- The bits of the bytes in groups of 6, the last one filled up with zeros; each as its character;
and padding up to a multiple of 4. -/
def rfc4648 (x : List UInt8) : List UInt8 :=
  let chars := (regroup 6 (x.flatMap fun b => bits 8 b.toNat)).map rfcChar
  chars ++ List.replicate ((4 - chars.length % 4) % 4) padChar

/-- The encoding is that of the RFC; without its padding it gives them back. -/
def RoundTrips (x : List UInt8) : Prop :=
  base64Encode x = rfc4648 x ∧
    base64Decode (base64Pad (base64Unpad (base64Encode x))) = (x, (x.length : ℤ))

/-! ### Characters -/

theorem base64Char_eq_rfcChar : ∀ k < 64, base64Char k = rfcChar k := by decide

theorem base64Pos_char : ∀ k < 64, base64Pos (base64Char k) = k := by decide

theorem base64Char_mem : ∀ k < 64, base64Char k ∈ base64Chars := by decide

theorem rfcChar_ne_pad (k : ℕ) : rfcChar k ≠ padChar := by
  by_cases h : k < 62
  · exact (by decide : ∀ k < 62, rfcChar k ≠ padChar) k h
  · have h₁ : ¬ k < 26 := by omega
    have h₂ : ¬ k < 52 := by omega
    rw [rfcChar, if_neg h₁, if_neg h₂, if_neg h]
    split <;> decide

/-! ### A group of three bytes -/

/-- The number that three bytes make. -/
def triple (a b c : UInt8) : ℕ := a.toNat * 2 ^ 16 + b.toNat * 2 ^ 8 + c.toNat

theorem triple_lt (a b c : UInt8) : triple a b c < 2 ^ 24 := by
  have ha := a.toNat_lt
  have hb := b.toNat_lt
  have hc := c.toNat_lt
  rw [triple]
  omega

/-- The characters of a number of 24 bits. -/
def sextets (v : ℕ) : List ℕ := [v / 2 ^ 18 % 64, v / 2 ^ 12 % 64, v / 2 ^ 6 % 64, v % 64]

theorem masked (v k : ℕ) : (v &&& 63 <<< k) >>> k = v / 2 ^ k % 64 := by
  rw [Nat.shiftRight_and_distrib, Nat.shiftLeft_shiftRight, Nat.shiftRight_eq_div_pow,
    Nat.and_two_pow_sub_one_eq_mod _ 6]

/-! ### The encoding -/

/-- The characters of the RFC without the padding. -/
def rfcBody (x : List UInt8) : List UInt8 :=
  (regroup 6 (x.flatMap fun b => bits 8 b.toNat)).map rfcChar

theorem rfc4648_eq (x : List UInt8) :
    rfc4648 x =
      rfcBody x ++ List.replicate ((4 - (rfcBody x).length % 4) % 4) padChar := rfl

/-- The bits of three bytes are those of their number. -/
theorem bits_triple (a b c : UInt8) :
    bits 8 a.toNat ++ bits 8 b.toNat ++ bits 8 c.toNat = bits 24 (triple a b c) := by
  have hb : b.toNat < 2 ^ 8 := b.toNat_lt
  have hc : c.toNat < 2 ^ 8 := c.toNat_lt
  have hv : (a.toNat * 2 ^ 8 + b.toNat) * 2 ^ 8 + c.toNat = triple a b c := by
    rw [triple]
    omega
  rw [bits_append _ hb, bits_append _ hc, hv]

theorem bits_sextets (v : ℕ) :
    bits 24 v =
      bits 6 (v / 2 ^ 18) ++ (bits 6 (v / 2 ^ 12) ++ (bits 6 (v / 2 ^ 6) ++ bits 6 v)) := by
  rw [bits_add 6 18, bits_add 6 12 v, bits_add 6 6 v]

theorem regroup_sextets (v : ℕ) (bs : List Bool) :
    regroup 6 (bits 24 v ++ bs) = sextets v ++ regroup 6 bs := by
  rw [bits_sextets, List.append_assoc, List.append_assoc, List.append_assoc,
    regroup_append (by decide) (length_bits 6 _), regroup_append (by decide) (length_bits 6 _),
    regroup_append (by decide) (length_bits 6 _), regroup_append (by decide) (length_bits 6 _),
    value_bits, value_bits, value_bits, value_bits]
  rfl

theorem rfcBody_nil : rfcBody [] = [] := by
  rw [rfcBody, List.flatMap_nil, regroup_nil (by decide), List.map_nil]

theorem rfcBody_triple (a b c : UInt8) (x : List UInt8) :
    rfcBody (a :: b :: c :: x) = (sextets (triple a b c)).map rfcChar ++ rfcBody x := by
  rw [rfcBody, List.flatMap_cons, List.flatMap_cons, List.flatMap_cons, ← List.append_assoc,
    ← List.append_assoc, bits_triple, regroup_sextets, List.map_append, rfcBody]

/-- One byte left: its bits and four zeros. -/
theorem rfcBody_one (a : UInt8) :
    rfcBody [a] = ((sextets (triple a 0 0)).take 2).map rfcChar := by
  have ha : a.toNat < 2 ^ 8 := a.toNat_lt
  have hsplit : bits 8 a.toNat = bits 6 (a.toNat / 2 ^ 2) ++ bits 2 a.toNat := bits_add 6 2 _
  have hlen : (bits 2 a.toNat).length = 2 := length_bits 2 _
  have hfill : bits 2 a.toNat ++ List.replicate 4 false = bits 6 (a.toNat * 2 ^ 4) := by
    rw [replicate_false, bits_append _ (by decide), Nat.add_zero (_ * _)]
  have hne : bits 2 a.toNat ≠ [] := List.ne_nil_of_length_pos (by rw [hlen]; decide)
  rw [rfcBody, List.flatMap_singleton, hsplit, regroup_append (by decide) (length_bits 6 _),
    regroup_last hne (by rw [hlen]; decide), hlen, hfill, value_bits, value_bits]
  have h₀ : a.toNat / 2 ^ 2 % 2 ^ 6 = triple a 0 0 / 2 ^ 18 % 64 := by simp [triple]; omega
  have h₁ : a.toNat * 2 ^ 4 % 2 ^ 6 = triple a 0 0 / 2 ^ 12 % 64 := by simp [triple]; omega
  rw [h₀, h₁]
  rfl

/-- Two bytes left: their bits and two zeros. -/
theorem rfcBody_two (a b : UInt8) :
    rfcBody [a, b] = ((sextets (triple a b 0)).take 3).map rfcChar := by
  have ha : a.toNat < 2 ^ 8 := a.toNat_lt
  have hb : b.toNat < 2 ^ 8 := b.toNat_lt
  have hsplit : bits 8 a.toNat ++ bits 8 b.toNat =
      bits 6 ((a.toNat * 2 ^ 8 + b.toNat) / 2 ^ 10) ++
        (bits 6 ((a.toNat * 2 ^ 8 + b.toNat) / 2 ^ 4) ++ bits 4 (a.toNat * 2 ^ 8 + b.toNat)) := by
    rw [bits_append _ hb, bits_add 6 10, bits_add 6 4 (a.toNat * 2 ^ 8 + b.toNat)]
  have hlen : (bits 4 (a.toNat * 2 ^ 8 + b.toNat)).length = 4 := length_bits 4 _
  have hfill : bits 4 (a.toNat * 2 ^ 8 + b.toNat) ++ List.replicate 2 false =
      bits 6 ((a.toNat * 2 ^ 8 + b.toNat) * 2 ^ 2) := by
    rw [replicate_false, bits_append _ (by decide), Nat.add_zero (_ * _)]
  have hne : bits 4 (a.toNat * 2 ^ 8 + b.toNat) ≠ [] :=
    List.ne_nil_of_length_pos (by rw [hlen]; decide)
  rw [rfcBody, List.flatMap_cons, List.flatMap_singleton, hsplit,
    regroup_append (by decide) (length_bits 6 _), regroup_append (by decide) (length_bits 6 _),
    regroup_last hne (by rw [hlen]; decide), hlen, hfill, value_bits, value_bits, value_bits]
  have h₀ : (a.toNat * 2 ^ 8 + b.toNat) / 2 ^ 10 % 2 ^ 6 = triple a b 0 / 2 ^ 18 % 64 := by
    simp [triple]; omega
  have h₁ : (a.toNat * 2 ^ 8 + b.toNat) / 2 ^ 4 % 2 ^ 6 = triple a b 0 / 2 ^ 12 % 64 := by
    simp [triple]; omega
  have h₂ : (a.toNat * 2 ^ 8 + b.toNat) * 2 ^ 2 % 2 ^ 6 = triple a b 0 / 2 ^ 6 % 64 := by
    simp [triple]; omega
  rw [h₀, h₁, h₂]
  rfl

/-- No character of the RFC is the padding. -/
theorem rfcBody_ne_pad {x : List UInt8} {c : UInt8} (hc : c ∈ rfcBody x) : c ≠ padChar := by
  rw [rfcBody, List.mem_map] at hc
  obtain ⟨k, -, rfl⟩ := hc
  exact rfcChar_ne_pad k

/-- A round of `base64_encode` at a place three bytes further on. -/
theorem base64Round_shift (a b c : UInt8) (x : List UInt8) (k : ℕ) :
    base64Round (a :: b :: c :: x) (3 * (k + 1)) = base64Round x (3 * k) := by
  have hget (j : ℕ) : (a :: b :: c :: x).getD (3 * (k + 1) + j) 0 = x.getD (3 * k + j) 0 := by
    rw [Nat.mul_add, Nat.add_right_comm]
    rfl
  have hlen : (a :: b :: c :: x).length = x.length + 3 := rfl
  have h1 : 3 * (k + 1) + 1 < x.length + 3 ↔ 3 * k + 1 < x.length := by omega
  have h2 : 3 * (k + 1) + 2 < x.length + 3 ↔ 3 * k + 2 < x.length := by omega
  have h3 : 3 * (k + 1) + 3 > x.length + 3 + 1 ↔ 3 * k + 3 > x.length + 1 := by omega
  have h4 : 3 * (k + 1) + 3 > x.length + 3 ↔ 3 * k + 3 > x.length := by omega
  have hgroup : base64Group (a :: b :: c :: x) (3 * (k + 1)) = base64Group x (3 * k) := by
    have hget₀ : (a :: b :: c :: x).getD (3 * (k + 1)) 0 = x.getD (3 * k) 0 := hget 0
    simp only [base64Group, hget₀, hget, hlen, h1, h2]
  simp only [base64Round, hgroup, hlen, h3, h4]

theorem base64Char_masked (v k : ℕ) :
    base64Char ((v &&& 63 <<< k) >>> k) = rfcChar (v / 2 ^ k % 64) := by
  rw [masked, base64Char_eq_rfcChar _ (Nat.mod_lt _ (by decide))]

/-- What a round stores: the characters of its group, but padding where nothing is left. -/
theorem base64Round_eq (q : List UInt8) (i : ℕ) :
    base64Round q i =
      [rfcChar (base64Group q i / 2 ^ 18 % 64), rfcChar (base64Group q i / 2 ^ 12 % 64),
        if i + 3 > q.length + 1 then padChar else rfcChar (base64Group q i / 2 ^ 6 % 64),
        if i + 3 > q.length then padChar else rfcChar (base64Group q i % 64)] := by
  have h₀ := base64Char_masked (base64Group q i) 0
  rw [Nat.pow_zero, Nat.div_one] at h₀
  rw [← base64Char_masked, ← base64Char_masked, ← base64Char_masked, ← h₀]
  rfl

theorem base64Encode_triple (a b c : UInt8) (x : List UInt8) :
    base64Encode (a :: b :: c :: x) = (sextets (triple a b c)).map rfcChar ++ base64Encode x := by
  have hcount : ((a :: b :: c :: x).length + 2) / 3 = (x.length + 2) / 3 + 1 := by
    rw [List.length_cons, List.length_cons, List.length_cons]
    omega
  have hgroup : base64Group (a :: b :: c :: x) 0 = triple a b c := by
    simp [base64Group, triple]
    omega
  have hfirst : base64Round (a :: b :: c :: x) 0 = (sextets (triple a b c)).map rfcChar := by
    rw [base64Round_eq, hgroup]
    simp [sextets]
  have hrest : (fun k => base64Round (a :: b :: c :: x) (3 * Nat.succ k)) =
      fun k => base64Round x (3 * k) := by
    funext k
    exact base64Round_shift a b c x k
  rw [base64Encode, hcount, List.range_succ_eq_map, List.flatMap_cons, List.flatMap_map, hrest,
    Nat.mul_zero, hfirst, base64Encode]

theorem base64Encode_one (a : UInt8) : base64Encode [a] = rfcBody [a] ++ [padChar, padChar] := by
  have hgroup : base64Group [a] 0 = triple a 0 0 := by
    simp [base64Group, triple]
    omega
  have henc : base64Encode [a] = base64Round [a] 0 := by simp [base64Encode]
  rw [henc, base64Round_eq, hgroup, rfcBody_one]
  rfl

theorem base64Encode_two (a b : UInt8) :
    base64Encode [a, b] = rfcBody [a, b] ++ [padChar] := by
  have hgroup : base64Group [a, b] 0 = triple a b 0 := by
    simp [base64Group, triple]
    omega
  have henc : base64Encode [a, b] = base64Round [a, b] 0 := by simp [base64Encode]
  rw [henc, base64Round_eq, hgroup, rfcBody_two]
  rfl

theorem length_rfcBody_triple (a b c : UInt8) (x : List UInt8) :
    (rfcBody (a :: b :: c :: x)).length = (rfcBody x).length + 4 := by
  rw [rfcBody_triple, List.length_append, List.length_map, Nat.add_comm]
  rfl

/-- The encoding is that of the RFC. -/
theorem base64Encode_eq : ∀ x, base64Encode x = rfc4648 x
  | [] => by
      rw [rfc4648_eq, rfcBody_nil]
      rfl
  | [a] => by
      rw [base64Encode_one, rfc4648_eq, rfcBody_one]
      rfl
  | [a, b] => by
      rw [base64Encode_two, rfc4648_eq, rfcBody_two]
      rfl
  | a :: b :: c :: x => by
      rw [base64Encode_triple, base64Encode_eq x, rfc4648_eq, rfc4648_eq, length_rfcBody_triple,
        Nat.add_mod_right, rfcBody_triple, List.append_assoc]

/-! ### Without the padding and with it again -/

theorem unpadFrom_replicate {s : List UInt8} {c : UInt8} (hc : c ≠ padChar) (n : ℕ) :
    unpadFrom (s.length + n) (s ++ [c] ++ List.replicate n padChar) = s ++ [c] := by
  induction n with
  | zero =>
      rw [List.replicate_zero, List.append_nil, Nat.add_zero]
      cases hs : s.length with
      | zero => rfl
      | succ k =>
          have hget : (s ++ [c]).getD (k + 1) 0 = c := by
            rw [List.getD_append_right _ _ _ _ (Nat.le_of_eq hs), hs, Nat.sub_self]
            rfl
          rw [unpadFrom, hget, if_neg hc]
  | succ n ih =>
      have hlen : (s ++ [c] ++ List.replicate n padChar).length = s.length + n + 1 := by
        rw [List.length_append, List.length_append, List.length_singleton, List.length_replicate]
        omega
      have hget : (s ++ [c] ++ List.replicate (n + 1) padChar).getD (s.length + n + 1) 0 =
          padChar := by
        rw [List.replicate_succ', ← List.append_assoc, ← hlen,
          List.getD_append_right _ _ _ _ (Nat.le_refl _), Nat.sub_self]
        rfl
      rw [← Nat.add_assoc, unpadFrom, if_pos hget, List.replicate_succ', ← List.append_assoc,
        ← hlen, List.take_left, ih]

theorem base64Unpad_append {s : List UInt8} (hs : ∀ c ∈ s, c ≠ padChar) (hne : s ≠ []) (n : ℕ) :
    base64Unpad (s ++ List.replicate n padChar) = s := by
  have hlast := List.dropLast_concat_getLast hne
  have hlen : (s ++ List.replicate n padChar).length - 1 = s.dropLast.length + n := by
    have hpos := List.length_pos_of_ne_nil hne
    rw [List.length_append, List.length_replicate, List.length_dropLast]
    omega
  have h := unpadFrom_replicate (s := s.dropLast) (hs _ (List.getLast_mem hne)) n
  rw [hlast] at h
  rw [base64Unpad, hlen, h]

/-- What is left without the padding. -/
theorem base64Unpad_encode (x : List UInt8) : base64Unpad (base64Encode x) = rfcBody x := by
  rw [base64Encode_eq, rfc4648_eq]
  by_cases hne : rfcBody x = []
  · rw [hne]
    rfl
  · exact base64Unpad_append (fun c => rfcBody_ne_pad) hne _

theorem base64Pad_triple (a b c : UInt8) (x : List UInt8) :
    base64Pad (rfcBody (a :: b :: c :: x)) =
      (sextets (triple a b c)).map rfcChar ++ base64Pad (rfcBody x) := by
  rw [base64Pad, length_rfcBody_triple, Nat.add_mod_right, rfcBody_triple, List.append_assoc,
    base64Pad]

/-! ### The decoding -/

theorem tokenChar_char {val k : ℕ} (hval : val < 2 ^ 18) (hk : k < 64) :
    tokenChar (some (val, 0)) (rfcChar k) = some (val * 64 + k, 0) := by
  have hpos : base64Pos (rfcChar k) = k := by
    rw [← base64Char_eq_rfcChar k hk]
    exact base64Pos_char k hk
  have hmod : ((val * 64 + base64Pos (rfcChar k)) % 2 ^ 32).toNat = val * 64 + k := by
    rw [hpos]
    omega
  rw [tokenChar, if_neg (rfcChar_ne_pad k), if_neg (Nat.lt_irrefl 0), hmod]

theorem tokenChar_pad {val : ℕ} (hval : val < 2 ^ 18) (m : ℕ) :
    tokenChar (some (val, m)) padChar = some (val * 64, m + 1) := by
  have hmod : val * 64 % 2 ^ 32 = val * 64 := Nat.mod_eq_of_lt (by omega)
  rw [tokenChar, if_pos rfl, hmod]

/-- The number of a group and how many of its characters are padding. -/
def marked (m v : ℕ) : ℕ := (m <<< 24) ||| v

theorem marked_eq (m : ℕ) {v : ℕ} (hv : v < 2 ^ 24) : marked m v = m * 2 ^ 24 + v := by
  rw [marked, ← Nat.shiftLeft_add_eq_or_of_lt hv, Nat.shiftLeft_eq]

theorem tokenBytes_marked {m v : ℕ} (hm : m < 256) (hv : v < 2 ^ 24) :
    tokenBytes (marked m v) =
      [UInt8.ofNat (v / 2 ^ 16)] ++
        (if m < 2 then [UInt8.ofNat (v / 2 ^ 8 % 256)] else []) ++
        (if m < 1 then [UInt8.ofNat (v % 256)] else []) := by
  have hand (n : ℕ) : n &&& 0xff = n % 256 := Nat.and_two_pow_sub_one_eq_mod n 8
  have h₃ : (m * 2 ^ 24 + v) / 2 ^ 24 % 256 = m := by omega
  have h₂ : (m * 2 ^ 24 + v) / 2 ^ 16 % 256 = v / 2 ^ 16 := by omega
  have h₁ : (m * 2 ^ 24 + v) / 2 ^ 8 % 256 = v / 2 ^ 8 % 256 := by omega
  have h₀ : (m * 2 ^ 24 + v) % 256 = v % 256 := by omega
  rw [tokenBytes, marked_eq m hv, hand, hand, hand, hand, Nat.shiftRight_eq_div_pow,
    Nat.shiftRight_eq_div_pow, Nat.shiftRight_eq_div_pow, h₃, h₂, h₁, h₀]

theorem triple_byte₁ (a b c : UInt8) : UInt8.ofNat (triple a b c / 2 ^ 16) = a := by
  have ha := a.toNat_lt
  have hb := b.toNat_lt
  have hc := c.toNat_lt
  have h : triple a b c / 2 ^ 16 = a.toNat := by
    rw [triple]
    omega
  rw [h, UInt8.ofNat_toNat]

theorem triple_byte₂ (a b c : UInt8) : UInt8.ofNat (triple a b c / 2 ^ 8 % 256) = b := by
  have hb := b.toNat_lt
  have hc := c.toNat_lt
  have h : triple a b c / 2 ^ 8 % 256 = b.toNat := by
    rw [triple]
    omega
  rw [h, UInt8.ofNat_toNat]

theorem triple_byte₃ (a b c : UInt8) : UInt8.ofNat (triple a b c % 256) = c := by
  have hc := c.toNat_lt
  have h : triple a b c % 256 = c.toNat := by
    rw [triple]
    omega
  rw [h, UInt8.ofNat_toNat]

/-- `token_decode` of four characters. -/
theorem tokenDecode_eq {t : List UInt8} {m v : ℕ} (hlen : t.length = 4) (hm : m ≤ 2)
    (hfold : t.foldl tokenChar (some (0, 0)) = some (v, m)) (s : List UInt8) :
    tokenDecode (t ++ s) = marked m v := by
  have hlong : ¬ (t ++ s).length < 4 := by
    rw [List.length_append, hlen]
    exact Nat.not_lt.mpr (Nat.le_add_right 4 _)
  rw [tokenDecode, if_neg hlong, ← hlen, List.take_left, hfold]
  exact if_neg (Nat.not_lt.mpr hm)

theorem sixBits (n : ℕ) : n % 64 < 64 := Nat.mod_lt n (by decide)

/-- Four characters that are not padding. -/
theorem tokenDecode_sextets {v : ℕ} (hv : v < 2 ^ 24) (s : List UInt8) :
    tokenDecode ((sextets v).map rfcChar ++ s) = marked 0 v := by
  have hsum : ((0 * 64 + v / 2 ^ 18 % 64) * 64 + v / 2 ^ 12 % 64) * 64 + v / 2 ^ 6 % 64 =
      v / 2 ^ 6 := by
    omega
  have hall : v / 2 ^ 6 * 64 + v % 64 = v := by omega
  apply tokenDecode_eq rfl (by decide)
  simp only [sextets, List.map_cons, List.map_nil, List.foldl_cons, List.foldl_nil]
  rw [tokenChar_char (by decide) (sixBits _), tokenChar_char (by omega) (sixBits _),
    tokenChar_char (by omega) (sixBits _), tokenChar_char (by omega) (sixBits _), hsum, hall]

/-- Three characters and padding. -/
theorem tokenDecode_three {v : ℕ} (hv : v < 2 ^ 24) (hlow : v % 64 = 0) (s : List UInt8) :
    tokenDecode (((sextets v).take 3).map rfcChar ++ [padChar] ++ s) = marked 1 v := by
  have hsum : ((0 * 64 + v / 2 ^ 18 % 64) * 64 + v / 2 ^ 12 % 64) * 64 + v / 2 ^ 6 % 64 =
      v / 2 ^ 6 := by
    omega
  have hall : v / 2 ^ 6 * 64 = v := by omega
  apply tokenDecode_eq rfl (by decide)
  simp only [sextets, List.take_succ_cons, List.take_zero, List.map_cons, List.map_nil,
    List.cons_append, List.nil_append, List.foldl_cons, List.foldl_nil]
  rw [tokenChar_char (by decide) (sixBits _), tokenChar_char (by omega) (sixBits _),
    tokenChar_char (by omega) (sixBits _), hsum, tokenChar_pad (by omega), hall]

/-- Two characters and padding. -/
theorem tokenDecode_two {v : ℕ} (hv : v < 2 ^ 24) (hlow : v % 4096 = 0) (s : List UInt8) :
    tokenDecode (((sextets v).take 2).map rfcChar ++ [padChar, padChar] ++ s) = marked 2 v := by
  have hsum : (0 * 64 + v / 2 ^ 18 % 64) * 64 + v / 2 ^ 12 % 64 = v / 2 ^ 12 := by omega
  have hall : v / 2 ^ 12 * 64 * 64 = v := by omega
  apply tokenDecode_eq rfl (by decide)
  simp only [sextets, List.take_succ_cons, List.take_zero, List.map_cons, List.map_nil,
    List.cons_append, List.nil_append, List.foldl_cons, List.foldl_nil]
  rw [tokenChar_char (by decide) (sixBits _), tokenChar_char (by omega) (sixBits _), hsum,
    tokenChar_pad (by omega), tokenChar_pad (by omega), hall]

theorem marked_ne_error {m v : ℕ} (hm : m < 3) (hv : v < 2 ^ 24) : marked m v ≠ DECODE_ERROR := by
  rw [marked_eq m hv, DECODE_ERROR]
  omega

theorem rfcChar_mem {k : ℕ} (hk : k < 64) : rfcChar k ∈ base64Chars := by
  rw [← base64Char_eq_rfcChar k hk]
  exact base64Char_mem k hk

/-- A round of `base64_decode` on a group that is one. -/
theorem base64DecodeFrom_group {k : ℕ} {t s : List UInt8} {m v : ℕ} (fuel : ℕ) (hk : k < 64)
    (ht : t.length = 3) (hp : tokenDecode (rfcChar k :: t ++ s) = marked m v) (hm : m < 3)
    (hv : v < 2 ^ 24) :
    base64DecodeFrom (fuel + 1) (rfcChar k :: t ++ s) =
      (tokenBytes (marked m v) ++ (base64DecodeFrom fuel s).1, (base64DecodeFrom fuel s).2) := by
  have hchar : rfcChar k = padChar ∨ rfcChar k ∈ base64Chars := Or.inr (rfcChar_mem hk)
  have hne : ¬ marked m v = DECODE_ERROR := marked_ne_error hm hv
  have hdrop : (rfcChar k :: (t ++ s)).drop 4 = s := by
    rw [List.drop_succ_cons, ← ht, List.drop_left]
  rw [List.cons_append] at hp ⊢
  simp only [base64DecodeFrom, if_pos hchar, hp, if_neg hne, hdrop]

/-- `base64_decode` gets through and has the bytes, unless two bytes are left at the end.  Then it
finds two `=` too much. -/
theorem base64DecodeFrom_pad : ∀ (x : List UInt8) (fuel : ℕ),
    (base64Pad (rfcBody x)).length < fuel →
      base64DecodeFrom fuel (base64Pad (rfcBody x)) = (x, decide (x.length % 3 ≠ 2))
  | _, 0, hfuel => (Nat.not_lt_zero _ hfuel).elim
  | [], fuel + 1, _ => by
      rw [rfcBody_nil]
      rfl
  | [a], fuel + 1, hfuel => by
      have hv := triple_lt a 0 0
      have hlow : triple a 0 0 % 4096 = 0 := by
        simp [triple]
        omega
      have hpad : base64Pad (rfcBody [a]) =
          ((sextets (triple a 0 0)).take 2).map rfcChar ++ [padChar, padChar] ++ [] := by
        rw [rfcBody_one]
        rfl
      rw [hpad] at hfuel ⊢
      have hrest : base64DecodeFrom fuel [] = ([], true) := by
        cases fuel with
        | zero => exact absurd (show 4 < 0 + 1 from hfuel) (by decide)
        | succ fuel => rfl
      have hround := base64DecodeFrom_group fuel (sixBits _) rfl
        (tokenDecode_two hv hlow []) (by decide) hv
      refine hround.trans ?_
      rw [hrest, tokenBytes_marked (by decide) hv, triple_byte₁]
      rfl
  | [a, b], fuel + 1, hfuel => by
      have hv := triple_lt a b 0
      have hlow : triple a b 0 % 64 = 0 := by
        simp [triple]
        omega
      have hpad : base64Pad (rfcBody [a, b]) =
          ((sextets (triple a b 0)).take 3).map rfcChar ++ [padChar] ++ [padChar, padChar] := by
        rw [rfcBody_two]
        rfl
      have hrest : base64DecodeFrom fuel [padChar, padChar] = ([], false) := by
        cases fuel with
        | zero => rfl
        | succ fuel => rfl
      rw [hpad]
      have hround := base64DecodeFrom_group fuel (sixBits _) rfl
        (tokenDecode_three hv hlow [padChar, padChar]) (by decide) hv
      refine hround.trans ?_
      rw [hrest, tokenBytes_marked (by decide) hv, triple_byte₁, triple_byte₂]
      rfl
  | a :: b :: c :: x, fuel + 1, hfuel => by
      have hv := triple_lt a b c
      have hlen : (base64Pad (rfcBody (a :: b :: c :: x))).length =
          (base64Pad (rfcBody x)).length + 4 := by
        rw [base64Pad_triple, List.length_append, Nat.add_comm]
        rfl
      have hrest := base64DecodeFrom_pad x fuel (by omega)
      have hround := base64DecodeFrom_group fuel (sixBits _) rfl
        (tokenDecode_sextets hv (base64Pad (rfcBody x))) (by decide) hv
      have hmod : (a :: b :: c :: x).length % 3 = x.length % 3 := Nat.add_mod_right _ 3
      rw [base64Pad_triple]
      refine hround.trans ?_
      rw [hrest, tokenBytes_marked (by decide) hv, triple_byte₁, triple_byte₂, triple_byte₃, hmod]
      rfl

/-- With `base64_pad` and `base64_decode` after it. -/
theorem base64Decode_pad (x : List UInt8) :
    base64Decode (base64Pad (rfcBody x)) =
      (x, if x.length % 3 ≠ 2 then (x.length : ℤ) else -1) := by
  have h := base64DecodeFrom_pad x _ (Nat.lt_succ_self (base64Pad (rfcBody x)).length)
  rw [base64Decode, h]
  simp only [decide_eq_true_eq]

/-- The encoding is right, and the round trip as well unless two bytes are left at the end. -/
theorem base64_iff (x : List UInt8) : RoundTrips x ↔ x.length % 3 ≠ 2 := by
  rw [RoundTrips, base64Unpad_encode, base64Decode_pad]
  constructor
  · rintro ⟨-, hdecode⟩ hmod
    rw [if_neg (not_not.mpr hmod)] at hdecode
    have hlen : (-1 : ℤ) = (x.length : ℤ) := congrArg Prod.snd hdecode
    omega
  · intro hmod
    exact ⟨base64Encode_eq x, by rw [if_pos hmod]⟩

/-- Two bytes. -/
theorem not_decoded : ¬ ∀ x, RoundTrips x := by
  intro h
  have hdecode := (h [1, 2]).2
  revert hdecode
  decide

end SqueezeliteMuse
