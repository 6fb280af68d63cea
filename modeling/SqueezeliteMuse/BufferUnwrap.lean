/-
SqueezeliteMuse/BufferUnwrap.lean

What `_buf_unwrap` does to a buffer, and to the memory around it.

`unwrapRun` follows a call through its recursion, and next to the buffer that it
leaves keeps the spans that `memcpy` and `memmove` read and write.  A call is
`Unwrapped` if the bytes stay what they are, in their order, the pointers stay in
range, the spans are inside, and the bytes that were asked for are in one piece.

`size <= 0` is asked of a `size_t`: where there is room to move the data up
directly, that is only found out when it is just enough.  Otherwise `malloc` is
asked for 4 GiB less a few bytes, and what follows is two calls for half as much,
which leave half as much in one piece.

Main result: `unwraps_iff`: a call does what it is for if and only if there is
nothing to do, the data is not wrapped, or the room is just enough or made up for
by a scratch zone that is not too large.
-/
import SqueezeliteMuse.Buffer

namespace SqueezeliteMuse

open Ring

/-! ### The code -/

/-- Bytes of the block that a copy reads or writes. -/
structure Span where
  first : ℤ
  count : ℕ

/-- The span is inside a block of so many bytes. -/
def Span.Inside (size : ℕ) (p : Span) : Prop :=
  p.count = 0 ∨ 0 ≤ p.first ∧ p.first + p.count ≤ size

/-- The copies of one level of `_buf_unwrap`, each with where it writes and what it reads; `none`
if there is no scratch zone. -/
def unwrapSpans (malloc : ℕ → Bool) (b : Buffer) (cont : ℕ) : Option (List Span) :=
  let shift := cont - (b.wrap - b.readp)
  let top := b.wrap - b.readp
  let len := b.writep - b.buf
  let r : ℤ := (b.readp - b.buf : ℕ)
  if shift = 0 ∨ cont ≥ b.size then some []
  else if b.writep ≥ b.readp then
    some [⟨r - shift, b.writep - b.readp⟩, ⟨r, b.writep - b.readp⟩]
  else
    let size := (((shift : ℤ) - (b.readp - b.writep : ℕ)) % 2 ^ 32).toNat
    if size = 0 then
      some ([⟨r - shift, top⟩, ⟨r, top⟩, ⟨b.size - shift, min len shift⟩, ⟨0, min len shift⟩] ++
        if len > shift then [⟨0, len - shift⟩, ⟨shift, len - shift⟩] else [])
    else if malloc size then
      let rest := (((len : ℤ) - shift - size) % 2 ^ 32).toNat
      some [⟨len - size, size⟩, ⟨r - shift, top⟩, ⟨r, top⟩, ⟨b.size - shift, shift⟩, ⟨0, shift⟩,
        ⟨0, rest⟩, ⟨shift, rest⟩, ⟨(len : ℤ) - shift - size, size⟩]
    else none

/-- `_buf_unwrap`, with its copies; `none` if it does not end within so many levels. -/
def unwrapRun (malloc : ℕ → Bool) : ℕ → Buffer → ℕ → Option (Buffer × List Span)
  | 0, _, _ => none
  | fuel + 1, b, cont =>
      match unwrapSpans malloc b cont with
      | some spans => some (bufUnwrap malloc 1 b cont, spans)
      | none =>
          (unwrapRun malloc fuel b (cont / 2)).bind fun r =>
            (unwrapRun malloc fuel r.1 (cont - cont / 2)).map fun r' => (r'.1, r.2 ++ r'.2)

/-! ### What it is for -/

/-- `buf <= readp, writep < wrap = buf + size` -/
structure Buffer.Ranged (b : Buffer) : Prop where
  readp_ge : b.buf ≤ b.readp
  readp_lt : b.readp < b.wrap
  writep_ge : b.buf ≤ b.writep
  writep_lt : b.writep < b.wrap
  wrap_eq : b.wrap = b.buf + b.size

/-- The block is where it was, the pointers are in range, the bytes are the same in their order,
and no copy goes outside. -/
structure Kept (b : Buffer) (r : Buffer × List Span) : Prop where
  buf : r.1.buf = b.buf
  size : r.1.size = b.size
  ranged : r.1.Ranged
  content : r.1.content = b.content
  inside : ∀ p ∈ r.2, p.Inside b.size

/-- What a call is to leave, of a buffer of which `cont` bytes are to be in one piece. -/
structure Unwrapped (b : Buffer) (cont : ℕ) (r : Buffer × List Span) : Prop extends Kept b r where
  cont : min cont (bufUsed b) ≤ bufContRead r.1

/-- `_buf_unwrap` ends, and has done what it is for. -/
def Unwraps (malloc : ℕ → Bool) (b : Buffer) (cont : ℕ) : Prop :=
  ∃ fuel r, unwrapRun malloc fuel b cont = some r ∧ Unwrapped b cont r

/-- The data is in one piece, or what is asked for is; or moving it up leaves no gap, and the
bytes in front do not just end at the wrap; or a scratch zone holds what is in the way, and the
bytes in front reach over both. -/
def UnwrapClear (malloc : ℕ → Bool) (b : Buffer) (cont : ℕ) : Prop :=
  cont ≤ b.wrap - b.readp ∨ b.readp ≤ b.writep ∨ b.writep = b.buf ∨
    (cont + (b.writep - b.buf) = b.size ∧ b.readp - b.buf ≠ 2 * (b.writep - b.buf)) ∨
    (b.size < cont + (b.writep - b.buf) ∧ malloc (cont + (b.writep - b.buf) - b.size) = true ∧
      2 * cont ≤ b.size + (b.wrap - b.readp))

/-! ### One level -/

section Level
variable (malloc : ℕ → Bool) {b : Buffer} {cont : ℕ}

/-- The `size_t` of a scratch zone, of a buffer that is wrapped. -/
def scratchSize (b : Buffer) (cont : ℕ) : ℕ :=
  (((cont - (b.wrap - b.readp) : ℕ) : ℤ) - (b.readp - b.writep : ℕ)) % 2 ^ 32 |>.toNat

theorem level_idle (h : cont ≤ b.wrap - b.readp) (fuel : ℕ) :
    unwrapSpans malloc b cont = some [] ∧ bufUnwrap malloc (fuel + 1) b cont = b := by
  have hshift : cont - (b.wrap - b.readp) = 0 ∨ cont ≥ b.size := .inl (by omega)
  rw [unwrapSpans, bufUnwrap]
  exact ⟨if_pos hshift, if_pos hshift⟩

theorem level_short (h : b.size ≤ cont) (fuel : ℕ) :
    unwrapSpans malloc b cont = some [] ∧ bufUnwrap malloc (fuel + 1) b cont = b := by
  have hshift : cont - (b.wrap - b.readp) = 0 ∨ cont ≥ b.size := .inr h
  rw [unwrapSpans, bufUnwrap]
  exact ⟨if_pos hshift, if_pos hshift⟩

variable (hmove : b.wrap - b.readp < cont) (hcont : cont < b.size)

include hmove hcont in
theorem level_up (hw : b.readp ≤ b.writep) (fuel : ℕ) :
    unwrapSpans malloc b cont =
        some [⟨((b.readp - b.buf : ℕ) : ℤ) - (cont - (b.wrap - b.readp) : ℕ), b.writep - b.readp⟩,
          ⟨(b.readp - b.buf : ℕ), b.writep - b.readp⟩] ∧
      bufUnwrap malloc (fuel + 1) b cont =
        { b with
          mem := memMove b.mem (b.readp - (cont - (b.wrap - b.readp)) - b.buf) (b.readp - b.buf)
            (b.writep - b.readp)
          readp := b.readp - (cont - (b.wrap - b.readp))
          writep := b.writep - (cont - (b.wrap - b.readp)) } := by
  have hshift : ¬(cont - (b.wrap - b.readp) = 0 ∨ cont ≥ b.size) := by omega
  rw [unwrapSpans, bufUnwrap]
  simp only [if_neg hshift, if_pos hw, and_self]

include hmove hcont in
/-- No scratch zone: two calls for half as much. -/
theorem level_halves (hw : b.writep < b.readp) (hsize : scratchSize b cont ≠ 0)
    (hno : malloc (scratchSize b cont) = false) (fuel : ℕ) :
    unwrapSpans malloc b cont = none ∧
      bufUnwrap malloc (fuel + 1) b cont =
        bufUnwrap malloc fuel (bufUnwrap malloc fuel b (cont / 2)) (cont - cont / 2) := by
  have hshift : ¬(cont - (b.wrap - b.readp) = 0 ∨ cont ≥ b.size) := by omega
  rw [scratchSize] at hsize hno
  rw [unwrapSpans, bufUnwrap]
  simp only [if_neg hshift, if_neg (Nat.not_le.mpr hw), if_neg hsize, hno, ge_iff_le,
    Bool.false_eq_true, if_false, and_self]

/-- The data is moved up into the room, which is just enough. -/
def bufDirect (b : Buffer) (shift : ℕ) : Buffer :=
  let len := b.writep - b.buf
  let moved := memMove b.mem (b.readp - shift - b.buf) (b.readp - b.buf) (b.wrap - b.readp)
  let filled := memMove moved (b.size - shift) 0 (min len shift)
  { b with
    readp := b.readp - shift
    mem := if len > shift then memMove filled 0 shift (len - shift) else filled
    writep := if len > shift then b.writep - shift else b.writep + b.size - shift }

include hmove hcont in
theorem level_direct (hw : b.writep < b.readp) (hsize : scratchSize b cont = 0) (fuel : ℕ) :
    unwrapSpans malloc b cont =
        some ([⟨((b.readp - b.buf : ℕ) : ℤ) - (cont - (b.wrap - b.readp) : ℕ), b.wrap - b.readp⟩,
          ⟨(b.readp - b.buf : ℕ), b.wrap - b.readp⟩,
          ⟨(b.size : ℤ) - (cont - (b.wrap - b.readp) : ℕ),
            min (b.writep - b.buf) (cont - (b.wrap - b.readp))⟩,
          ⟨0, min (b.writep - b.buf) (cont - (b.wrap - b.readp))⟩] ++
          if b.writep - b.buf > cont - (b.wrap - b.readp) then
            [⟨0, b.writep - b.buf - (cont - (b.wrap - b.readp))⟩,
              ⟨(cont - (b.wrap - b.readp) : ℕ), b.writep - b.buf - (cont - (b.wrap - b.readp))⟩]
          else []) ∧
      bufUnwrap malloc (fuel + 1) b cont = bufDirect b (cont - (b.wrap - b.readp)) := by
  have hshift : ¬(cont - (b.wrap - b.readp) = 0 ∨ cont ≥ b.size) := by omega
  rw [scratchSize] at hsize
  rw [unwrapSpans, bufUnwrap]
  simp only [if_neg hshift, if_neg (Nat.not_le.mpr hw), if_pos hsize, ge_iff_le]
  exact ⟨trivial, rfl⟩

/-- The data is moved up, and what is in the way goes through a scratch zone. -/
def bufScratch (b : Buffer) (shift size : ℕ) : Buffer :=
  let len := b.writep - b.buf
  let moved := memMove b.mem (b.readp - shift - b.buf) (b.readp - b.buf) (b.wrap - b.readp)
  let rest := (((len : ℤ) - shift - size) % 2 ^ 32).toNat
  let filled := memMove (memMove moved (b.size - shift) 0 shift) 0 shift rest
  { b with
    readp := b.readp - shift
    writep := b.writep - shift
    mem := fun i =>
      if len - shift - size ≤ i ∧ i < len - shift then
        b.mem (len - size + (i - (len - shift - size)))
      else filled i }

include hmove hcont in
theorem level_scratch (hw : b.writep < b.readp) (hsize : scratchSize b cont ≠ 0)
    (hyes : malloc (scratchSize b cont) = true) (fuel : ℕ) :
    unwrapSpans malloc b cont =
        some [⟨((b.writep - b.buf : ℕ) : ℤ) - scratchSize b cont, scratchSize b cont⟩,
          ⟨((b.readp - b.buf : ℕ) : ℤ) - (cont - (b.wrap - b.readp) : ℕ), b.wrap - b.readp⟩,
          ⟨(b.readp - b.buf : ℕ), b.wrap - b.readp⟩,
          ⟨(b.size : ℤ) - (cont - (b.wrap - b.readp) : ℕ), cont - (b.wrap - b.readp)⟩,
          ⟨0, cont - (b.wrap - b.readp)⟩,
          ⟨0, (((b.writep - b.buf : ℕ) - (cont - (b.wrap - b.readp) : ℕ) - scratchSize b cont : ℤ) %
            2 ^ 32).toNat⟩,
          ⟨(cont - (b.wrap - b.readp) : ℕ),
            (((b.writep - b.buf : ℕ) - (cont - (b.wrap - b.readp) : ℕ) - scratchSize b cont : ℤ) %
              2 ^ 32).toNat⟩,
          ⟨((b.writep - b.buf : ℕ) : ℤ) - (cont - (b.wrap - b.readp) : ℕ) - scratchSize b cont,
            scratchSize b cont⟩] ∧
      bufUnwrap malloc (fuel + 1) b cont =
        bufScratch b (cont - (b.wrap - b.readp)) (scratchSize b cont) := by
  have hshift : ¬(cont - (b.wrap - b.readp) = 0 ∨ cont ≥ b.size) := by omega
  rw [scratchSize] at hsize hyes
  rw [unwrapSpans, bufUnwrap]
  simp only [if_neg hshift, if_neg (Nat.not_le.mpr hw), if_neg hsize, hyes, ge_iff_le, if_true]
  exact ⟨rfl, rfl⟩

end Level

/-- The run leaves what the model of the call leaves. -/
theorem bufUnwrap_of_run {malloc : ℕ → Bool} {fuel : ℕ} {b : Buffer} {cont : ℕ}
    {r : Buffer × List Span} (h : unwrapRun malloc fuel b cont = some r) :
    bufUnwrap malloc fuel b cont = r.1 := by
  induction fuel generalizing b cont r with
  | zero => cases h
  | succ fuel ih =>
      rw [unwrapRun] at h
      rcases Nat.lt_or_ge (b.wrap - b.readp) cont with hmove | hle
      swap
      · obtain ⟨hs, hb⟩ := level_idle malloc hle fuel
        rw [hs] at h
        rw [hb, ← Option.some.inj h, (level_idle malloc hle 0).2]
      rcases Nat.lt_or_ge cont b.size with hcont | hle
      swap
      · obtain ⟨hs, hb⟩ := level_short malloc hle fuel
        rw [hs] at h
        rw [hb, ← Option.some.inj h, (level_short malloc hle 0).2]
      rcases Nat.lt_or_ge b.writep b.readp with hw | hw
      swap
      · obtain ⟨hs, hb⟩ := level_up malloc hmove hcont hw fuel
        rw [hs] at h
        rw [hb, ← Option.some.inj h, (level_up malloc hmove hcont hw 0).2]
      by_cases hsize : scratchSize b cont = 0
      · obtain ⟨hs, hb⟩ := level_direct malloc hmove hcont hw hsize fuel
        rw [hs] at h
        rw [hb, ← Option.some.inj h, (level_direct malloc hmove hcont hw hsize 0).2]
      rcases hm : malloc (scratchSize b cont) with - | -
      · obtain ⟨hs, hb⟩ := level_halves malloc hmove hcont hw hsize hm fuel
        rw [hs] at h
        obtain ⟨r₁, h₁, h⟩ := Option.bind_eq_some_iff.mp h
        obtain ⟨r₂, h₂, rfl⟩ := Option.map_eq_some_iff.mp h
        rw [hb, ih h₁, ih h₂]
      · obtain ⟨hs, hb⟩ := level_scratch malloc hmove hcont hw hsize hm fuel
        rw [hs] at h
        rw [hb, ← Option.some.inj h, (level_scratch malloc hmove hcont hw hsize hm 0).2]

/-! ### The bytes -/

theorem memMove_inside {mem : ℕ → UInt8} {dst src n i : ℕ} (h : dst ≤ i) (h' : i < dst + n) :
    memMove mem dst src n i = mem (src + (i - dst)) := if_pos ⟨h, h'⟩

theorem memMove_outside {mem : ℕ → UInt8} {dst src n i : ℕ} (h : i < dst ∨ dst + n ≤ i) :
    memMove mem dst src n i = mem i := if_neg (by omega)

theorem contRead_wrapped {b : Buffer} (h : b.writep < b.readp) :
    bufContRead b = b.wrap - b.readp := if_neg (Nat.not_le.mpr h)

theorem contRead_up {b : Buffer} (h : b.readp ≤ b.writep) :
    bufContRead b = b.writep - b.readp := if_pos h

theorem content_eq {b b' : Buffer} (hsize : b'.size = b.size) (hused : bufUsed b' = bufUsed b)
    (h : ∀ i < bufUsed b, b'.mem ((b'.readp - b'.buf + i) % b.size) =
      b.mem ((b.readp - b.buf + i) % b.size)) : b'.content = b.content := by
  rw [Buffer.content, Buffer.content, hsize, hused]
  exact List.map_congr_left fun i hi => h i (List.mem_range.mp hi)

theorem used_eq_of_content {b b' : Buffer} (h : b'.content = b.content) :
    bufUsed b' = bufUsed b := by
  have hlen := congrArg List.length h
  rwa [Buffer.Wf.length_content, Buffer.Wf.length_content] at hlen

section Bytes
variable {b : Buffer} {shift : ℕ}

/-- The byte that is read `i`-th, of a buffer that is wrapped. -/
theorem cell_cases (h : b.Ranged) {i : ℕ} (hi : i < bufUsed b) :
    (b.readp - b.buf + i < b.size ∧
      (b.readp - b.buf + i) % b.size = b.readp - b.buf + i) ∨
    (b.size ≤ b.readp - b.buf + i ∧
      (b.readp - b.buf + i) % b.size = b.readp - b.buf + i - b.size) := by
  obtain ⟨_, _, _, _, _⟩ := h
  have hlt : i < b.size := by
    rw [bufUsed] at hi
    split at hi <;> omega
  rcases Nat.lt_or_ge (b.readp - b.buf + i) b.size with hlt' | hge
  · exact .inl ⟨hlt', Nat.mod_eq_of_lt hlt'⟩
  · refine .inr ⟨hge, ?_⟩
    rw [Nat.mod_eq_sub_mod hge, Nat.mod_eq_of_lt (by omega)]

/-- Data that is moved up by `shift`, the first bytes in front with it, and the others behind. -/
theorem content_front (h : b.Ranged) (hw : b.writep < b.readp) {b' : Buffer}
    (hshift : b.buf + shift ≤ b.writep) (hbuf : b'.buf = b.buf) (hsize : b'.size = b.size)
    (hr : b'.readp = b.readp - shift) (hwr : b'.writep = b.writep - shift)
    (htop : ∀ j, b.readp - b.buf ≤ j + shift → j + shift < b.size → b'.mem j = b.mem (j + shift))
    (hfirst : ∀ j, b.size ≤ j + shift → j < b.size → b'.mem j = b.mem (j + shift - b.size))
    (hrest : ∀ j, j + shift < b.writep - b.buf → b'.mem j = b.mem (j + shift)) :
    b'.content = b.content := by
  have hcases := @cell_cases b h
  obtain ⟨_, _, _, _, _⟩ := h
  have hused : bufUsed b = b.size - (b.readp - b.writep) := if_neg (by omega)
  have hused' : bufUsed b' = bufUsed b := by
    rw [hused, bufUsed, if_neg (by omega), hsize, hr, hwr]
    omega
  refine content_eq hsize hused' fun i hi => ?_
  rw [hr, hbuf, show b.readp - shift - b.buf + i = b.readp - b.buf + i - shift by omega]
  rcases hcases hi with ⟨hlt, heq⟩ | ⟨hge, heq⟩
  · rw [heq, Nat.mod_eq_of_lt (by omega), htop _ (by omega) (by omega)]
    congr 1
    omega
  · rcases Nat.lt_or_ge (b.readp - b.buf + i - shift) b.size with hlt | hge'
    · rw [heq, Nat.mod_eq_of_lt hlt, hfirst _ (by omega) hlt]
      congr 1
      omega
    · rw [heq, Nat.mod_eq_sub_mod hge', Nat.mod_eq_of_lt (by omega), hrest _ (by omega)]
      congr 1
      omega

end Bytes

/-! ### A level that keeps everything -/

section Kept
variable {malloc : ℕ → Bool} {b : Buffer} {cont : ℕ}

theorem kept_idle (h : b.Ranged) : Kept b (b, []) :=
  ⟨rfl, rfl, h, rfl, fun _ hp => absurd hp List.not_mem_nil⟩

theorem Kept.trans {r₁ r₂ : Buffer × List Span} (h₁ : Kept b r₁) (h₂ : Kept r₁.1 r₂) :
    Kept b (r₂.1, r₁.2 ++ r₂.2) where
  buf := h₂.buf.trans h₁.buf
  size := h₂.size.trans h₁.size
  ranged := h₂.ranged
  content := h₂.content.trans h₁.content
  inside p hp := by
    rcases List.mem_append.mp hp with hp | hp
    · exact h₁.inside p hp
    · exact h₁.size ▸ h₂.inside p hp

variable (malloc) in
/-- The bytes are in one piece, and stay so. -/
theorem kept_up (h : b.Ranged) (hmove : b.wrap - b.readp < cont) (hcont : cont < b.size)
    (hw : b.readp ≤ b.writep) :
    ∃ spans, unwrapSpans malloc b cont = some spans ∧
      Unwrapped b cont (bufUnwrap malloc 1 b cont, spans) := by
  obtain ⟨hs, hb⟩ := level_up malloc hmove hcont hw 0
  refine ⟨_, hs, ?_⟩
  have hcases := @cell_cases b h
  obtain ⟨_, _, _, _, _⟩ := h
  have hused : bufUsed b = b.writep - b.readp := if_pos hw
  rw [hb]
  refine ⟨⟨rfl, rfl, ?_, ?_, ?_⟩, ?_⟩
  · constructor <;> dsimp only <;> omega
  · refine content_eq rfl ?_ fun i hi => ?_
    · rw [hused, bufUsed]
      dsimp only
      rw [if_pos (by omega)]
      omega
    · dsimp only
      rw [Nat.mod_eq_of_lt (by omega), Nat.mod_eq_of_lt (by omega),
        memMove_inside (by omega) (by omega)]
      congr 1
      omega
  · intro p hp
    simp only [List.mem_cons, List.not_mem_nil, or_false] at hp
    rcases hp with rfl | rfl <;> right <;> dsimp only <;> omega
  · rw [hused, contRead_up (by dsimp only; omega)]
    dsimp only
    omega

section Wrapped
variable (h : b.Ranged) (hmove : b.wrap - b.readp < cont) (hcont : cont < b.size)
variable (hw : b.writep < b.readp)

include h hmove hw in
theorem scratchSize_eq_zero (heq : cont + (b.writep - b.buf) = b.size) :
    scratchSize b cont = 0 := by
  obtain ⟨_, _, _, _, _⟩ := h
  rw [scratchSize]
  omega

include h hmove hcont hw in
theorem scratchSize_eq (hsize : b.size < 2 ^ 31) (hlt : b.size < cont + (b.writep - b.buf)) :
    scratchSize b cont = cont + (b.writep - b.buf) - b.size := by
  obtain ⟨_, _, _, _, _⟩ := h
  rw [scratchSize]
  omega

include h hmove hcont hw in
/-- Where there is more room than is needed, the scratch zone is as good as all memory. -/
theorem scratchSize_ge (hsize : b.size < 2 ^ 31) (hlt : cont + (b.writep - b.buf) < b.size) :
    2 ^ 31 ≤ scratchSize b cont := by
  obtain ⟨_, _, _, _, _⟩ := h
  rw [scratchSize]
  omega

variable (malloc) in
include h hmove hcont hw in
theorem kept_direct (heq : cont + (b.writep - b.buf) = b.size)
    (hne : b.readp - b.buf ≠ 2 * (b.writep - b.buf)) :
    ∃ spans, unwrapSpans malloc b cont = some spans ∧
      Unwrapped b cont (bufUnwrap malloc 1 b cont, spans) ∧
      (2 * cont ≤ b.size →
        b.buf < (bufUnwrap malloc 1 b cont).writep ∧
        (bufUnwrap malloc 1 b cont).writep < (bufUnwrap malloc 1 b cont).readp ∧
        bufContRead (bufUnwrap malloc 1 b cont) = cont) := by
  obtain ⟨hs, hb⟩ :=
    level_direct malloc hmove hcont hw (scratchSize_eq_zero h hmove hw heq) 0
  refine ⟨_, hs, ?_⟩
  rw [hb]
  clear hs hb
  have hused : bufUsed b = b.size - (b.readp - b.writep) := if_neg (Nat.not_le.mpr hw)
  obtain ⟨buf, readp, writep, wrap, size, base, whole, mem⟩ := b
  have hrange := h
  obtain ⟨_, hr, hge, _, hwrap⟩ := hrange
  dsimp only at *
  subst hwrap
  -- `w` bytes in front, a gap of `g`, and `top` bytes behind it: the room is what is asked for
  obtain ⟨w, rfl⟩ := Nat.exists_eq_add_of_le hge
  obtain ⟨g, rfl⟩ := Nat.exists_eq_add_of_le (Nat.le_of_lt hw)
  obtain ⟨top, rfl⟩ : ∃ top, size = w + g + top := ⟨size - (w + g), by omega⟩
  have htop : buf + (w + g + top) - (buf + w + g) = top := by omega
  have hfront : buf + w - buf = w := by omega
  have hoff : buf + w + g - buf = w + g := by omega
  have hgap : buf + w + g - (buf + w) = g := by omega
  simp only [htop, hfront, hoff, hgap] at hmove heq hne hused
  obtain rfl : cont = g + top := by omega
  have hdown : buf + w + g - g = buf + w := Nat.add_sub_cancel ..
  have hend : w + g + top - g = w + top := by omega
  simp only [htop, hfront, hoff, bufDirect, Nat.add_sub_cancel, hdown, hend]
  have hcontRead : buf + (w + g + top) - (buf + w) = g + top := by omega
  clear htop hoff hgap hdown hend heq hcont hr hge hmove
  rcases Nat.lt_or_ge g w with hlen | hlen
  · -- there is more in front than is moved to the end
    obtain ⟨k, rfl⟩ := Nat.exists_eq_add_of_le (Nat.le_of_lt hlen)
    have hk : g + k - g = k := Nat.add_sub_cancel_left ..
    have hback : buf + (g + k) - g = buf + k := by omega
    simp only [gt_iff_lt, if_pos hlen, Nat.min_eq_right (Nat.le_of_lt hlen), hk, hback]
    refine ⟨⟨⟨rfl, rfl, ?_, ?_, ?_⟩, ?_⟩, fun _ => ⟨?_, ?_, ?_⟩⟩
    · constructor <;> dsimp only <;> omega
    · refine @content_front _ g h hw _ ?_ rfl rfl ?_ ?_ ?_ ?_ ?_ <;> dsimp only
      · omega
      · omega
      · omega
      · intro j hj hj'
        rw [memMove_outside (by omega), memMove_outside (by omega),
          memMove_inside (by omega) (by omega)]
        congr 1
        omega
      · intro j hj hj'
        rw [memMove_outside (by omega), memMove_inside (by omega) (by omega),
          memMove_outside (by omega)]
        congr 1
        omega
      · intro j hj
        rw [memMove_inside (by omega) (by omega), memMove_outside (by omega),
          memMove_outside (by omega)]
        congr 1
        omega
    · intro p hp
      simp only [List.cons_append, List.nil_append, List.mem_cons, List.not_mem_nil,
        or_false] at hp
      rcases hp with rfl | rfl | rfl | rfl | rfl | rfl <;> right <;> dsimp only <;> omega
    · exact Nat.le_trans (Nat.min_le_left ..)
        (Nat.le_of_eq ((contRead_wrapped (by dsimp only; omega)).trans hcontRead).symm)
    · omega
    · omega
    · exact (contRead_wrapped (by dsimp only; omega)).trans hcontRead
  · -- all that is in front goes to the end, and ends before it
    obtain ⟨k, rfl⟩ := Nat.exists_eq_add_of_le hlen
    have hup : buf + w + (w + (w + k) + top) - (w + k) = buf + w + w + top := by omega
    simp only [gt_iff_lt, if_neg (Nat.not_lt.mpr hlen), Nat.min_eq_left hlen, List.append_nil, hup]
    refine ⟨⟨⟨rfl, rfl, ?_, ?_, ?_⟩, ?_⟩, fun _ => by omega⟩
    · constructor <;> dsimp only <;> omega
    · have hcases := @cell_cases _ h
      refine content_eq rfl ?_ fun i hi => ?_
      · rw [hused, bufUsed]
        dsimp only
        rw [if_pos (by omega)]
        omega
      · rw [hused] at hi
        have hcell := hcases (hused ▸ hi)
        dsimp only at hcell ⊢
        rw [hfront, Nat.mod_eq_of_lt (show w + i < w + (w + k) + top by omega)]
        rcases hcell with ⟨hlt, heq⟩ | ⟨hge, heq⟩
        · rw [heq, memMove_outside (by omega), memMove_inside (by omega) (by omega)]
          congr 1
          omega
        · rw [heq, memMove_inside (by omega) (by omega), memMove_outside (by omega)]
          congr 1
          omega
    · intro p hp
      simp only [List.mem_cons, List.not_mem_nil, or_false] at hp
      rcases hp with rfl | rfl | rfl | rfl <;> right <;> dsimp only <;> omega
    · rw [hused, contRead_up (by dsimp only; omega)]
      dsimp only
      omega

include h hmove hcont hw in
theorem kept_scratch (hsize : b.size < 2 ^ 31) (hlt : b.size < cont + (b.writep - b.buf))
    (hyes : malloc (scratchSize b cont) = true) (hfits : 2 * cont ≤ b.size + (b.wrap - b.readp)) :
    ∃ spans, unwrapSpans malloc b cont = some spans ∧
      Unwrapped b cont (bufUnwrap malloc 1 b cont, spans) ∧
      b.buf < (bufUnwrap malloc 1 b cont).writep ∧
      (bufUnwrap malloc 1 b cont).writep < (bufUnwrap malloc 1 b cont).readp ∧
      bufContRead (bufUnwrap malloc 1 b cont) = cont := by
  have hscratch := scratchSize_eq h hmove hcont hw hsize hlt
  obtain ⟨hs, hb⟩ := level_scratch malloc hmove hcont hw (by omega) hyes 0
  refine ⟨_, hs, ?_⟩
  rw [hb]
  clear hs hb
  generalize scratchSize b cont = k at hscratch ⊢
  have hused : bufUsed b = b.size - (b.readp - b.writep) := if_neg (Nat.not_le.mpr hw)
  obtain ⟨buf, readp, writep, wrap, size, base, whole, mem⟩ := b
  have hrange := h
  obtain ⟨_, hr, hge, _, hwrap⟩ := hrange
  dsimp only at *
  subst hwrap
  -- `w` bytes in front, a gap of `g`, and `top` bytes behind it; `k` is what the room falls short
  obtain ⟨w, rfl⟩ := Nat.exists_eq_add_of_le hge
  obtain ⟨g, rfl⟩ := Nat.exists_eq_add_of_le (Nat.le_of_lt hw)
  obtain ⟨top, rfl⟩ : ∃ top, size = w + g + top := ⟨size - (w + g), by omega⟩
  have htop : buf + (w + g + top) - (buf + w + g) = top := by omega
  have hfront : buf + w - buf = w := by omega
  have hoff : buf + w + g - buf = w + g := by omega
  simp only [htop, hfront] at hmove hlt hscratch hfits hused
  obtain rfl : cont = top + (g + k) := by omega
  have hk : 0 < k := by omega
  obtain ⟨m, rfl⟩ : ∃ m, w = g + k + k + m := ⟨w - (g + k + k), by omega⟩
  have hshift : top + (g + k) - top = g + k := Nat.add_sub_cancel_left ..
  have hrest : ((((g + k + k + m : ℕ) : ℤ) - (g + k : ℕ) - (k : ℕ)) % 2 ^ 32).toNat = m := by omega
  have hdown : buf + (g + k + k + m) + g - (g + k) = buf + (g + k + m) := by omega
  have hdown' : buf + (g + k + m) - buf = g + k + m := Nat.add_sub_cancel_left ..
  have hend : g + k + k + m + g + top - (g + k) = g + k + m + top := by omega
  have hwr : buf + (g + k + k + m) - (g + k) = buf + (k + m) := by omega
  have hhole : k + m - k = m := Nat.add_sub_cancel_left ..
  have hmid : g + k + k + m - k = g + k + m := by omega
  have hhole' : g + k + k + m - (g + k) = k + m := by omega
  have hcontRead : buf + (g + k + k + m + g + top) - (buf + (g + k + m)) = top + (g + k) := by omega
  simp only [bufScratch, htop, hfront, hoff, hshift, hrest, hdown, hdown', hend, hwr, hhole', hhole,
    hmid]
  clear htop hfront hoff hshift hrest hdown hdown' hend hwr hhole hmid hhole' hused hscratch hyes
    hcont hlt hsize hfits hmove hge
  refine ⟨⟨⟨rfl, rfl, ?_, ?_, ?_⟩, ?_⟩, ?_, ?_, ?_⟩
  · constructor <;> dsimp only <;> omega
  · refine @content_front _ (g + k) h hw _ ?_ rfl rfl ?_ ?_ ?_ ?_ ?_ <;> dsimp only
    · omega
    · omega
    · omega
    · intro j hj hj'
      rw [if_neg (by omega), memMove_outside (by omega), memMove_outside (by omega),
        memMove_inside (by omega) (by omega)]
      congr 1
      omega
    · intro j hj hj'
      rw [if_neg (by omega), memMove_outside (by omega), memMove_inside (by omega) (by omega),
        memMove_outside (by omega)]
      congr 1
      omega
    · intro j hj
      rcases Nat.lt_or_ge j m with hbefore | hscr
      · rw [if_neg (by omega), memMove_inside (by omega) (by omega), memMove_outside (by omega),
          memMove_outside (by omega)]
        congr 1
        omega
      · rw [if_pos (by omega)]
        congr 1
        omega
  · intro p hp
    simp only [List.mem_cons, List.not_mem_nil, or_false] at hp
    rcases hp with rfl | rfl | rfl | rfl | rfl | rfl | rfl | rfl <;> right <;> dsimp only <;> omega
  · exact Nat.le_trans (Nat.min_le_left ..)
      (Nat.le_of_eq ((contRead_wrapped (by dsimp only; omega)).trans hcontRead).symm)
  · omega
  · omega
  · exact (contRead_wrapped (by dsimp only; omega)).trans hcontRead

end Wrapped

end Kept

/-! ### By halves -/

/-- What is left of a call for at most half of the buffer: everything is kept and still wrapped,
with no more in one piece than before or than was asked for. -/
structure Halved (b : Buffer) (cont : ℕ) (r : Buffer × List Span) : Prop extends Kept b r where
  wrapped : r.1.writep < r.1.readp
  front : b.buf < b.writep → b.buf < r.1.writep
  grows : bufContRead b ≤ bufContRead r.1
  bounded : bufContRead r.1 ≤ max (bufContRead b) cont

section Halves
variable {malloc : ℕ → Bool}

/-- What one level does, for at most half of the buffer. -/
theorem level_halved (hm : ∀ n, 2 ^ 31 ≤ n → malloc n = false) {b : Buffer} {cont : ℕ}
    (h : b.Ranged) (hsize : b.size < 2 ^ 31) (hw : b.writep < b.readp)
    (hhalf : 2 * cont ≤ b.size) :
    (∃ spans, unwrapSpans malloc b cont = some spans ∧
        Halved b cont (bufUnwrap malloc 1 b cont, spans)) ∨
      unwrapSpans malloc b cont = none ∧ b.wrap - b.readp < cont := by
  have hrange := h
  obtain ⟨_, _, _, _, _⟩ := hrange
  rcases Nat.lt_or_ge (b.wrap - b.readp) cont with hmove | hle
  swap
  · obtain ⟨hs, hb⟩ := level_idle malloc hle 0
    rw [hb]
    exact .inl ⟨[], hs, kept_idle h, hw, id, Nat.le_refl _, Nat.le_max_left ..⟩
  have hcont : cont < b.size := by omega
  have htop := contRead_wrapped hw
  rcases Nat.lt_trichotomy (cont + (b.writep - b.buf)) b.size with hlt | heq | hgt
  · have hge := scratchSize_ge h hmove hcont hw hsize hlt
    exact .inr ⟨(level_halves malloc hmove hcont hw (by omega) (hm _ hge) 0).1, hmove⟩
  · obtain ⟨spans, hs, hun, hrest⟩ :=
      kept_direct malloc h hmove hcont hw heq (by omega)
    obtain ⟨hfront, hwrapped, hread⟩ := hrest hhalf
    exact .inl ⟨spans, hs, hun.toKept, hwrapped, fun _ => hfront,
      by dsimp only; omega, by dsimp only; omega⟩
  · have hscratch := scratchSize_eq h hmove hcont hw hsize hgt
    rcases hyes : malloc (scratchSize b cont) with - | -
    · exact .inr ⟨(level_halves malloc hmove hcont hw (by omega) hyes 0).1, hmove⟩
    · obtain ⟨spans, hs, hun, hfront, hwrapped, hread⟩ :=
        kept_scratch h hmove hcont hw hsize hgt hyes (by omega)
      exact .inl ⟨spans, hs, hun.toKept, hwrapped, fun _ => hfront,
      by dsimp only; omega, by dsimp only; omega⟩

/-- Two calls, one after the other, for no more than `cont` each. -/
theorem Halved.trans {b : Buffer} {m n cont : ℕ} {r₁ r₂ : Buffer × List Span}
    (h₁ : Halved b m r₁) (h₂ : Halved r₁.1 n r₂) (hm : m ≤ cont) (hn : n ≤ cont) :
    Halved b cont (r₂.1, r₁.2 ++ r₂.2) where
  toKept := h₁.toKept.trans h₂.toKept
  wrapped := h₂.wrapped
  front hf := h₁.buf ▸ h₂.front (h₁.buf.symm ▸ h₁.front hf)
  grows := Nat.le_trans h₁.grows h₂.grows
  bounded := by
    have hb₁ := h₁.bounded
    have hb₂ := h₂.bounded
    dsimp only
    omega

theorem run_halved (hm : ∀ n, 2 ^ 31 ≤ n → malloc n = false) {fuel : ℕ} {b : Buffer} {cont : ℕ}
    (h : b.Ranged) (hsize : b.size < 2 ^ 31) (hw : b.writep < b.readp)
    (hhalf : 2 * cont ≤ b.size) {r : Buffer × List Span}
    (hrun : unwrapRun malloc fuel b cont = some r) : Halved b cont r := by
  induction fuel generalizing b cont r with
  | zero => cases hrun
  | succ fuel ih =>
      rw [unwrapRun] at hrun
      rcases level_halved hm h hsize hw hhalf with ⟨spans, hs, hhalved⟩ | ⟨hs, hmove⟩
      · rw [hs] at hrun
        exact Option.some.inj hrun ▸ hhalved
      · rw [hs] at hrun
        obtain ⟨r₁, h₁, hrun⟩ := Option.bind_eq_some_iff.mp hrun
        obtain ⟨r₂, h₂, rfl⟩ := Option.map_eq_some_iff.mp hrun
        have hr₁ := ih h hsize hw (by omega) h₁
        have hr₂ := ih hr₁.ranged (by rw [hr₁.size]; exact hsize) hr₁.wrapped
          (by rw [hr₁.size]; omega) h₂
        exact hr₁.trans hr₂ (by omega) (by omega)

/-- A call for `cont` bytes is over after as many levels. -/
theorem run_ends (hm : ∀ n, 2 ^ 31 ≤ n → malloc n = false) {fuel : ℕ} {b : Buffer} {cont : ℕ}
    (h : b.Ranged) (hsize : b.size < 2 ^ 31) (hw : b.writep < b.readp)
    (hhalf : 2 * cont ≤ b.size) (hfuel : cont < fuel) :
    ∃ r, unwrapRun malloc fuel b cont = some r := by
  induction fuel generalizing b cont with
  | zero => omega
  | succ fuel ih =>
      rw [unwrapRun]
      rcases level_halved hm h hsize hw hhalf with ⟨spans, hs, -⟩ | ⟨hs, hmove⟩
      · rw [hs]
        exact ⟨_, rfl⟩
      · rw [hs]
        have htop : 0 < b.wrap - b.readp := Nat.sub_pos_of_lt h.readp_lt
        obtain ⟨r₁, h₁⟩ := ih h hsize hw (show 2 * (cont / 2) ≤ b.size by omega) (by omega)
        have hr₁ := run_halved hm h hsize hw (by omega) h₁
        obtain ⟨r₂, h₂⟩ := ih hr₁.ranged (by rw [hr₁.size]; exact hsize) hr₁.wrapped
          (show 2 * (cont - cont / 2) ≤ r₁.1.size by rw [hr₁.size]; omega) (by omega)
        exact ⟨(r₂.1, r₁.2 ++ r₂.2), by simp [h₁, h₂]⟩

/-- Two calls for half as much leave less than was asked for in one piece, unless nothing was in
front at all. -/
theorem halves_unwrapped_iff (hm : ∀ n, 2 ^ 31 ≤ n → malloc n = false) {b : Buffer} {cont : ℕ}
    (h : b.Ranged) (hsize : b.size < 2 ^ 31) (hw : b.writep < b.readp) (hcont : cont < b.size)
    (hmove : b.wrap - b.readp < cont) (hs : unwrapSpans malloc b cont = none) :
    Unwraps malloc b cont ↔ b.writep = b.buf := by
  have hused : bufUsed b = b.size - (b.readp - b.writep) := if_neg (by omega)
  have htop := contRead_wrapped hw
  have hrange := h
  obtain ⟨_, _, _, _, _⟩ := hrange
  constructor
  · rintro ⟨fuel, r, hrun, hun⟩
    rcases fuel with - | fuel
    · cases hrun
    rw [unwrapRun, hs] at hrun
    obtain ⟨r₁, h₁, hrun⟩ := Option.bind_eq_some_iff.mp hrun
    obtain ⟨r₂, h₂, rfl⟩ := Option.map_eq_some_iff.mp hrun
    have hr₁ := run_halved hm h hsize hw (by omega) h₁
    have hr₂ := run_halved hm hr₁.ranged (by rw [hr₁.size]; exact hsize) hr₁.wrapped
      (by rw [hr₁.size]; omega) h₂
    have hr := hr₁.trans hr₂ (show cont / 2 ≤ cont - cont / 2 by omega) (Nat.le_refl _)
    by_contra hne
    -- more is in use than is in one piece, which is less than was asked for
    have hfront := hr.front (by omega)
    have hused' := used_eq_of_content hun.content
    obtain ⟨_, _, _, _, hwrap⟩ := hr.ranged
    have hbuf := hr.buf
    have hsz := hr.size
    have hbounded := hr.bounded
    have hwr := hr.wrapped
    have hread := contRead_wrapped hwr
    have hin := hun.cont
    have hused₂ : bufUsed r₂.1 = r₂.1.size - (r₂.1.readp - r₂.1.writep) :=
      if_neg (Nat.not_le.mpr hwr)
    dsimp only at *
    omega
  · intro hnone
    obtain ⟨r₁, h₁⟩ := run_ends hm h hsize hw
      (show 2 * (cont / 2) ≤ b.size by omega) (show cont / 2 < cont + 1 by omega)
    have hr₁ := run_halved hm h hsize hw (by omega) h₁
    obtain ⟨r₂, h₂⟩ := run_ends hm hr₁.ranged (by rw [hr₁.size]; exact hsize)
      hr₁.wrapped (show 2 * (cont - cont / 2) ≤ r₁.1.size by rw [hr₁.size]; omega)
      (show cont - cont / 2 < cont + 1 by omega)
    have hr₂ := run_halved hm hr₁.ranged (by rw [hr₁.size]; exact hsize) hr₁.wrapped
      (by rw [hr₁.size]; omega) h₂
    have hr := hr₁.trans hr₂ (show cont / 2 ≤ cont by omega) (by omega)
    refine ⟨cont + 2, _, ?_, hr.toKept, ?_⟩
    · rw [unwrapRun, hs]
      simp only [h₁, h₂, Option.bind_some, Option.map_some]
    · have hgrows := hr.grows
      omega

end Halves

/-! ### When it does what it is for -/

section Clear
variable {malloc : ℕ → Bool} {b : Buffer} {cont : ℕ}

theorem unwraps_of_level {spans : List Span} (hs : unwrapSpans malloc b cont = some spans)
    (h : Unwrapped b cont (bufUnwrap malloc 1 b cont, spans)) : Unwraps malloc b cont :=
  ⟨1, _, by rw [unwrapRun, hs], h⟩

theorem level_of_unwraps {spans : List Span} (hs : unwrapSpans malloc b cont = some spans)
    (h : Unwraps malloc b cont) : Unwrapped b cont (bufUnwrap malloc 1 b cont, spans) := by
  obtain ⟨fuel, r, hrun, hun⟩ := h
  rcases fuel with - | fuel
  · cases hrun
  · rw [unwrapRun, hs] at hrun
    exact Option.some.inj hrun ▸ hun

variable (h : b.Ranged) (hcont : cont < b.size) (hsize : b.size < 2 ^ 31)
variable (hm : ∀ n, 2 ^ 31 ≤ n → malloc n = false)

include h hcont hsize hm in
theorem unwraps_of_clear (hclear : UnwrapClear malloc b cont) : Unwraps malloc b cont := by
  rcases Nat.lt_or_ge (b.wrap - b.readp) cont with hmove | hle
  swap
  · obtain ⟨hs, hb⟩ := level_idle malloc hle 0
    refine unwraps_of_level hs ?_
    rw [hb]
    refine ⟨kept_idle h, ?_⟩
    obtain ⟨_, _, _, _, _⟩ := h
    dsimp only
    rw [bufUsed, bufContRead]
    split <;> omega
  rcases Nat.lt_or_ge b.writep b.readp with hw | hw
  swap
  · obtain ⟨spans, hs, hun⟩ := kept_up malloc h hmove hcont hw
    exact unwraps_of_level hs hun
  have hrange := h
  obtain ⟨_, _, _, _, _⟩ := hrange
  rcases hclear with hle | hup | hnone | ⟨heq, hne⟩ | ⟨hgt, hyes, hfits⟩
  · omega
  · omega
  · have hge := scratchSize_ge h hmove hcont hw hsize (by omega)
    obtain ⟨hs, -⟩ := level_halves malloc hmove hcont hw (by omega) (hm _ hge) 0
    exact (halves_unwrapped_iff hm h hsize hw hcont hmove hs).mpr hnone
  · obtain ⟨spans, hs, hun, -⟩ := kept_direct malloc h hmove hcont hw heq hne
    exact unwraps_of_level hs hun
  · have hscratch := scratchSize_eq h hmove hcont hw hsize hgt
    obtain ⟨spans, hs, hun, -⟩ :=
      kept_scratch h hmove hcont hw hsize hgt (by rw [hscratch]; exact hyes) hfits
    exact unwraps_of_level hs hun

include h hcont hsize hm in
theorem clear_of_unwraps (hun : Unwraps malloc b cont) : UnwrapClear malloc b cont := by
  rcases Nat.lt_or_ge (b.wrap - b.readp) cont with hmove | hle
  swap
  · exact .inl hle
  rcases Nat.lt_or_ge b.writep b.readp with hw | hw
  swap
  · exact .inr (.inl hw)
  have hrange := h
  obtain ⟨_, _, _, _, _⟩ := hrange
  rcases Nat.lt_trichotomy (cont + (b.writep - b.buf)) b.size with hlt | heq | hgt
  · have hge := scratchSize_ge h hmove hcont hw hsize hlt
    obtain ⟨hs, -⟩ := level_halves malloc hmove hcont hw (by omega) (hm _ hge) 0
    exact .inr (.inr (.inl ((halves_unwrapped_iff hm h hsize hw hcont hmove hs).mp hun)))
  · refine .inr (.inr (.inr (.inl ⟨heq, fun htwice => ?_⟩)))
    -- the bytes in front end just at the wrap, and so does `writep`
    obtain ⟨hs, hb⟩ :=
      level_direct malloc hmove hcont hw (scratchSize_eq_zero h hmove hw heq) 0
    have hranged := (level_of_unwraps hs hun).ranged
    rw [hb] at hranged
    have hlt := hranged.writep_lt
    simp only [bufDirect] at hlt
    rw [if_neg (by omega)] at hlt
    omega
  · have hscratch := scratchSize_eq h hmove hcont hw hsize hgt
    rcases hyes : malloc (scratchSize b cont) with - | -
    · obtain ⟨hs, -⟩ := level_halves malloc hmove hcont hw (by omega) hyes 0
      exact .inr (.inr (.inl ((halves_unwrapped_iff hm h hsize hw hcont hmove hs).mp hun)))
    · refine .inr (.inr (.inr (.inr ⟨hgt, hscratch ▸ hyes, ?_⟩)))
      by_contra hfits
      -- the last part has a length below 0
      obtain ⟨hs, -⟩ := level_scratch malloc hmove hcont hw (by omega) hyes 0
      have hin := (level_of_unwraps hs hun).inside
      simp only [List.mem_cons, List.not_mem_nil, or_false, forall_eq_or_imp, forall_eq] at hin
      obtain ⟨-, -, -, -, -, hrest, -⟩ := hin
      rcases hrest with hrest | ⟨-, hrest⟩ <;> dsimp only at hrest <;> omega

/-- A call of `_buf_unwrap` ends, keeps the bytes, their order and the bounds, and leaves what was
asked for in one piece, if and only if the call is clear. -/
theorem unwraps_iff (malloc : ℕ → Bool) (b : Buffer) (cont : ℕ) (h : b.Ranged)
    (hcont : cont < b.size) (hsize : b.size < 2 ^ 31)
    (hm : ∀ n, 2 ^ 31 ≤ n → malloc n = false) :
    Unwraps malloc b cont ↔ UnwrapClear malloc b cont :=
  ⟨clear_of_unwraps h hcont hsize hm, unwraps_of_clear h hcont hsize hm⟩

end Clear

/-- A buffer at address 0 with its bytes numbered. -/
def bufferAt (size readp writep : ℕ) : Buffer :=
  ⟨0, readp, writep, size, size, size, size, UInt8.ofNat⟩

/-- A heap that gives what an address space can hold. -/
def heap (n : ℕ) : Bool := decide (n < 2 ^ 31)

theorem heap_of_ge (n : ℕ) (h : 2 ^ 31 ≤ n) : heap n = false := decide_eq_false (by omega)

instance (malloc : ℕ → Bool) (b : Buffer) (cont : ℕ) : Decidable (UnwrapClear malloc b cont) :=
  inferInstanceAs (Decidable (_ ∨ _ ∨ _ ∨ (_ ∧ _) ∨ (_ ∧ _ ∧ _)))

theorem unwraps_iff_scratch :
    Unwraps heap (bufferAt 8 6 4) 5 ↔ UnwrapClear heap (bufferAt 8 6 4) 5 :=
  unwraps_iff heap (bufferAt 8 6 4) 5 (by constructor <;> decide) (by decide) (by decide)
    heap_of_ge

/-- With six bytes of room, two of four bytes stay in front; where the room is just enough,
`writep` ends at `wrap`; a large scratch zone leaves a length below 0; and without one the data
stays where it is. -/
theorem unwraps_fails :
    ¬Unwraps heap (bufferAt 10 8 2) 4 ∧ ¬Unwraps heap (bufferAt 8 6 3) 5 ∧
      ¬Unwraps heap (bufferAt 8 6 4) 7 ∧ ¬Unwraps (fun _ => false) (bufferAt 8 6 4) 5 := by
  refine ⟨fun h => ?_, fun h => ?_, fun h => ?_, fun h => ?_⟩
  · exact absurd (clear_of_unwraps (by constructor <;> decide) (by decide) (by decide)
      heap_of_ge h) (by decide)
  · exact absurd (clear_of_unwraps (by constructor <;> decide) (by decide) (by decide)
      heap_of_ge h) (by decide)
  · exact absurd (clear_of_unwraps (by constructor <;> decide) (by decide) (by decide)
      heap_of_ge h) (by decide)
  · exact absurd (clear_of_unwraps (by constructor <;> decide) (by decide) (by decide)
      (fun _ _ => rfl) h) (by decide)

end SqueezeliteMuse
