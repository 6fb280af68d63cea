/-
SqueezeliteMuse/Spdif.lean

The S/PDIF encoder of output_i2s.c.

`spdif_convert` turns each sample into two words: the biphase code of its two
top bytes, and a word with the status bits of the subframe before, a preamble
and eight more cells.  The words of a pair go out second first.  The 16-bit
build (`BYTES_PER_FRAME == 4`) and the 32-bit build differ in how a sample is
coded (`spdifSample16`, `spdifSample32`) and nowhere else.

A code `Carries` a list of bits when its 48 half-cells are a valid line, low
before and low after.  That is all the chaining there is: it makes the preambles
fixed, and the parity even (`readGroups_spdifConvert`).

Main results: in the 16-bit build the line is a valid stream of the samples
(`spdif_convert_16`); in the 32-bit build it is one exactly when bits 12 to 15
of every sample repeat bits 16 to 19 (`spdif_convert_32_iff`), as the cast to
`u8_t` keeps the wrong half of the code of the byte at bit 12.
-/
import SqueezeliteMuse.Lib.Biphase

namespace SqueezeliteMuse

open Biphase

/-! ### The code -/

/-- `spdif_bmclookup`: biphase mark encoded values (least significant bit first). -/
def spdifBmclookup : Array (BitVec 16) :=
  #[0xcccc, 0x4ccc, 0x2ccc, 0xaccc, 0x34cc, 0xb4cc, 0xd4cc, 0x54cc,
   0x32cc, 0xb2cc, 0xd2cc, 0x52cc, 0xcacc, 0x4acc, 0x2acc, 0xaacc,
   0x334c, 0xb34c, 0xd34c, 0x534c, 0xcb4c, 0x4b4c, 0x2b4c, 0xab4c,
   0xcd4c, 0x4d4c, 0x2d4c, 0xad4c, 0x354c, 0xb54c, 0xd54c, 0x554c,
   0x332c, 0xb32c, 0xd32c, 0x532c, 0xcb2c, 0x4b2c, 0x2b2c, 0xab2c,
   0xcd2c, 0x4d2c, 0x2d2c, 0xad2c, 0x352c, 0xb52c, 0xd52c, 0x552c,
   0xccac, 0x4cac, 0x2cac, 0xacac, 0x34ac, 0xb4ac, 0xd4ac, 0x54ac,
   0x32ac, 0xb2ac, 0xd2ac, 0x52ac, 0xcaac, 0x4aac, 0x2aac, 0xaaac,
   0x3334, 0xb334, 0xd334, 0x5334, 0xcb34, 0x4b34, 0x2b34, 0xab34,
   0xcd34, 0x4d34, 0x2d34, 0xad34, 0x3534, 0xb534, 0xd534, 0x5534,
   0xccb4, 0x4cb4, 0x2cb4, 0xacb4, 0x34b4, 0xb4b4, 0xd4b4, 0x54b4,
   0x32b4, 0xb2b4, 0xd2b4, 0x52b4, 0xcab4, 0x4ab4, 0x2ab4, 0xaab4,
   0xccd4, 0x4cd4, 0x2cd4, 0xacd4, 0x34d4, 0xb4d4, 0xd4d4, 0x54d4,
   0x32d4, 0xb2d4, 0xd2d4, 0x52d4, 0xcad4, 0x4ad4, 0x2ad4, 0xaad4,
   0x3354, 0xb354, 0xd354, 0x5354, 0xcb54, 0x4b54, 0x2b54, 0xab54,
   0xcd54, 0x4d54, 0x2d54, 0xad54, 0x3554, 0xb554, 0xd554, 0x5554,
   0x3332, 0xb332, 0xd332, 0x5332, 0xcb32, 0x4b32, 0x2b32, 0xab32,
   0xcd32, 0x4d32, 0x2d32, 0xad32, 0x3532, 0xb532, 0xd532, 0x5532,
   0xccb2, 0x4cb2, 0x2cb2, 0xacb2, 0x34b2, 0xb4b2, 0xd4b2, 0x54b2,
   0x32b2, 0xb2b2, 0xd2b2, 0x52b2, 0xcab2, 0x4ab2, 0x2ab2, 0xaab2,
   0xccd2, 0x4cd2, 0x2cd2, 0xacd2, 0x34d2, 0xb4d2, 0xd4d2, 0x54d2,
   0x32d2, 0xb2d2, 0xd2d2, 0x52d2, 0xcad2, 0x4ad2, 0x2ad2, 0xaad2,
   0x3352, 0xb352, 0xd352, 0x5352, 0xcb52, 0x4b52, 0x2b52, 0xab52,
   0xcd52, 0x4d52, 0x2d52, 0xad52, 0x3552, 0xb552, 0xd552, 0x5552,
   0xccca, 0x4cca, 0x2cca, 0xacca, 0x34ca, 0xb4ca, 0xd4ca, 0x54ca,
   0x32ca, 0xb2ca, 0xd2ca, 0x52ca, 0xcaca, 0x4aca, 0x2aca, 0xaaca,
   0x334a, 0xb34a, 0xd34a, 0x534a, 0xcb4a, 0x4b4a, 0x2b4a, 0xab4a,
   0xcd4a, 0x4d4a, 0x2d4a, 0xad4a, 0x354a, 0xb54a, 0xd54a, 0x554a,
   0x332a, 0xb32a, 0xd32a, 0x532a, 0xcb2a, 0x4b2a, 0x2b2a, 0xab2a,
   0xcd2a, 0x4d2a, 0x2d2a, 0xad2a, 0x352a, 0xb52a, 0xd52a, 0x552a,
   0xccaa, 0x4caa, 0x2caa, 0xacaa, 0x34aa, 0xb4aa, 0xd4aa, 0x54aa,
   0x32aa, 0xb2aa, 0xd2aa, 0x52aa, 0xcaaa, 0x4aaa, 0x2aaa, 0xaaaa]

/-- `spdif_bmclookup[b]` -/
def bmc (b : BitVec 8) : BitVec 16 := spdifBmclookup.getD b.toNat 0

/-- The three half-words made of one sample. -/
structure SpdifCode where
  hi : BitVec 16
  lo : BitVec 16
  aux : BitVec 16
  deriving DecidableEq, Repr

/-- `lo ^= ~((s16_t)hi) >> 16`: invert if last preceding bit is 1. -/
def chainLo (hi lo : BitVec 16) : BitVec 16 :=
  lo ^^^ ((~~~ hi.signExtend 32).sshiftRight 16).setWidth 16

/-- A sample of the 16-bit build. -/
def spdifSample16 (s : BitVec 16) : SpdifCode :=
  let hi := bmc (((s.signExtend 32).sshiftRight 8).setWidth 8)
  let lo := chainLo hi (bmc (s.setWidth 8))
  ⟨hi, lo, (0xb333 ^^^ (lo.signExtend 32 >>> 17)).setWidth 16⟩

/-- A sample of the 32-bit build: 20 bits, and four cells to force parity. -/
def spdifSample32 (s : BitVec 32) : SpdifCode :=
  let hi := bmc ((s.sshiftRight 24).setWidth 8)
  let lo := chainLo hi (bmc ((s.sshiftRight 16).setWidth 8))
  let aux₀ := bmc ((s.sshiftRight 12).setWidth 8)
  let aux₁ : BitVec 8 :=
    (aux₀.setWidth 32 ^^^ (~~~ lo.signExtend 32).sshiftRight 16).setWidth 8
  let aux₂ : BitVec 32 := (0xb3 ^^^ ((aux₁.signExtend 16).setWidth 32 >>> 9)) <<< 8
  ⟨hi, lo, (aux₁.setWidth 32 ||| aux₂).setWidth 16⟩

/-- `PREAMBLE_B`, `PREAMBLE_M`, `PREAMBLE_W` -/
def preambleByte : Preamble → BitVec 32
  | .B => 0xE8
  | .M => 0xE2
  | .W => 0xE4

/-- `((u32_t)lo << 16) | hi` -/
def sampleWord (c : SpdifCode) : BitVec 32 := (c.lo.setWidth 32 <<< 16) ||| c.hi.setWidth 32

/-- `VUCP | (PREAMBLE << 16) | aux` -/
def auxWord (p : Preamble) (c : SpdifCode) : BitVec 32 :=
  (0xCC <<< 24) ||| (preambleByte p <<< 16) ||| c.aux.setWidth 32

/-- `spdif_convert`: the words stored at `dst`, and the count left. -/
def spdifConvert {S : Type*} (sample : S → SpdifCode) :
    List (S × S) → ℕ → List (BitVec 32) × ℕ
  | [], cnt => ([], cnt)
  | (left, right) :: src, cnt =>
      let l := sample left
      let r := sample right
      let (pre, cnt') := if cnt + 1 > 191 then (Preamble.B, 0) else (Preamble.M, cnt + 1)
      let (dst, cnt'') := spdifConvert sample src cnt'
      (sampleWord l :: auxWord pre l :: sampleWord r :: auxWord .W r :: dst, cnt'')

/-- Successive calls of `spdif_convert` on one count: all the words stored. -/
def spdifCalls {S : Type*} (sample : S → SpdifCode) :
    List (List (S × S)) → ℕ → List (BitVec 32)
  | [], _ => []
  | src :: chunks, cnt =>
      (spdifConvert sample src cnt).1 ++
        spdifCalls sample chunks (spdifConvert sample src cnt).2

/-- The line: of each pair of words the second goes first, its most significant
bit first. -/
def spdifLine : List (BitVec 32) → List Bool
  | w :: w' :: ws => msbFirst w' ++ msbFirst w ++ spdifLine ws
  | _ => []

/-- Cutting the samples into calls changes nothing. -/
theorem spdifCalls_eq {S : Type*} (sample : S → SpdifCode) (chunks : List (List (S × S)))
    (cnt : ℕ) : spdifCalls sample chunks cnt = (spdifConvert sample chunks.flatten cnt).1 := by
  have happ : ∀ (src src' : List (S × S)) (cnt : ℕ),
      spdifConvert sample (src ++ src') cnt =
        ((spdifConvert sample src cnt).1 ++
            (spdifConvert sample src' (spdifConvert sample src cnt).2).1,
          (spdifConvert sample src' (spdifConvert sample src cnt).2).2) := by
    intro src src' cnt
    induction src generalizing cnt with
    | nil => rfl
    | cons f src ih => simp only [List.cons_append, spdifConvert, ih]
  induction chunks generalizing cnt with
  | nil => rfl
  | cons src chunks ih => simp only [spdifCalls, List.flatten_cons, happ, ih]

/-! ### The table -/

/-- What is checked along a table holds of what is looked up. -/
theorem table_checked {t : Array (BitVec 16)} {p : BitVec 16 → BitVec 8 → Bool}
    (hsize : t.size = 256)
    (h : t.toList.zipIdx.all (fun e => p e.1 (BitVec.ofNat 8 e.2)) = true) (b : BitVec 8) :
    p (t.getD b.toNat 0) b = true := by
  have hlt : b.toNat < t.size := Nat.lt_of_lt_of_eq b.isLt hsize.symm
  have hmem : (t.getD b.toNat 0, b.toNat) ∈ t.toList.zipIdx := by
    rw [List.mk_mem_zipIdx_iff_getElem?, Array.getElem?_toList, Array.getD_eq_getD_getElem?,
      Array.getElem?_eq_getElem hlt, Option.getD_some]
  have hp := List.all_eq_true.mp h _ hmem
  rwa [BitVec.ofNat_toNat, BitVec.setWidth_eq] at hp

theorem bmc_size : spdifBmclookup.size = 256 := by decide +kernel

/-- Every entry of the table is the code of its byte, least significant bit
first, sent so that the line ends low. -/
theorem carries_bmc (b : BitVec 8) :
    Carries (!(bmc b).msb) (msbFirst (bmc b)) (lsbFirst b) false := by
  have h := table_checked bmc_size (p := fun w b => decide (decode (!w.msb) (msbFirst w) = some (lsbFirst b) ∧
    level (!w.msb) (msbFirst w) = false)) (by decide +kernel) b
  obtain ⟨hdecode, hlevel⟩ := of_decide_eq_true h
  exact ⟨hdecode, hlevel⟩

/-- The right half of an entry is the code of the upper four bits of its byte. -/
theorem carries_bmc_right (b : BitVec 8) :
    Carries (!((bmc b).setWidth 8).msb) (msbFirst ((bmc b).setWidth 8))
      (lsbFirst (b.extractLsb' 4 4)) false := by
  have h := table_checked bmc_size (p := fun w b => decide (decode (!(w.setWidth 8).msb)
    (msbFirst (w.setWidth 8)) = some (lsbFirst (b.extractLsb' 4 4)) ∧
      level (!(w.setWidth 8).msb) (msbFirst (w.setWidth 8)) = false)) (by decide +kernel) b
  obtain ⟨hdecode, hlevel⟩ := of_decide_eq_true h
  exact ⟨hdecode, hlevel⟩

/-! ### The sign tricks -/

/-- The top half of a sign extension is the sign, sixteen times. -/
theorem getLsbD_signExtend_top (x : BitVec 16) {i : ℕ} (h : 16 ≤ i) (h' : i < 32) :
    (x.signExtend 32).getLsbD i = x.msb := by
  rw [BitVec.getLsbD_signExtend, if_neg (Nat.not_lt.mpr h)]
  simp [h']

theorem sshiftRight_not_signExtend (x : BitVec 16) :
    ((~~~ x.signExtend 32).sshiftRight 16).setWidth 16 =
      if x.msb then 0#16 else BitVec.allOnes 16 := by
  apply BitVec.eq_of_getLsbD_eq
  intro i hi
  have hlt : 16 + i < 32 := by omega
  have hge : ¬ 32 ≤ i := by omega
  simp only [BitVec.getLsbD_setWidth, BitVec.getLsbD_sshiftRight, BitVec.getLsbD_not, hi, hlt,
    hge, decide_true, decide_false, Bool.true_and, Bool.not_false, if_true,
    getLsbD_signExtend_top x (Nat.le_add_right 16 i) hlt]
  cases x.msb
  · simp only [Bool.false_eq_true, if_false, BitVec.getLsbD_allOnes, hi, decide_true,
      Bool.not_false]
  · simp

/-- `lo` is inverted exactly when `hi` starts low. -/
theorem chainLo_eq (hi lo : BitVec 16) :
    chainLo hi lo = if hi.msb then lo else ~~~ lo := by
  rw [chainLo, sshiftRight_not_signExtend]
  cases hi.msb
  · exact BitVec.xor_allOnes
  · exact BitVec.xor_zero

/-- The code of a byte, chained in front of `hi`. -/
theorem carries_chainLo (hi : BitVec 16) (b : BitVec 8) :
    Carries (!(chainLo hi (bmc b)).msb) (msbFirst (chainLo hi (bmc b))) (lsbFirst b)
      (!hi.msb) := by
  rw [chainLo_eq]
  have hb := carries_bmc b
  generalize bmc b = x at hb ⊢
  cases hi.msb
  · simpa [msbFirst_not] using hb.not
  · exact hb

/-- Eight zero cells that end at the level `lo` needs, but for the first, which
forces parity. -/
theorem aux16_eq (lo : BitVec 16) :
    (0xb333 ^^^ (lo.signExtend 32 >>> 17)).setWidth 16 =
      if lo.msb then 0xcccc#16 else 0xb333#16 := by
  have hsh : lo.signExtend 32 >>> 17 =
      if lo.msb then (BitVec.allOnes 15).setWidth 32 else 0#32 := by
    apply BitVec.eq_of_getLsbD_eq
    intro i hi
    rw [BitVec.getLsbD_ushiftRight]
    by_cases h : i < 15
    · rw [getLsbD_signExtend_top lo (by omega) (by omega)]
      cases lo.msb
      · simp
      · simp only [if_true, BitVec.getLsbD_setWidth, BitVec.getLsbD_allOnes, hi, h,
          decide_true, Bool.true_and]
    · rw [BitVec.getLsbD_of_ge _ _ (by omega)]
      cases lo.msb
      · simp
      · simp only [if_true, BitVec.getLsbD_setWidth, BitVec.getLsbD_allOnes, h,
          decide_false, Bool.and_false]
  rw [hsh]
  cases lo.msb <;> rfl

/-- The byte `aux₁` of the 32-bit build: the right half of an entry, chained in
front of `lo`. -/
theorem aux32_right_eq (lo a : BitVec 16) :
    (a.setWidth 32 ^^^ (~~~ lo.signExtend 32).sshiftRight 16).setWidth 8 =
      if lo.msb then a.setWidth 8 else ~~~ (a.setWidth 8) := by
  have hlo : ((~~~ lo.signExtend 32).sshiftRight 16).setWidth 8 =
      (if lo.msb then 0#16 else BitVec.allOnes 16).setWidth 8 := by
    rw [← sshiftRight_not_signExtend, BitVec.setWidth_setWidth_of_le _ (by decide)]
  rw [BitVec.setWidth_xor, hlo, BitVec.setWidth_setWidth_of_le _ (by decide)]
  cases lo.msb
  · exact BitVec.xor_allOnes
  · exact BitVec.xor_zero

/-- The byte above `aux₁`: four cells that end at the level `aux₁` needs. -/
theorem aux32_eq (a : BitVec 8) :
    (a.setWidth 32 ||| (0xb3 ^^^ ((a.signExtend 16).setWidth 32 >>> 9)) <<< 8).setWidth 16 =
      (if a.msb then 0xcc#8 else 0xb3#8) ++ a := by
  revert a
  decide

/-! ### What a sample sends -/

/-- The half-cells of a code, in the order of the line. -/
def SpdifCode.halves (c : SpdifCode) : List Bool :=
  msbFirst c.aux ++ (msbFirst c.lo ++ msbFirst c.hi)

/-- The cells of the auxiliary half-word in the 16-bit build. -/
def auxCells16 (lo : BitVec 16) : List Bool := (!lo.msb) :: List.replicate 7 false

/-- The 24 bits a sample of the 16-bit build sends. -/
def slots16 (s : BitVec 16) : List Bool := auxCells16 (spdifSample16 s).lo ++ lsbFirst s

theorem carries_aux16 (lo : BitVec 16) :
    Carries false (msbFirst (if lo.msb then 0xcccc#16 else 0xb333#16)) (auxCells16 lo)
      (!lo.msb) := by
  rw [auxCells16]
  cases lo.msb
  · exact ⟨by decide, by decide⟩
  · exact ⟨by decide, by decide⟩

/-- A byte of a sample, as the code cuts it out. -/
theorem sshiftRight_setWidth {w : ℕ} (s : BitVec w) {k m : ℕ} (h : k + m ≤ w) :
    (s.sshiftRight k).setWidth m = s.extractLsb' k m := by
  apply BitVec.eq_of_getLsbD_eq
  intro i hi
  have hk : k + i < w := by omega
  have hw : ¬ w ≤ i := by omega
  simp [BitVec.getLsbD_sshiftRight, hi, hk, hw]

theorem lsbFirst_sample16 (s : BitVec 16) :
    lsbFirst (s.setWidth 8) ++ lsbFirst (((s.signExtend 32).sshiftRight 8).setWidth 8) =
      lsbFirst s := by
  have hlo : s.setWidth 8 = s.extractLsb' 0 8 := by
    apply BitVec.eq_of_getLsbD_eq
    intro i hi
    simp [hi]
  have hhi : (s.signExtend 32).extractLsb' 8 8 = s.extractLsb' 8 8 := by
    apply BitVec.eq_of_getLsbD_eq
    intro i hi
    have h₁ : 8 + i < 32 := by omega
    have h₂ : 8 + i < 16 := by omega
    simp only [BitVec.getLsbD_extractLsb', BitVec.getLsbD_signExtend, hi, h₁, h₂, if_true,
      decide_true, Bool.true_and]
  have hall : s.extractLsb' 0 16 = s := by simp
  rw [sshiftRight_setWidth _ (by decide), hlo, hhi]
  exact (lsbFirst_extractLsb'_add s 0 8 8).symm.trans (congrArg lsbFirst hall)

theorem carries_spdifSample16 (s : BitVec 16) :
    Carries false (spdifSample16 s).halves (slots16 s) false := by
  simp only [slots16, ← lsbFirst_sample16 s, SpdifCode.halves, spdifSample16, aux16_eq]
  exact (carries_aux16 _).append ((carries_chainLo _ _).append (carries_bmc _))

/-- The cells above the audio in the 32-bit build. -/
def auxCells32 (c : SpdifCode) : List Bool :=
  (!(c.aux.setWidth 8).msb) :: List.replicate 3 false

/-- The 24 bits a sample of the 32-bit build sends: the cells of bits 12 to 15
carry bits 16 to 19. -/
def slots32 (s : BitVec 32) : List Bool :=
  auxCells32 (spdifSample32 s) ++ (lsbFirst (s.extractLsb' 16 4) ++ lsbFirst (s.extractLsb' 16 16))

theorem carries_aux32 (a : BitVec 8) :
    Carries false (msbFirst (if a.msb then 0xcc#8 else 0xb3#8))
      ((!a.msb) :: List.replicate 3 false) (!a.msb) := by
  cases a.msb
  · exact ⟨by decide, by decide⟩
  · exact ⟨by decide, by decide⟩

/-- The right half of an entry, chained in front of `lo`. -/
theorem carries_aux32_right (lo : BitVec 16) (b : BitVec 8) (a : BitVec 8)
    (ha : a = if lo.msb then (bmc b).setWidth 8 else ~~~ ((bmc b).setWidth 8)) :
    Carries (!a.msb) (msbFirst a) (lsbFirst (b.extractLsb' 4 4)) (!lo.msb) := by
  have hb := carries_bmc_right b
  generalize (bmc b).setWidth 8 = x at ha hb
  subst ha
  cases lo.msb
  · simpa [msbFirst_not] using hb.not
  · exact hb

theorem carries_spdifSample32 (s : BitVec 32) :
    Carries false (spdifSample32 s).halves (slots32 s) false := by
  have hfield : (s.extractLsb' 12 8).extractLsb' 4 4 = s.extractLsb' 16 4 := by
    apply BitVec.eq_of_getLsbD_eq
    intro i hi
    have h₁ : 4 + i < 8 := by omega
    simp [hi, h₁, ← Nat.add_assoc]
  have h16 := lsbFirst_extractLsb'_add s 16 8 8
  simp only [Nat.reduceAdd] at h16
  simp only [slots32, auxCells32, h16, ← hfield, SpdifCode.halves, spdifSample32, aux32_eq,
    msbFirst_append, sshiftRight_setWidth s (show 24 + 8 ≤ 32 by decide),
    sshiftRight_setWidth s (show 16 + 8 ≤ 32 by decide),
    sshiftRight_setWidth s (show 12 + 8 ≤ 32 by decide), BitVec.setWidth_append_eq_right,
    List.append_assoc]
  have ha := aux32_right_eq
    (chainLo (bmc (s.extractLsb' 24 8)) (bmc (s.extractLsb' 16 8))) (bmc (s.extractLsb' 12 8))
  exact (carries_aux32 _).append
    ((carries_aux32_right _ _ _ ha).append ((carries_chainLo _ _).append (carries_bmc _)))

/-! ### The line -/

theorem sampleWord_eq (c : SpdifCode) : sampleWord c = c.lo ++ c.hi := by
  rw [← BitVec.setWidth_eq (c.lo ++ c.hi), BitVec.setWidth_append_eq_shiftLeft_setWidth_or]
  rfl

/-- The status byte and the preamble. -/
def headWord : Preamble → BitVec 16
  | .B => 0xCCE8
  | .M => 0xCCE2
  | .W => 0xCCE4

theorem auxWord_eq (p : Preamble) (c : SpdifCode) : auxWord p c = headWord p ++ c.aux := by
  have hhead : (0xCC <<< 24) ||| (preambleByte p <<< 16) = (headWord p).setWidth 32 <<< 16 := by
    cases p <;> decide
  rw [← BitVec.setWidth_eq (headWord p ++ c.aux),
    BitVec.setWidth_append_eq_shiftLeft_setWidth_or, auxWord, hhead]

/-- Two words, and the group they send. -/
theorem readGroup_pair {c : SpdifCode} {slots : List Bool}
    (h : Carries false c.halves slots false) (p : Preamble) :
    readGroup false (msbFirst (auxWord p c) ++ msbFirst (sampleWord c)) =
        some ⟨List.replicate 4 false, p, slots⟩ ∧
      level false (msbFirst (auxWord p c) ++ msbFirst (sampleWord c)) = false := by
  have hsplit : msbFirst (auxWord p c) ++ msbFirst (sampleWord c) =
      msbFirst (headWord p) ++ c.halves := by
    simp only [auxWord_eq, sampleWord_eq, msbFirst_append, SpdifCode.halves, List.append_assoc]
  have hhead : decode false ((msbFirst (headWord p)).take 8) = some (List.replicate 4 false) ∧
      level false ((msbFirst (headWord p)).take 8) = false ∧
      readPreamble false ((msbFirst (headWord p)).drop 8) = some p ∧
      level false ((msbFirst (headWord p)).drop 8) = false ∧
      level false (msbFirst (headWord p)) = false := by
    cases p <;> decide
  obtain ⟨hst, hlev, hpre, hlev', hlev''⟩ := hhead
  have h48 : c.halves.length = 48 := by simp [SpdifCode.halves]
  have h16 : (msbFirst (headWord p)).length = 16 := length_msbFirst _
  rw [hsplit]
  constructor
  · have htake : (msbFirst (headWord p) ++ c.halves).take 8 = (msbFirst (headWord p)).take 8 :=
      List.take_append_of_le_length (by omega)
    have hmid : ((msbFirst (headWord p) ++ c.halves).drop 8).take 8 =
        (msbFirst (headWord p)).drop 8 := by
      rw [List.drop_append_of_le_length (by omega), List.take_left' (by simp)]
    have hdrop : ((msbFirst (headWord p) ++ c.halves).drop 16).take 48 = c.halves := by
      rw [List.drop_left' h16, List.take_of_length_le (by omega)]
    simp only [readGroup, htake, hmid, hdrop, hst, hlev, hpre, hlev', h.decode]
  · rw [level_append, hlev'', h.level]

/-- The preamble of a first subframe, and the count it leaves. -/
def framePreamble (cnt : ℕ) : Preamble := if cnt + 1 > 191 then .B else .M

/-- The groups `spdif_convert` sends. -/
def spdifGroups {S : Type*} (slots : S → List Bool) : List (S × S) → ℕ → List Group
  | [], _ => []
  | (left, right) :: src, cnt =>
      ⟨List.replicate 4 false, framePreamble cnt, slots left⟩ ::
        ⟨List.replicate 4 false, .W, slots right⟩ ::
          spdifGroups slots src (if cnt + 1 > 191 then 0 else cnt + 1)

section Line

variable {S : Type*} {sample : S → SpdifCode} {slots : S → List Bool}

theorem spdifConvert_cons (left right : S) (src : List (S × S)) (cnt : ℕ) :
    (spdifConvert sample ((left, right) :: src) cnt).1 =
      sampleWord (sample left) :: auxWord (framePreamble cnt) (sample left) ::
        sampleWord (sample right) :: auxWord .W (sample right) ::
          (spdifConvert sample src (if cnt + 1 > 191 then 0 else cnt + 1)).1 := by
  simp only [spdifConvert, framePreamble]
  split <;> rfl

theorem length_spdifLine (src : List (S × S)) (cnt : ℕ) :
    (spdifLine (spdifConvert sample src cnt).1).length = 64 * (2 * src.length) := by
  induction src generalizing cnt with
  | nil => rfl
  | cons f src ih =>
      obtain ⟨left, right⟩ := f
      simp only [spdifConvert_cons, spdifLine, List.length_append, length_msbFirst, ih,
        List.length_cons]
      omega

/-- The line is valid and sends the groups of the samples, when every sample
has a code that carries its bits. -/
theorem readGroups_spdifConvert (h : ∀ s, Carries false (sample s).halves (slots s) false)
    (src : List (S × S)) (cnt : ℕ) :
    readGroups (2 * src.length) false (spdifLine (spdifConvert sample src cnt).1) =
      some (spdifGroups slots src cnt) := by
  induction src generalizing cnt with
  | nil => rfl
  | cons f src ih =>
      obtain ⟨left, right⟩ := f
      have hl := readGroup_pair (h left) (framePreamble cnt)
      have hr := readGroup_pair (h right) .W
      have hlen : ∀ (p : Preamble) (c : SpdifCode),
          (msbFirst (auxWord p c) ++ msbFirst (sampleWord c)).length = 64 := by
        intro p c
        simp
      -- two groups for each frame: the left channel, then the right one
      have hn : 2 * ((left, right) :: src).length = 2 * src.length + 1 + 1 := by
        simp only [List.length_cons]
        omega
      rw [hn, spdifConvert_cons]
      simp only [spdifLine]
      rw [readGroups_append (hlen _ _) hl.1, hl.2, readGroups_append (hlen _ _) hr.1, hr.2, ih]
      rfl

/-- The samples of a chunk in the order they are sent. -/
def samplesOf (src : List (S × S)) : List S := src.flatMap fun f => [f.1, f.2]

variable (slots) in
theorem slots_spdifGroups (src : List (S × S)) (cnt : ℕ) :
    (spdifGroups slots src cnt).map (·.slots) = (samplesOf src).map slots := by
  induction src generalizing cnt with
  | nil => rfl
  | cons f src ih =>
      simp only [spdifGroups, List.map_cons, ih, samplesOf, List.flatMap_cons, List.cons_append,
        List.nil_append]

/-- The preambles of `n` frames from the count `cnt` on: `B` once every 192. -/
def framePreambles (cnt n : ℕ) : List Preamble :=
  (List.range n).flatMap fun i => [if (cnt + i + 1) % 192 = 0 then .B else .M, .W]

theorem preambles_spdifGroups (src : List (S × S)) {cnt : ℕ} (hc : cnt ≤ 191) :
    (spdifGroups slots src cnt).map (·.preamble) = framePreambles cnt src.length := by
  induction src generalizing cnt with
  | nil => rfl
  | cons f src ih =>
      have hnext : (if cnt + 1 > 191 then 0 else cnt + 1) ≤ 191 := by
        split <;> omega
      -- the count starts again where the block does
      have hmod : ∀ i : ℕ, ((if cnt + 1 > 191 then 0 else cnt + 1) + i + 1) % 192 =
          (cnt + i.succ + 1) % 192 := by
        intro i
        split <;> omega
      have hfirst : framePreamble cnt = if (cnt + 0 + 1) % 192 = 0 then .B else .M := by
        have hiff : cnt + 1 > 191 ↔ (cnt + 0 + 1) % 192 = 0 := by omega
        simp only [framePreamble, hiff]
      simp only [spdifGroups, List.map_cons, ih hnext, hmod, hfirst, framePreambles,
        List.length_cons, List.range_succ_eq_map, List.flatMap_cons, List.flatMap_map,
        List.cons_append, List.nil_append]

/-- Coming back to the low level makes every subframe even. -/
theorem even_spdifGroups (h : ∀ s, Carries false (sample s).halves (slots s) false)
    (hlen : ∀ s, (slots s).length = 24) (src : List (S × S)) (cnt : ℕ) :
    ∀ g ∈ spdifGroups slots src cnt, g.slots.count true % 2 = 0 ∧ g.status.count true = 0 := by
  have hev : ∀ s, (slots s).count true % 2 = 0 := by
    intro s
    exact (h s).even_count (by rw [hlen])
  induction src generalizing cnt with
  | nil => simp [spdifGroups]
  | cons f src ih =>
      intro g hg
      simp only [spdifGroups, List.mem_cons] at hg
      rcases hg with rfl | rfl | hg
      · exact ⟨hev f.1, rfl⟩
      · exact ⟨hev f.2, rfl⟩
      · exact ih _ g hg

/-- What a receiver makes of any number of calls. -/
theorem receive_spdifCalls (h : ∀ s, Carries false (sample s).halves (slots s) false)
    (chunks : List (List (S × S))) (cnt : ℕ) :
    receive (spdifLine (spdifCalls sample chunks cnt)) =
      some (subframes (spdifGroups slots chunks.flatten cnt)) := by
  have hn : 64 * (2 * chunks.flatten.length) / 64 = 2 * chunks.flatten.length := by omega
  rw [spdifCalls_eq, receive, length_spdifLine, hn, readGroups_spdifConvert h, Option.map_some]

end Line

/-! ### Results -/

/-- 16-bit build: for any samples, cut into calls in any way, the words stored
make a valid line; its subframes carry the samples in their last 16 audio
cells, have even parity, and start with the preambles of the frame count. -/
theorem spdif_convert_16 (chunks : List (List (BitVec 16 × BitVec 16))) (cnt : ℕ)
    (hc : cnt ≤ 191) :
    ∃ subs, receive (spdifLine (spdifCalls spdifSample16 chunks cnt)) = some subs ∧
      subs.map (fun s => s.slots.drop 8) = (samplesOf chunks.flatten).map lsbFirst ∧
      (∀ s ∈ subs, s.EvenParity) ∧
      subs.map (·.preamble) = framePreambles cnt chunks.flatten.length := by
  refine ⟨_, receive_spdifCalls carries_spdifSample16 chunks cnt, ?_, ?_, ?_⟩
  · have hslots := slots_spdifGroups slots16 chunks.flatten cnt
    rw [map_subframes fun _ slots => slots.drop 8]
    rw [← Function.comp_def (List.drop 8) Group.slots, ← List.map_map, hslots, List.map_map]
    rfl
  · exact evenParity_subframes
      (even_spdifGroups carries_spdifSample16 (fun s => by simp [slots16, auxCells16]) _ _)
  · rw [map_subframes fun p _ => p, preambles_spdifGroups _ hc]

/-- Three frames in two calls, across the start of a block. -/
theorem spdif_convert_16_block :
    ∃ subs, receive (spdifLine (spdifCalls spdifSample16
        [[(0x1234, 0x8001)], [(0, 0xffff), (0x7fff, 0x8000)]] 190)) = some subs ∧
      subs.map (fun s => s.slots.drop 8) =
        [0x1234#16, 0x8001, 0, 0xffff, 0x7fff, 0x8000].map lsbFirst ∧
      (∀ s ∈ subs, s.EvenParity) ∧
      subs.map (·.preamble) = [.M, .W, .B, .W, .M, .W] :=
  spdif_convert_16 [[(0x1234, 0x8001)], [(0, 0xffff), (0x7fff, 0x8000)]] 190 (by decide)

/-- What the 32-bit build should send: a valid line of even parity whose
subframes carry bits 12 to 31 of the samples in their 20 audio cells. -/
def Spdif32Faithful (chunks : List (List (BitVec 32 × BitVec 32))) (cnt : ℕ) : Prop :=
  ∃ subs, receive (spdifLine (spdifCalls spdifSample32 chunks cnt)) = some subs ∧
    subs.map (fun s => s.slots.drop 4) =
      (samplesOf chunks.flatten).map (fun s => lsbFirst (s.extractLsb' 12 20)) ∧
    ∀ s ∈ subs, s.EvenParity

theorem slots32_drop_iff (s : BitVec 32) :
    (slots32 s).drop 4 = lsbFirst (s.extractLsb' 12 20) ↔
      s.extractLsb' 12 4 = s.extractLsb' 16 4 := by
  have h20 := lsbFirst_extractLsb'_add s 12 4 16
  have hdrop : (slots32 s).drop 4 =
      lsbFirst (s.extractLsb' 16 4) ++ lsbFirst (s.extractLsb' 16 16) := rfl
  rw [hdrop, h20]
  constructor
  · intro h
    exact lsbFirst_injective ((List.append_inj_left h (by simp)).symm)
  · intro h
    rw [h]

theorem spdif32Faithful_iff (chunks : List (List (BitVec 32 × BitVec 32))) (cnt : ℕ) :
    Spdif32Faithful chunks cnt ↔
      ∀ s ∈ samplesOf chunks.flatten, s.extractLsb' 12 4 = s.extractLsb' 16 4 := by
  have hrec := receive_spdifCalls carries_spdifSample32 chunks cnt
  have hslots := slots_spdifGroups slots32 chunks.flatten cnt
  have haudio : (subframes (spdifGroups slots32 chunks.flatten cnt)).map
      (fun s => s.slots.drop 4) = (samplesOf chunks.flatten).map fun s => (slots32 s).drop 4 := by
    rw [map_subframes fun _ slots => slots.drop 4, ← Function.comp_def (List.drop 4) Group.slots,
      ← List.map_map, hslots, List.map_map]
    rfl
  constructor
  · rintro ⟨subs, hsubs, hmap, -⟩ s hs
    obtain rfl := Option.some.inj (hrec.symm.trans hsubs)
    exact (slots32_drop_iff s).mp (List.map_inj_left.mp (haudio.symm.trans hmap) s hs)
  · intro h
    refine ⟨_, hrec, ?_, ?_⟩
    · rw [haudio]
      exact List.map_inj_left.mpr fun s hs => (slots32_drop_iff s).mpr (h s hs)
    · exact evenParity_subframes
        (even_spdifGroups carries_spdifSample32 (fun s => by simp [slots32, auxCells32]) _ _)

/-- 32-bit build: the line is faithful exactly when bits 12 to 15 of every
sample are the same as bits 16 to 19; the rest of the claim always holds. -/
theorem spdif_convert_32_iff (chunks : List (List (BitVec 32 × BitVec 32))) (cnt : ℕ) :
    Spdif32Faithful chunks cnt ↔
      ∀ s ∈ samplesOf chunks.flatten, s.extractLsb' 12 4 = s.extractLsb' 16 4 :=
  spdif32Faithful_iff chunks cnt

/-- One frame whose left sample has only bit 12 set loses it. -/
theorem spdif_convert_32_loses : ¬ Spdif32Faithful [[(0x1000, 0)]] 0 := by
  rw [spdif32Faithful_iff]
  intro h
  exact absurd (h 0x1000 (by simp [samplesOf])) (by decide)

end SqueezeliteMuse
