/-
SqueezeliteMuse/OtaErase.lean

`_erase_last_boot_app_partition` of squeezelite-ota.c.

The partition is erased in passes of one size, and what remains at its end at once.  How many
passes there are and how much remains are numbers of 16 bits; the size of a pass is a setting,
rounded down to sectors.

Main result: `erase_iff`: the whole partition is erased, if every erase succeeds, exactly if the
rounded setting is not zero and neither number is cut.
-/
import SqueezeliteMuse.Lib.CString
import SqueezeliteMuse.Lib.Extent
import Mathlib.Data.Int.Notation

namespace SqueezeliteMuse

namespace Ota

open Extent

/-! ### The code -/

/-- `SPI_FLASH_SEC_SIZE` -/
def secSize : ℕ := 4096

/-- `OTA_FLASH_ERASE_BLOCK` -/
def flashEraseBlock : ℕ := 249856

/-- `single_pass_size` as the setting `ota_erase_blk` gives it. -/
def eraseBlk : Option (List UInt8) → ℕ
  | some text => (CString.atol text % 2 ^ 32).toNat
  | none => flashEraseBlock

/-- `single_pass_size` -/
def singlePassSize (setting : Option (List UInt8)) : ℕ :=
  if eraseBlk setting % secSize ≠ 0 then eraseBlk setting - eraseBlk setting % secSize
  else eraseBlk setting

/-- The loop over `num_passes` passes, of which `left` are left: the ranges that it erased or
tried to, and the error that ended it. -/
def erasePasses (erase : ℕ → ℕ → ℤ) (single numPasses : ℕ) : ℕ → List (ℕ × ℕ) × ℤ
  | 0 => ([], 0)
  | left + 1 =>
      let offset := (numPasses - (left + 1)) * single % 2 ^ 32
      let err := erase offset single
      if err ≠ 0 then ([(offset, single)], err)
      else
        let (ranges, err) := erasePasses erase single numPasses left
        ((offset, single) :: ranges, err)

/-- `_erase_last_boot_app_partition`, where `erase` is `esp_partition_erase_range` of the
partition; `none` is the division by zero. -/
def eraseLastBootAppPartition (erase : ℕ → ℕ → ℤ) (size : UInt32)
    (setting : Option (List UInt8)) : Option (List (ℕ × ℕ) × ℤ) :=
  let single := singlePassSize setting
  if single = 0 then none
  else
    let numPasses := size.toNat / single % 2 ^ 16
    let remainSize := (size.toNat - numPasses * single) % 2 ^ 16
    match erasePasses erase single numPasses numPasses with
    | (ranges, err) =>
        if err ≠ 0 then some (ranges, err)
        else if 0 < remainSize then
          let last := (size.toNat - remainSize, remainSize)
          some (ranges ++ [last], erase last.1 last.2)
        else some (ranges, 0)

/-! ### What it is for -/

/-- The ranges are of whole sectors, in the partition, disjoint, and leave nothing out. -/
structure Tiles (size : ℕ) (ranges : List (ℕ × ℕ)) : Prop where
  aligned : ∀ r ∈ ranges, secSize ∣ r.1 ∧ secSize ∣ r.2
  inside : AllWithin size ranges
  disjoint : ranges.Pairwise fun r r' => r.1 + r.2 ≤ r'.1 ∨ r'.1 + r'.2 ≤ r.1
  covers : ∀ x < size, ∃ r ∈ ranges, r.1 ≤ x ∧ x < r.1 + r.2

/-- Whatever the flash does, there is no division by zero, and if every erase succeeds the
whole partition is erased. -/
def ErasesAll (size : UInt32) (setting : Option (List UInt8)) : Prop :=
  ∀ erase, ∃ ranges err, eraseLastBootAppPartition erase size setting = some (ranges, err) ∧
    ((∀ r ∈ ranges, erase r.1 r.2 = 0) → err = 0 ∧ Tiles size.toNat ranges)

/-! ### The passes -/

theorem secSize_dvd_singlePassSize (setting : Option (List UInt8)) :
    secSize ∣ singlePassSize setting := by
  rw [singlePassSize]
  split
  case isTrue => exact Nat.dvd_sub_mod _
  case isFalse h => exact Nat.dvd_of_mod_eq_zero (not_not.mp h)

variable {erase : ℕ → ℕ → ℤ} {single n : ℕ}

/-- The passes are records one behind the other, unless one of them fails. -/
theorem erasePasses_cases (hfit : n * single < 2 ^ 32) (left : ℕ) (hleft : left ≤ n) :
    ((∀ r ∈ records single single left ((n - left) * single), erase r.1 r.2 = 0) ∧
      erasePasses erase single n left = (records single single left ((n - left) * single), 0)) ∨
    (∃ r ∈ (erasePasses erase single n left).1, erase r.1 r.2 ≠ 0) ∧
      (erasePasses erase single n left).2 ≠ 0 := by
  induction left with
  | zero => exact .inl ⟨fun r hr => absurd hr List.not_mem_nil, rfl⟩
  | succ left ih =>
    have hoffset : (n - (left + 1)) * single % 2 ^ 32 = (n - (left + 1)) * single :=
      Nat.mod_eq_of_lt (Nat.lt_of_le_of_lt (Nat.mul_le_mul_right _ (Nat.sub_le ..)) hfit)
    have hnext : (n - (left + 1)) * single + single = (n - left) * single := by
      rw [← Nat.succ_mul]
      congr 1
      omega
    rw [erasePasses, hoffset]
    by_cases herr : erase ((n - (left + 1)) * single) single = 0
    · rw [if_neg (not_not.mpr herr)]
      rcases ih (by omega) with ⟨hall, hrun⟩ | ⟨⟨r, hr, hfail⟩, hne⟩
      · refine .inl ⟨?_, ?_⟩
        · rw [records, hnext]
          exact List.forall_mem_cons.mpr ⟨herr, hall⟩
        · rw [hrun, records, hnext]
      · exact .inr ⟨⟨r, List.mem_cons_of_mem _ hr, hfail⟩, hne⟩
    · rw [if_pos herr]
      exact .inr ⟨⟨_, List.mem_singleton_self _, herr⟩, herr⟩

/-- Records one behind the other cover what they reach. -/
theorem tiles_records (hdvd : secSize ∣ single) (hpos : 0 < single) (n p : ℕ)
    (hp : secSize ∣ p) :
    (∀ r ∈ records single single n p, secSize ∣ r.1 ∧ secSize ∣ r.2 ∧ p ≤ r.1 ∧
      r.1 + r.2 ≤ p + n * single) ∧
    (records single single n p).Pairwise (fun r r' => r.1 + r.2 ≤ r'.1) ∧
    ∀ x, (∃ r ∈ records single single n p, r.1 ≤ x ∧ x < r.1 + r.2) ↔
      p ≤ x ∧ x < p + n * single := by
  induction n generalizing p with
  | zero =>
    refine ⟨fun r hr => absurd hr List.not_mem_nil, List.Pairwise.nil, fun x => ?_⟩
    simp only [records, List.not_mem_nil, false_and, exists_false, Nat.zero_mul, false_iff]
    omega
  | succ n ih =>
    obtain ⟨hmem, hpair, hcov⟩ := ih (p + single) (Nat.dvd_add hp hdvd)
    have hend : p + (n + 1) * single = p + single + n * single := by
      rw [Nat.succ_mul]
      omega
    rw [records, hend]
    refine ⟨List.forall_mem_cons.mpr ⟨⟨hp, hdvd, Nat.le_refl _, Nat.le_add_right _ _⟩, ?_⟩,
      List.pairwise_cons.mpr ⟨fun r hr => (hmem r hr).2.2.1, hpair⟩, fun x => ?_⟩
    · intro r hr
      obtain ⟨h₁, h₂, h₃, h₄⟩ := hmem r hr
      exact ⟨h₁, h₂, Nat.le_trans (Nat.le_add_right _ _) h₃, h₄⟩
    · rw [List.exists_mem_cons_iff, hcov x]
      omega

/-! ### The whole partition -/

section Partition

variable (size : UInt32) (setting : Option (List UInt8))

/-- `num_passes` -/
def numPasses : ℕ := size.toNat / singlePassSize setting % 2 ^ 16

/-- `remain_size` -/
def remainSize : ℕ := (size.toNat - numPasses size setting * singlePassSize setting) % 2 ^ 16

/-- The ranges of the passes, and that of the remainder. -/
def allRanges : List (ℕ × ℕ) :=
  records (singlePassSize setting) (singlePassSize setting) (numPasses size setting) 0 ++
    if 0 < remainSize size setting then
      [(size.toNat - remainSize size setting, remainSize size setting)]
    else []

variable {size setting}

theorem mem_allRanges {r : ℕ × ℕ} :
    r ∈ allRanges size setting ↔
      r ∈ records (singlePassSize setting) (singlePassSize setting) (numPasses size setting) 0 ∨
        0 < remainSize size setting ∧
          r = (size.toNat - remainSize size setting, remainSize size setting) := by
  rw [allRanges, List.mem_append]
  split
  case isTrue h => rw [List.mem_singleton, and_iff_right h]
  case isFalse h => rw [iff_false_intro List.not_mem_nil, iff_false_intro h, false_and]

theorem passes_le : numPasses size setting * singlePassSize setting ≤ size.toNat :=
  Nat.le_trans (Nat.mul_le_mul_right _ (Nat.mod_le _ _)) (Nat.div_mul_le_self _ _)

/-- Unless an erase fails, all ranges are erased. -/
theorem erase_cases (hpos : singlePassSize setting ≠ 0) (erase : ℕ → ℕ → ℤ) :
    ∃ ranges err, eraseLastBootAppPartition erase size setting = some (ranges, err) ∧
      ((∃ r ∈ ranges, erase r.1 r.2 ≠ 0) ∨ ranges = allRanges size setting ∧ err = 0) := by
  have hrun := @erasePasses_cases erase _ _
    (Nat.lt_of_le_of_lt passes_le size.toNat_lt) (numPasses size setting) (Nat.le_refl _)
  rw [Nat.sub_self, Nat.zero_mul] at hrun
  rw [eraseLastBootAppPartition, if_neg hpos]
  rcases hrun with ⟨hall, hrun⟩ | ⟨hfail, hne⟩
  · -- all passes went well
    simp only [← numPasses.eq_1, ← remainSize.eq_1, hrun]
    rw [if_neg (not_not.mpr rfl)]
    by_cases hremain : 0 < remainSize size setting
    · rw [if_pos hremain]
      refine ⟨_, _, rfl, ?_⟩
      by_cases hlast : erase (size.toNat - remainSize size setting) (remainSize size setting) = 0
      · exact .inr ⟨by rw [allRanges, if_pos hremain], hlast⟩
      · exact .inl ⟨_, List.mem_append_right _ (List.mem_singleton_self _), hlast⟩
    · rw [if_neg hremain]
      exact ⟨_, _, rfl, .inr ⟨by rw [allRanges, if_neg hremain, List.append_nil], rfl⟩⟩
  · simp only [← numPasses.eq_1]
    rw [if_pos hne]
    exact ⟨_, _, rfl, .inl hfail⟩

theorem erasesAll_iff_tiles :
    ErasesAll size setting ↔
      singlePassSize setting ≠ 0 ∧ Tiles size.toNat (allRanges size setting) := by
  constructor
  · intro h
    obtain ⟨ranges, err, hrun, htiles⟩ := h fun _ _ => 0
    have hpos : singlePassSize setting ≠ 0 := by
      intro hzero
      rw [eraseLastBootAppPartition, if_pos hzero] at hrun
      cases hrun
    obtain ⟨ranges', err', hrun', ⟨r, -, hfail⟩ | ⟨hall, -⟩⟩ := erase_cases hpos fun _ _ => 0
    · exact absurd rfl hfail
    · cases hrun.symm.trans hrun'
      exact ⟨hpos, hall ▸ (htiles fun _ _ => rfl).2⟩
  · rintro ⟨hpos, htiles⟩ erase
    obtain ⟨ranges, err, hrun, ⟨r, hr, hfail⟩ | ⟨rfl, rfl⟩⟩ := erase_cases hpos erase
    · exact ⟨ranges, err, hrun, fun hall => absurd (hall r hr) hfail⟩
    · exact ⟨_, _, hrun, fun _ => ⟨rfl, htiles⟩⟩

/-- Nothing is left out exactly if what is left behind the passes is not cut. -/
theorem tiles_iff (hsize : secSize ∣ size.toNat) (hpos : singlePassSize setting ≠ 0) :
    Tiles size.toNat (allRanges size setting) ↔
      size.toNat - numPasses size setting * singlePassSize setting < 2 ^ 16 := by
  have hdvd := secSize_dvd_singlePassSize setting
  obtain ⟨hmem, hpair, hcov⟩ := tiles_records hdvd (Nat.pos_of_ne_zero hpos)
    (numPasses size setting) 0 (Nat.dvd_zero _)
  simp only [Nat.zero_add] at hmem hcov
  have hle := @passes_le size setting
  have hremain : remainSize size setting =
      (size.toNat - numPasses size setting * singlePassSize setting) % 2 ^ 16 := rfl
  have hmult : secSize ∣ numPasses size setting * singlePassSize setting :=
    Nat.dvd_mul_left_of_dvd hdvd _
  generalize numPasses size setting * singlePassSize setting = stop at hmem hcov hle hremain hmult ⊢
  constructor
  · intro h
    by_contra hcut
    -- where the passes end, nothing is erased
    obtain ⟨r, hr, hfrom, hto⟩ := h.covers stop (by omega)
    rcases mem_allRanges.mp hr with hr | ⟨-, rfl⟩
    · have hlt := (hmem r hr).2.2.2
      omega
    · simp only at hfrom
      omega
  · intro hfit
    rw [Nat.mod_eq_of_lt hfit] at hremain
    have hlast : size.toNat - remainSize size setting = stop := by omega
    refine ⟨?_, ?_, ?_, ?_⟩
    · intro r hr
      rcases mem_allRanges.mp hr with hr | ⟨-, rfl⟩
      · exact ⟨(hmem r hr).1, (hmem r hr).2.1⟩
      · simp only
        exact ⟨hlast ▸ hmult, hremain ▸ Nat.dvd_sub hsize hmult⟩
    · intro r hr
      rcases mem_allRanges.mp hr with hr | ⟨-, rfl⟩
      · exact .inr (Nat.le_trans (hmem r hr).2.2.2 hle)
      · refine .inr ?_
        simp only
        omega
    · rw [allRanges]
      refine List.pairwise_append.mpr ⟨hpair.imp .inl, ?_, ?_⟩
      · split
        case isTrue => exact List.pairwise_singleton _ _
        case isFalse => exact List.Pairwise.nil
      · intro r hr r' hr'
        split at hr'
        case isTrue =>
          obtain rfl := List.mem_singleton.mp hr'
          exact .inl (hlast ▸ (hmem r hr).2.2.2)
        case isFalse => exact absurd hr' List.not_mem_nil
    · intro x hx
      by_cases hpass : x < stop
      · obtain ⟨r, hr, hin⟩ := (hcov x).mpr ⟨Nat.zero_le x, hpass⟩
        exact ⟨r, mem_allRanges.mpr (.inl hr), hin⟩
      · exact ⟨_, mem_allRanges.mpr (.inr ⟨by omega, rfl⟩), by simp only; omega,
          by simp only; omega⟩

end Partition

/-- The partition is erased entirely if and only if the setting gives a size, and the number of
passes and what remains fit in 16 bits. -/
theorem erase_iff (size : UInt32) (hsize : secSize ∣ size.toNat) (setting : Option (List UInt8)) :
    ErasesAll size setting ↔ singlePassSize setting ≠ 0 ∧
      size.toNat / singlePassSize setting < 2 ^ 16 ∧
      size.toNat % singlePassSize setting < 2 ^ 16 := by
  rw [erasesAll_iff_tiles, and_congr_right_iff]
  intro hpos
  rw [tiles_iff hsize hpos]
  have hdiv := Nat.div_add_mod' size.toNat (singlePassSize setting)
  by_cases hpass : size.toNat / singlePassSize setting < 2 ^ 16
  · have hn : numPasses size setting = size.toNat / singlePassSize setting :=
      Nat.mod_eq_of_lt hpass
    rw [hn, Nat.sub_eq_of_eq_add' hdiv.symm, and_iff_right hpass]
  · -- what is cut off the number of passes is more than any remainder
    have hlost : numPasses size setting + 2 ^ 16 ≤ size.toNat / singlePassSize setting := by
      rw [numPasses]
      omega
    have hmul := Nat.mul_le_mul_right (singlePassSize setting) hlost
    rw [Nat.add_mul] at hmul
    have hbig : 2 ^ 16 ≤ 2 ^ 16 * singlePassSize setting :=
      Nat.le_mul_of_pos_right _ (Nat.pos_of_ne_zero hpos)
    constructor
    · intro h
      omega
    · exact fun h => absurd h.1 hpass

/-- The partition of the default setting. -/
theorem erase_default : ErasesAll 1507328 none :=
  (erase_iff 1507328 (by decide) none).mpr (by decide)

/-- The setting `0` divides by zero. -/
theorem erase_zero : ¬ ErasesAll 1507328 (some (CString.ascii "0")) := by
  intro h
  obtain ⟨ranges, err, hrun, -⟩ := h fun _ _ => 0
  rw [eraseLastBootAppPartition, if_pos (by decide)] at hrun
  cases hrun

end Ota

end SqueezeliteMuse
