/-
SqueezeliteMuse/BufferAdjust.lean

`buf_adjust`, track after track.

`pcm_open` adjusts `streambuf` to a multiple of the frame size, so that reading
always wraps on frame boundary, and `pcm_close` adjusts it to a multiple of 1.
`buf_adjust` rounds down the size in use, not the one allocated: what one call
takes away, the next one does not give back.

Main result: `adjusted_iff`: after a sequence of calls the size is the largest
multiple of the last modulus that the allocation has room for if and only if that
multiple, rounded up by the earlier moduli from the last to the first, still fits.
-/
import SqueezeliteMuse.Lib.Multiples
import SqueezeliteMuse.Buffer

namespace SqueezeliteMuse

open Multiples

theorem size_foldl_bufAdjust (mods : List ℕ) (b : Buffer) :
    (mods.foldl bufAdjust b).size = mods.foldl (fun s m => down m s) b.size := by
  induction mods generalizing b with
  | nil => rfl
  | cons m mods ih => exact ih (bufAdjust b m)

/-- **The size depends on the last modulus alone exactly if** the largest multiple of it, rounded
up by the earlier moduli from the last to the first, is not above the allocation. -/
theorem adjusted_iff (blk : Block) {size m : ℕ} {mods : List ℕ} (hm : 0 < m ∧ m ≤ size)
    (hmods : ∀ k ∈ mods, 0 < k ∧ k ≤ size) :
    IsGreatest {n | m ∣ n ∧ n ≤ size}
        ((mods ++ [m]).foldl bufAdjust (bufInit blk size)).size ↔
      mods.foldr up (down m size) ≤ size := by
  have hsize : ((mods ++ [m]).foldl bufAdjust (bufInit blk size)).size =
      down m (mods.foldl (fun s k => down k s) size) := by
    rw [size_foldl_bufAdjust, List.foldl_append]
    rfl
  rw [hsize, ← down_foldl_eq_iff hm.1 fun k hk => (hmods k hk).1]
  constructor
  · intro h
    exact h.unique (isGreatest_down hm.1)
  · intro h
    rw [h]
    exact isGreatest_down hm.1

/-- Frames of 2, 4 and 8 bytes take nothing from a buffer of 64 bytes. -/
theorem adjusted_even :
    IsGreatest {n | 1 ∣ n ∧ n ≤ 64}
      (([4, 8, 2] ++ [1]).foldl bufAdjust (bufInit ⟨0, fun _ => 0⟩ 64)).size :=
  (adjusted_iff ⟨0, fun _ => 0⟩ (by decide) (by decide)).mpr (by decide)

/-- The close of a track gives back the whole allocation exactly if every frame size divides it. -/
theorem closed_iff (blk : Block) {size : ℕ} {mods : List ℕ} (hmods : ∀ k ∈ mods, 0 < k) :
    ((mods ++ [1]).foldl bufAdjust (bufInit blk size)).size = size ↔ ∀ k ∈ mods, k ∣ size := by
  have hone : down 1 size = size := down_of_dvd (Nat.one_dvd size)
  have hsize : ((mods ++ [1]).foldl bufAdjust (bufInit blk size)).size =
      down 1 (mods.foldl (fun s k => down k s) size) := by
    rw [size_foldl_bufAdjust, List.foldl_append]
    rfl
  have hiff := down_foldl_eq_iff (s := size) Nat.one_pos hmods
  rw [hone] at hiff
  rw [hsize, hiff, foldr_up_le_iff hmods]

/-- A track of 24 bits stereo, closed: four bytes of a megabyte are gone. -/
theorem not_adjusted :
    ¬IsGreatest {n | 1 ∣ n ∧ n ≤ 1024 * 1024}
      (([6] ++ [1]).foldl bufAdjust (bufInit ⟨0, fun _ => 0⟩ (1024 * 1024))).size := fun h =>
  absurd (h.2 ⟨Nat.one_dvd _, Nat.le_refl (1024 * 1024)⟩) (by decide)

end SqueezeliteMuse
