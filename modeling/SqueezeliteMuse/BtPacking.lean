/-
SqueezeliteMuse/BtPacking.lean

The frames that output_bt.c gives to the Bluetooth source.

`output_bt_data` is asked for some bytes.  `_output_frames` cuts this into calls of
`_write_frames`, each of which puts its frames behind those of the calls before.  What is put
there is always 16 bits a sample, so a frame takes 4 bytes.  The place where it begins, and the
length that is returned, are `oframes * BYTES_PER_FRAME`, which is 8 bytes a frame where a sample
of the build has 32 bits.

Main result: `packs_iff`: the bytes that are returned are the frames of the calls exactly where
a sample of the build has 16 bits, or no frame was written.
-/
import SqueezeliteMuse.Lib.Extent
import SqueezeliteMuse.I2s
import SqueezeliteMuse.VisuExport

namespace SqueezeliteMuse

namespace BtPacking

open Octets Extent

/-! ### The code -/

/-- `_apply_cross`, in a call: the two gains and `*cross_ptr`. -/
structure Cross where
  gainIn : BitVec 32
  gainOut : BitVec 32
  crossPtr : ℕ

/-- A call of `_write_frames`: its arguments, `outputbuf` with its samples, and whether
`output_visu_export` gets the lock.  `cross` is there where a crossfade is active. -/
structure Call (w : Build) where
  outFrames : ℕ
  silence : Bool
  gainL : BitVec 32
  gainR : BitVec 32
  flags : ℕ
  cross : Option Cross
  outputbuf : Buffer
  samples : Samples w
  lock : Bool

variable {w : Build}

/-- A sample, as an `s16_t`. -/
def toS16 : (w : Build) → BitVec w.bits → BitVec 16
  | .s16, x => x
  | .s32, x => (BitVec.sshiftRight x 16).setWidth 16

/-- The bytes of an `s16_t` in memory. -/
def bytes16 (x : BitVec 16) : List UInt8 := [UInt8.ofNat x.toNat, UInt8.ofNat (x.toNat / 256)]

namespace Call

/-- The samples at `readp`, crossed and with their gains. -/
def applied (c : Call w) : Samples w :=
  let crossed := match c.cross with
    | none => c.samples
    | some x =>
        (applyCross c.outputbuf x.gainIn x.gainOut ⟨c.samples, c.outputbuf.readp, x.crossPtr⟩
          (2 * c.outFrames)).mem
  applyGain c.gainL c.gainR c.flags c.outFrames c.outputbuf.readp crossed

/-- The samples, as the loop of the build with 32 bits takes them. -/
def samples16 (c : Call w) : List (BitVec 16) :=
  (List.range (2 * c.outFrames)).map fun i =>
    toS16 w (c.applied (c.outputbuf.readp + i * w.sampleBytes))

/-- What a call puts into `btout`. -/
def stored (c : Call w) : List UInt8 :=
  if c.silence then List.replicate (c.outFrames * w.frameBytes) 0
  else c.samples16.flatMap bytes16

end Call

/-- `btout`, `oframes`, `visu_export`, and where something was written. -/
structure State (w : Build) where
  btout : ℕ → UInt8
  oframes : ℕ
  visu : VisuExport.State
  writes : List (ℕ × ℕ)

/-- `_write_frames` -/
def writeFrames (rate : ℕ) (s : State w) (c : Call w) : State w where
  btout := Ring.write s.btout (s.oframes * w.frameBytes) c.stored
  oframes := s.oframes + c.outFrames
  visu := (VisuExport.outputVisuExport w s.visu
    { frames := fun i =>
        Ring.write s.btout (s.oframes * w.frameBytes) c.stored (s.oframes * w.frameBytes + i)
      outFrames := c.outFrames
      rate := rate
      silence := c.silence
      gain := ((c.gainL + c.gainR).sdiv 2).toNat
      lock := c.lock }).1
  writes := s.writes ++ [(s.oframes * w.frameBytes, c.stored.length)]

/-- `equalizer_process`: nothing, or what the library does in place. -/
def equalizerProcess (handle : Option ((ℕ → UInt8) → ℕ → ℕ → UInt8)) (data : ℕ → UInt8)
    (bytes : ℕ) : ℕ → UInt8 :=
  match handle with
  | none => data
  | some process => process data bytes

/-- A request: the buffer, where there is one, and its length. -/
structure Request where
  data : Option (ℕ → UInt8)
  len : ℤ

/-- `iframes` -/
def iframes (w : Build) (r : Request) : ℤ := r.len.tdiv w.frameBytes

/-- The calls of `_write_frames` that are made, where `_output_frames` would make some. -/
def made (running : Bool) (r : Request) (calls : List (Call w)) : List (Call w) :=
  if iframes w r ≤ 0 ∨ r.data = none ∨ running = false then [] else calls

/-- `output_bt_data` up to the equalizer. -/
def packed (running : Bool) (rate : ℕ) (visu : VisuExport.State) (r : Request)
    (calls : List (Call w)) : State w :=
  (made running r calls).foldl (writeFrames rate) ⟨r.data.getD fun _ => 0, 0, visu, []⟩

/-- What `output_bt_data` returns. -/
def returned (s : State w) : ℕ := s.oframes * w.frameBytes

/-- `data`, as `output_bt_data` leaves it. -/
def outputBtData (handle : Option ((ℕ → UInt8) → ℕ → ℕ → UInt8)) (s : State w) : ℕ → UInt8 :=
  equalizerProcess handle s.btout (returned s)

/-! ### What it is for -/

/-- The frames of a call: what was read of the buffer, or silence. -/
def Call.frames (c : Call w) : List (BitVec 16) :=
  if c.silence then List.replicate (2 * c.outFrames) 0 else c.samples16

/-- The bytes of the frames, one call behind the other. -/
def frameBytes (calls : List (Call w)) : List UInt8 :=
  calls.flatMap fun c => c.frames.flatMap bytes16

/-- The calls are a cut of what is asked for. -/
def Cut (r : Request) (calls : List (Call w)) : Prop :=
  ((calls.map Call.outFrames).sum : ℤ) ≤ max 0 (iframes w r)

instance (r : Request) (calls : List (Call w)) : Decidable (Cut r calls) :=
  inferInstanceAs (Decidable (_ ≤ _))

/-- What is returned is the frames, and nothing is written beyond the request. -/
structure Packs (r : Request) (calls : List (Call w)) (s : State w) : Prop where
  length : returned s = (frameBytes calls).length
  bytes : Octets.Holds s.btout 0 (frameBytes calls)
  inside : AllWithin r.len.toNat s.writes

/-! ### The calls -/

section Calls

variable {rate : ℕ} {s : State w} {c : Call w} {calls : List (Call w)} {limit : ℕ}

theorem length_flatMap_bytes16 (xs : List (BitVec 16)) :
    (xs.flatMap bytes16).length = 2 * xs.length := by
  simp [bytes16, List.length_flatMap, Nat.mul_comm]

theorem Call.length_frames (c : Call w) : c.frames.length = 2 * c.outFrames := by
  rw [Call.frames]
  split
  · exact List.length_replicate
  · simp [Call.samples16]

/-- A frame is 4 bytes of what is returned, in either build. -/
theorem length_frameBytes (calls : List (Call w)) :
    (frameBytes calls).length = (calls.map Call.outFrames).sum * 4 := by
  induction calls with
  | nil => rfl
  | cons c calls ih =>
      have hcons : frameBytes (c :: calls) = c.frames.flatMap bytes16 ++ frameBytes calls := rfl
      rw [hcons, List.length_append, length_flatMap_bytes16, c.length_frames, ih, List.map_cons,
        List.sum_cons]
      omega

theorem four_le_frameBytes (w : Build) : 4 ≤ w.frameBytes := by cases w <;> decide

/-- A call writes no more than there is room for in its part of the request. -/
theorem Call.length_stored (c : Call w) : c.stored.length ≤ c.outFrames * w.frameBytes := by
  have hB := Nat.mul_le_mul_left c.outFrames (four_le_frameBytes w)
  rw [Call.stored]
  split
  · exact List.length_replicate.le
  · rw [length_flatMap_bytes16, Call.samples16, List.length_map, List.length_range]
    omega

/-- In the build with 16 bits, what a call puts into the buffer is its frames. -/
theorem Call.stored_eq (c : Call .s16) : c.stored = c.frames.flatMap bytes16 := by
  rw [Call.stored, Call.frames]
  split
  · have hzero : ∀ n, (List.replicate n (0 : BitVec 16)).flatMap bytes16 =
        List.replicate (n * 2) 0 := by
      intro n
      induction n with
      | zero => rfl
      | succ n ih =>
          rw [List.replicate_succ, List.flatMap_cons, ih, Nat.succ_mul, Nat.add_comm,
            List.replicate_add]
          rfl
    have hframe : Build.s16.frameBytes = 4 := rfl
    rw [hzero, hframe]
    congr 1
    omega
  · rfl

theorem foldl_oframes (calls : List (Call w)) (s : State w) :
    (calls.foldl (writeFrames rate) s).oframes = s.oframes + (calls.map Call.outFrames).sum := by
  induction calls generalizing s with
  | nil => rfl
  | cons c calls ih =>
      rw [List.foldl_cons, ih, List.map_cons, List.sum_cons]
      exact Nat.add_assoc _ _ _

theorem writeFrames_inside (h : AllWithin limit s.writes)
    (hroom : (s.oframes + c.outFrames) * w.frameBytes ≤ limit) :
    AllWithin limit (writeFrames rate s c).writes := by
  have hlen := c.length_stored
  rw [Nat.add_mul] at hroom
  exact allWithin_append.mpr ⟨h, allWithin_singleton.mpr (.inr (by dsimp only; omega))⟩

/-- No call writes beyond the request. -/
theorem foldl_inside (h : AllWithin limit s.writes)
    (hroom : (s.oframes + (calls.map Call.outFrames).sum) * w.frameBytes ≤ limit) :
    AllWithin limit (calls.foldl (writeFrames rate) s).writes := by
  induction calls generalizing s with
  | nil => exact h
  | cons c calls ih =>
      rw [List.map_cons, List.sum_cons, ← Nat.add_assoc] at hroom
      refine ih (writeFrames_inside h (Nat.le_trans ?_ hroom)) hroom
      exact Nat.mul_le_mul_right _ (Nat.le_add_right _ _)

end Calls

section Short

variable {rate : ℕ} {s : State .s16} {bs : List UInt8}

/-- A call puts its frames behind those that are there. -/
theorem writeFrames_holds (c : Call .s16) (h : Octets.Holds s.btout 0 bs)
    (hlen : bs.length = s.oframes * 4) :
    Octets.Holds (writeFrames rate s c).btout 0 (bs ++ c.frames.flatMap bytes16) := by
  have hstored := h.write_append (c.frames.flatMap bytes16)
  rw [Nat.zero_add, hlen, ← c.stored_eq] at hstored
  rw [← c.stored_eq]
  exact hstored

/-- So do all calls of a request. -/
theorem foldl_holds (calls : List (Call .s16)) (h : Octets.Holds s.btout 0 bs)
    (hlen : bs.length = s.oframes * 4) :
    Octets.Holds (calls.foldl (writeFrames rate) s).btout 0 (bs ++ frameBytes calls) := by
  induction calls generalizing s bs with
  | nil =>
      have hnil : frameBytes ([] : List (Call .s16)) = [] := rfl
      rw [hnil, List.append_nil]
      exact h
  | cons c calls ih =>
      have hcons : frameBytes (c :: calls) = c.frames.flatMap bytes16 ++ frameBytes calls := rfl
      have hlen' : (bs ++ c.frames.flatMap bytes16).length =
          (writeFrames rate s c).oframes * 4 := by
        show _ = (s.oframes + c.outFrames) * 4
        rw [List.length_append, length_flatMap_bytes16, c.length_frames, hlen]
        omega
      rw [hcons, ← List.append_assoc]
      exact ih (writeFrames_holds c h hlen) hlen'

end Short

/-! ### A request -/

section Requests

variable {running : Bool} {rate : ℕ} {visu : VisuExport.State} {r : Request}
  {calls : List (Call w)}

theorem packed_oframes (running : Bool) (rate : ℕ) (visu : VisuExport.State) (r : Request)
    (calls : List (Call w)) :
    (packed running rate visu r calls).oframes =
      ((made running r calls).map Call.outFrames).sum := by
  rw [packed, foldl_oframes, Nat.zero_add]

/-- What is made of a request is in it. -/
theorem room_of_cut (hcut : Cut r calls) :
    ((made running r calls).map Call.outFrames).sum * w.frameBytes ≤ r.len.toNat := by
  have hB : 0 < (w.frameBytes : ℤ) := by cases w <;> decide
  rw [made]
  split
  case isTrue => simp
  case isFalse hgo =>
    have hpos : 0 < iframes w r := by
      by_contra hle
      exact hgo (.inl (Int.not_lt.mp hle))
    have hle : ((calls.map Call.outFrames).sum : ℤ) ≤ iframes w r := by
      rw [Cut, max_eq_right hpos.le] at hcut
      exact hcut
    have hlen : 0 ≤ r.len := by
      by_contra hneg
      have hquotient := Int.tdiv_nonneg (a := -r.len) (by omega) hB.le
      rw [Int.neg_tdiv] at hquotient
      rw [iframes] at hpos
      omega
    have hmul : iframes w r * w.frameBytes ≤ r.len := by
      rw [iframes, Int.tdiv_eq_ediv_of_nonneg hlen]
      exact Int.ediv_mul_le _ hB.ne'
    have hroom : ((calls.map Call.outFrames).sum : ℤ) * w.frameBytes ≤ r.len :=
      (Int.mul_le_mul_of_nonneg_right hle hB.le).trans hmul
    rw [← Int.ofNat_le, Int.toNat_of_nonneg hlen, Int.natCast_mul]
    exact hroom

/-- Nothing is written beyond the request, in either build. -/
theorem packed_inside (hcut : Cut r calls) :
    AllWithin r.len.toNat (packed running rate visu r calls).writes := by
  rw [packed]
  refine foldl_inside allWithin_nil ?_
  rw [Nat.zero_add]
  exact room_of_cut hcut

theorem sum_called (log : List OutputObs) :
    (log.filterMap OutputObs.called).sum = Runs.total OutputObs.given log := by
  induction log with
  | nil => rfl
  | cons o log ih =>
      rw [Runs.total_cons, ← ih]
      cases o with
      | write frames => rw [List.filterMap_cons_some (by rfl), List.sum_cons]; rfl
      | publish => rw [List.filterMap_cons_none rfl]; exact (Nat.zero_add _).symm
      | consume => rw [List.filterMap_cons_none rfl]; exact (Nat.zero_add _).symm
      | signal => rw [List.filterMap_cons_none rfl]; exact (Nat.zero_add _).symm
      | flush => rw [List.filterMap_cons_none rfl]; exact (Nat.zero_add _).symm

/-- The calls of `_output_frames` are a cut of the request, in whatever state the output is. -/
theorem cut_outputFrames (toGain : ℕ → ℕ → ℤ) (s : Output) (now : ℕ)
    (hcalls : calls.map Call.outFrames =
      (s.outputFrames toGain (iframes w r).toNat now fun _ => (iframes w r).toNat).2.2.filterMap
        OutputObs.called) :
    Cut r calls := by
  have hgiven := given_le toGain s (iframes w r).toNat now
  rw [Cut, hcalls, sum_called]
  omega

/-- What is returned is the frames of the calls where a sample has 16 bits, and where there are
no frames. -/
theorem packs_iff (w : Build) (running : Bool) (rate : ℕ) (visu : VisuExport.State) (r : Request)
    (calls : List (Call w)) (hcut : Cut r calls) :
    Packs r (made running r calls) (packed running rate visu r calls) ↔
      w = .s16 ∨ (packed running rate visu r calls).oframes = 0 := by
  have hlen := length_frameBytes (made running r calls)
  have hoframes := packed_oframes running rate visu r calls
  rw [← hoframes] at hlen
  constructor
  · intro h
    have hreturned := h.length
    rw [hlen, returned] at hreturned
    cases w with
    | s16 => exact .inl rfl
    | s32 =>
        have hframe : Build.s32.frameBytes = 8 := rfl
        rw [hframe] at hreturned
        exact .inr (by omega)
  · intro h
    refine ⟨?_, ?_, packed_inside hcut⟩
    · rw [hlen, returned]
      rcases h with rfl | hzero
      · rfl
      · rw [hzero, Nat.zero_mul, Nat.zero_mul]
    · rcases h with rfl | hzero
      · exact foldl_holds _ (holds_nil _ 0) rfl
      · rw [hzero, Nat.zero_mul] at hlen
        rw [List.eq_nil_of_length_eq_zero hlen]
        exact holds_nil _ _

end Requests

/-- A call that sounds, of one frame, at full gain. -/
def sounding (w : Build) (samples : Samples w) : Call w where
  outFrames := 1
  silence := false
  gainL := 0x10000
  gainR := 0x10000
  flags := 0
  cross := none
  outputbuf := ⟨0, 0, 0, 64, 64, 64, 64, fun _ => 0⟩
  samples := samples
  lock := false

/-- A request of two frames, cut in two. -/
theorem packs_two :
    Packs (w := .s16) ⟨some fun _ => 0, 8⟩
      (made true ⟨some fun _ => 0, 8⟩ [sounding .s16 fun i => BitVec.ofNat 16 i,
        sounding .s16 fun _ => 7])
      (packed true 44100 (VisuExport.outputVisuInit fun _ => 0) ⟨some fun _ => 0, 8⟩
        [sounding .s16 fun i => BitVec.ofNat 16 i, sounding .s16 fun _ => 7]) :=
  (packs_iff .s16 true 44100 _ _ _ (by decide)).mpr (.inl rfl)

/-- With samples of 32 bits, 8 bytes are returned for a single frame, which takes 4. -/
theorem frame_of_eight :
    ¬ ∀ (w : Build) (running : Bool) (rate : ℕ) (visu : VisuExport.State) (r : Request)
      (calls : List (Call w)), Cut r calls →
      Packs r (made running r calls) (packed running rate visu r calls) := by
  intro h
  have hpacks := h .s32 true 44100 (VisuExport.outputVisuInit fun _ => 0) ⟨some fun _ => 0, 8⟩
    [sounding .s32 fun _ => 0x12345678] (by decide)
  have hlength := hpacks.length
  revert hlength
  decide

end BtPacking

end SqueezeliteMuse
