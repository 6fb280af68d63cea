/-
SqueezeliteMuse/Resample.lean

The resampled blocks on their way to the output: `process_samples`, `_write_samples`,
`process_drain`, `process_newstream` and `process_flush` of process.c, with resample16.c.

`_write_samples` writes the first `out_frames` frames of `process.outbuf`.  When the resampler fails
`out_frames` keeps the value of an earlier block, and so many frames are written again.

Main result: `handed_over_iff`: the frames of each block are written once and in order, in every run
in which the resampler only fails when no frames of an earlier block are left to be written again,
or when there is no space for them.
-/
import Mathlib.Algebra.Order.Ring.Int
import Mathlib.Data.List.Basic
import Mathlib.Tactic.Common

namespace SqueezeliteMuse

namespace Resample

variable {α : Type*}

/-! ### The code -/

/-- `struct processstate`; a frame is a value. -/
structure Process (α : Type*) where
  outbuf : ℕ → α
  inFrames : ℕ
  outFrames : ℕ
  totalIn : ℕ
  totalOut : ℕ

/-- What `resample16` does: it fails, having left something in `outbuf`, or has put frames there. -/
inductive Outcome (α : Type*)
  | error (outbuf : ℕ → α)
  | done (frames : List α)

/-- A block of frames in memory. -/
def store (m : ℕ → α) (xs : List α) : ℕ → α := fun i => xs.getD i (m i)

/-- `resample_samples` -/
def resampleSamples (p : Process α) : Outcome α → Process α
  | .error outbuf => { p with outbuf := outbuf }
  | .done frames =>
      { p with
        outbuf := store p.outbuf frames
        outFrames := frames.length
        totalIn := p.totalIn + p.inFrames
        totalOut := p.totalOut + frames.length }

/-- The loop of `_write_samples`: what it writes, if `looks` are the frames there is space for,
each time that it looks. -/
def writeLoop (m : ℕ → α) (looks : ℕ → ℕ) (frames iptr cnt : ℕ) : List α :=
  if frames = 0 then []
  else
    if 0 < looks 0 then
      let f := min (looks 0) frames
      (List.range' iptr f).map m ++
        writeLoop m (fun i => looks (i + 1)) (frames - f) (iptr + f) cnt
    else
      match cnt with
      | 0 => []
      | cnt + 1 => writeLoop m (fun i => looks (i + 1)) frames iptr cnt
termination_by frames + cnt

/-- `_write_samples` -/
def writeSamples (p : Process α) (looks : ℕ → ℕ) : List α :=
  writeLoop p.outbuf looks p.outFrames 0 10

/-- What is called, with what the resampler and the output do in it. -/
inductive Event (α : Type*)
  /-- `process_samples`, with so many decoded frames in `inbuf` -/
  | samples (inFrames : ℕ) (result : Outcome α) (looks : ℕ → ℕ)
  | drain (looks : ℕ → ℕ)
  /-- `process_newstream`, and what the memory holds if it allocates `outbuf` anew -/
  | newstream (active : Bool) (fresh : Option (ℕ → α))
  | flush

/-- A call: the state after it, and what it writes to `outputbuf`. -/
def step (p : Process α) : Event α → Process α × List α
  | .samples inFrames result looks =>
      let p := resampleSamples { p with inFrames := inFrames } result
      ({ p with inFrames := 0 }, writeSamples p looks)
  | .drain looks =>
      let p := { p with outFrames := 0 }
      (p, writeSamples p looks)
  | .newstream active fresh =>
      (if active then ⟨fresh.getD p.outbuf, 0, 0, 0, 0⟩ else p, [])
  | .flush => ({ p with inFrames := 0 }, [])

/-! ### What it is for -/

/-- The frames that the resampler produced. -/
def Outcome.produced : Outcome α → List α
  | .error _ => []
  | .done frames => frames

/-- The frames there was space for in the first `n` looks. -/
def granted (looks : ℕ → ℕ) (n : ℕ) : ℕ := ((List.range n).map looks).sum

/-- How often there was no space in the first `n` looks. -/
def refused (looks : ℕ → ℕ) (n : ℕ) : ℕ := (List.range n).countP fun i => looks i = 0

/-- The frames of a block are written in order, all of them, or as many as there was space for
before it was waited for in vain after ten times. -/
def HandsOver (looks : ℕ → ℕ) (block written : List α) : Prop :=
  ∃ n, written = block.take (granted looks n) ∧ refused looks n ≤ 10 ∧
    (block.length ≤ granted looks n ∨ refused looks n = 10 ∧ looks n = 0)

/-- What a call may write. -/
def Event.Writes : Event α → List α → Prop
  | .samples _ result looks, written => HandsOver looks result.produced written
  | _, written => written = []

/-- Every block is handed over, and nothing else is. -/
def HandedOver : Process α → List (Event α) → Prop
  | _, [] => True
  | p, e :: es => e.Writes (step p e).2 ∧ HandedOver (step p e).1 es

/-- If the resampler fails, nothing is left of an earlier block, or there is no space for it. -/
def Event.Fine (p : Process α) : Event α → Prop
  | .samples _ (.error _) looks => p.outFrames = 0 ∨ ∀ i ≤ 10, looks i = 0
  | _ => True

def Fine : Process α → List (Event α) → Prop
  | _, [] => True
  | p, e :: es => e.Fine p ∧ Fine (step p e).1 es

/-! ### Writing -/

section Write

variable {m : ℕ → α} {looks : ℕ → ℕ} {frames iptr cnt : ℕ}

theorem granted_succ (looks : ℕ → ℕ) (n : ℕ) :
    granted looks (n + 1) = looks 0 + granted (fun i => looks (i + 1)) n := by
  rw [granted, List.range_succ_eq_map, List.map_cons, List.sum_cons, List.map_map]
  rfl

theorem refused_succ (looks : ℕ → ℕ) (n : ℕ) :
    refused looks (n + 1) = refused (fun i => looks (i + 1)) n + if looks 0 = 0 then 1 else 0 := by
  rw [refused, List.range_succ_eq_map, List.countP_cons, List.countP_map]
  simp only [decide_eq_true_eq]
  rfl

/-- What fits, then what is granted of the rest, is what is granted altogether. -/
theorem take_grant {look f g : ℕ} (hf : f ≤ frames) (hlook : f = look ∨ f = frames ∧ f ≤ look) :
    ((List.range' iptr frames).map m).take (look + g) =
      (List.range' iptr f).map m ++ ((List.range' (iptr + f) (frames - f)).map m).take g := by
  have hsplit : List.range' iptr frames =
      List.range' iptr f ++ List.range' (iptr + f) (frames - f) := by
    rw [List.range'_append_1, Nat.add_sub_cancel' hf]
  have hlen : ((List.range' iptr f).map m).length = f := by
    rw [List.length_map, List.length_range']
  rw [hsplit, List.map_append, List.take_append, hlen]
  congr 1
  · exact List.take_of_length_le (by omega)
  · rcases hlook with rfl | ⟨rfl, _⟩
    · rw [Nat.add_sub_cancel_left]
    · rw [Nat.sub_self, List.range'_zero, List.map_nil, List.take_nil, List.take_nil]

/-- The loop writes as long as there is space, and waits `cnt` times. -/
theorem writeLoop_writes (m : ℕ → α) (looks : ℕ → ℕ) (frames iptr cnt : ℕ) :
    ∃ n, writeLoop m looks frames iptr cnt =
        ((List.range' iptr frames).map m).take (granted looks n) ∧ refused looks n ≤ cnt ∧
      (frames ≤ granted looks n ∨ refused looks n = cnt ∧ looks n = 0) := by
  induction looks, frames, iptr, cnt using writeLoop.induct with
  | case1 looks iptr cnt =>
    refine ⟨0, ?_, Nat.zero_le _, Or.inl (Nat.zero_le _)⟩
    rw [writeLoop.eq_def, if_pos rfl]
    rfl
  | case2 looks frames iptr cnt hne hspace f ih =>
    obtain ⟨n, hwrites, hle, hend⟩ := ih
    have hf : f ≤ frames := Nat.min_le_right _ _
    have hpos : looks 0 ≠ 0 := by omega
    refine ⟨n + 1, ?_, ?_, ?_⟩
    · rw [writeLoop.eq_def, if_neg hne, if_pos hspace, granted_succ]
      simp only
      rw [hwrites]
      exact (take_grant (by omega) (by omega)).symm
    · rw [refused_succ, if_neg hpos]
      exact hle
    · rw [granted_succ, refused_succ, if_neg hpos]
      rcases hend with hall | hwait
      · exact Or.inl (by omega)
      · exact Or.inr hwait
  | case3 looks frames iptr hne hno =>
    refine ⟨0, ?_, Nat.le_refl 0, Or.inr ⟨rfl, by omega⟩⟩
    rw [writeLoop, if_neg hne, if_neg hno]
    rfl
  | case4 looks frames iptr hne hno cnt ih =>
    obtain ⟨n, hwrites, hle, hend⟩ := ih
    have hzero : looks 0 = 0 := by omega
    refine ⟨n + 1, ?_, ?_, ?_⟩
    · rw [writeLoop, if_neg hne, if_neg hno, granted_succ, hzero, Nat.zero_add]
      exact hwrites
    · rw [refused_succ, if_pos hzero]
      omega
    · rw [granted_succ, refused_succ, if_pos hzero, hzero]
      rcases hend with hall | ⟨hwait, hnone⟩
      · exact Or.inl (by omega)
      · exact Or.inr ⟨by omega, hnone⟩

/-- Nothing is written if there is nothing, or no space for it. -/
theorem writeLoop_eq_nil_iff (m : ℕ → α) (looks : ℕ → ℕ) (frames iptr cnt : ℕ) :
    writeLoop m looks frames iptr cnt = [] ↔ frames = 0 ∨ ∀ i ≤ cnt, looks i = 0 := by
  induction looks, frames, iptr, cnt using writeLoop.induct with
  | case1 looks iptr cnt =>
    rw [writeLoop.eq_def, if_pos rfl]
    exact iff_of_true rfl (Or.inl rfl)
  | case2 looks frames iptr cnt hne hspace f _ =>
    refine iff_of_false ?_ ?_
    · rw [writeLoop.eq_def, if_neg hne, if_pos hspace]
      simp only
      intro h
      have hnil := congrArg List.length (List.append_eq_nil_iff.mp h).1
      rw [List.length_map, List.length_range', List.length_nil] at hnil
      omega
    · rintro (h | h)
      · exact hne h
      · exact absurd (h 0 (Nat.zero_le _)) (by omega)
  | case3 looks frames iptr hne hno =>
    rw [writeLoop, if_neg hne, if_neg hno]
    refine iff_of_true rfl (Or.inr fun i hi => ?_)
    obtain rfl := Nat.le_zero.mp hi
    omega
  | case4 looks frames iptr hne hno cnt ih =>
    rw [writeLoop, if_neg hne, if_neg hno]
    refine ih.trans (or_congr_right ⟨fun h i hi => ?_, fun h i hi => h (i + 1) (by omega)⟩)
    cases i with
    | zero => omega
    | succ i => exact h i (by omega)

end Write

/-! ### One call -/

theorem map_store (m : ℕ → α) (xs : List α) : (List.range' 0 xs.length).map (store m xs) = xs := by
  refine List.ext_getElem (by simp) fun i hi hi' => ?_
  simp [store, hi']

/-- A call writes what it may, exactly if it is fine. -/
theorem writes_iff (p : Process α) (e : Event α) : e.Writes (step p e).2 ↔ e.Fine p := by
  cases e with
  | samples inFrames result looks =>
    cases result with
    | error outbuf =>
      have hwrites : HandsOver looks ([] : List α) (step p (.samples inFrames (.error outbuf) looks)).2 ↔
          writeLoop outbuf looks p.outFrames 0 10 = [] := by
        refine ⟨fun ⟨n, hnil, _⟩ => hnil.trans List.take_nil, fun h => ?_⟩
        exact ⟨0, h, Nat.zero_le _, Or.inl (Nat.zero_le _)⟩
      exact hwrites.trans (writeLoop_eq_nil_iff outbuf looks p.outFrames 0 10)
    | done frames =>
      refine iff_of_true ?_ trivial
      have hloop := writeLoop_writes (store p.outbuf frames) looks frames.length 0 10
      rw [map_store] at hloop
      exact hloop
  | drain looks =>
    refine iff_of_true ?_ trivial
    exact (writeLoop_eq_nil_iff p.outbuf looks 0 0 10).mpr (Or.inl rfl)
  | newstream active fresh => exact iff_of_true rfl trivial
  | flush => exact iff_of_true rfl trivial

/-- Every block is handed over, in exactly the runs in which the resampler fails only where nothing
is left of an earlier block, or where there is no space for it. -/
theorem handed_over_iff (p : Process α) (es : List (Event α)) : HandedOver p es ↔ Fine p es := by
  induction es generalizing p with
  | nil => exact Iff.rfl
  | cons e es ih => exact and_congr (writes_iff p e) (ih (step p e).1)

/-- Two frames are handed over, then a block fails: the two are written once more. -/
theorem written_again : ¬ HandedOver (⟨fun _ => 0, 0, 0, 0, 0⟩ : Process ℕ)
    [.samples 4 (.done [7, 8]) fun _ => 5, .samples 4 (.error fun i => [7, 8].getD i 0) fun _ => 5] := by
  rintro ⟨-, hagain, -⟩
  rcases (writes_iff _ _).mp hagain with hleft | hspace
  · exact absurd hleft (by decide)
  · exact absurd (hspace 0 (Nat.zero_le _)) (by decide)

end Resample

end SqueezeliteMuse
