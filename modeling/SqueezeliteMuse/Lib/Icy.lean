/-
SqueezeliteMuse/Lib/Icy.lean

Streams with metadata blocks between runs of audio.

With interval `n > 0` a stream is made of segments: `n` bytes of audio, a byte
`c`, and `16 * c` bytes of metadata.  With interval 0 it is all audio.  `scan`
reads such a stream from any place in a segment and returns the place it ends
at and the audio it went over.

Main results: `scan_append` (a stream can be read in parts), and `scan_segments`
(what is read from whole segments is their runs of audio).
-/
import Mathlib.Algebra.Order.Ring.Int
import Mathlib.Data.List.Basic
import Mathlib.Tactic.Common

namespace Icy

/-- A place in a segment: `next` bytes of audio to come before the length byte;
if none, `left` bytes of a metadata block that has begun. -/
structure Place where
  next : ℕ
  left : ℕ
  deriving DecidableEq, Repr

/-- The place at the head of a segment. -/
def Place.head (n : ℕ) : Place := ⟨n, 0⟩

/-- Read one byte; return the audio in it. -/
def step (n : ℕ) (p : Place) (b : UInt8) : Place × List UInt8 :=
  if n = 0 then (p, [b])
  else if 0 < p.next then (⟨p.next - 1, p.left⟩, [b])
  else
    let left := if p.left = 0 then 16 * b.toNat else p.left - 1
    (if left = 0 then .head n else ⟨0, left⟩, [])

/-- Read a list of bytes. -/
def scan (n : ℕ) : Place → List UInt8 → Place × List UInt8
  | p, [] => (p, [])
  | p, b :: bs =>
      let (p', out) := step n p b
      let (p'', out') := scan n p' bs
      (p'', out ++ out')

attribute [local simp] scan

/-- The audio in a stream that begins at the head of a segment. -/
def audio (n : ℕ) (bs : List UInt8) : List UInt8 := (scan n (.head n) bs).2

variable {n : ℕ}

@[simp] theorem scan_nil (p : Place) : scan n p [] = (p, []) := rfl

theorem scan_append (p : Place) (bs bs' : List UInt8) :
    scan n p (bs ++ bs') =
      ((scan n (scan n p bs).1 bs').1, (scan n p bs).2 ++ (scan n (scan n p bs).1 bs').2) := by
  induction bs generalizing p with
  | nil => rfl
  | cons b bs ih => simp only [List.cons_append, scan, ih, List.append_assoc]

/-- Without an interval everything is audio. -/
theorem scan_zero (p : Place) (bs : List UInt8) : scan 0 p bs = (p, bs) := by
  induction bs with
  | nil => rfl
  | cons b bs ih => simp [scan, step, ih]

/-- Bytes of a run are audio. -/
theorem scan_run (hn : n ≠ 0) (next left : ℕ) {bs : List UInt8} (h : bs.length ≤ next) :
    scan n ⟨next, left⟩ bs = (⟨next - bs.length, left⟩, bs) := by
  induction bs generalizing next with
  | nil => rfl
  | cons b bs ih =>
      simp only [List.length_cons] at h ⊢
      have hpos : 0 < next := by omega
      have hsub : next - 1 - bs.length = next - (bs.length + 1) := by omega
      simp [scan, step, hn, hpos, ih (next - 1) (by omega), hsub]

/-- The byte after a run is the length of a block. -/
theorem scan_length (hn : n ≠ 0) (c : UInt8) :
    scan n ⟨0, 0⟩ [c] =
      (if 16 * c.toNat = 0 then .head n else ⟨0, 16 * c.toNat⟩, []) := by
  simp [scan, step, hn]

/-- Bytes of a block are no audio. -/
theorem scan_block (hn : n ≠ 0) (left : ℕ) {bs : List UInt8} (hbs : bs ≠ [])
    (h : bs.length ≤ left) :
    scan n ⟨0, left⟩ bs =
      (if left - bs.length = 0 then .head n else ⟨0, left - bs.length⟩, []) := by
  induction bs generalizing left with
  | nil => exact absurd rfl hbs
  | cons b bs ih =>
      simp only [List.length_cons] at h ⊢
      have hpos : left ≠ 0 := by omega
      by_cases hnil : bs = []
      · subst hnil
        simp [scan, step, hn, hpos]
      · have hlen := List.length_pos_of_ne_nil hnil
        have hleft : left - 1 ≠ 0 := by omega
        have hsub : left - 1 - bs.length = left - (bs.length + 1) := by omega
        simp [scan, step, hn, hpos, hleft, ih (left - 1) hnil (by omega), hsub]

/-- The audio grows with the stream. -/
theorem audio_append (bs bs' : List UInt8) : audio n bs <+: audio n (bs ++ bs') := by
  rw [audio, audio, scan_append]
  exact List.prefix_append ..

/-- A run of `n` bytes, a length byte and a block of that length. -/
structure Segment (n : ℕ) where
  run : List UInt8
  size : UInt8
  info : List UInt8
  run_length : run.length = n
  info_length : info.length = 16 * size.toNat

/-- A segment on the line. -/
def Segment.bytes (s : Segment n) : List UInt8 := s.run ++ s.size :: s.info

theorem scan_segment (hn : n ≠ 0) (s : Segment n) :
    scan n (.head n) s.bytes = (.head n, s.run) := by
  have hsplit : s.bytes = s.run ++ ([s.size] ++ s.info) := rfl
  have hrun : scan n (.head n) s.run = (⟨0, 0⟩, s.run) := by
    have h := scan_run hn n 0 (Nat.le_of_eq s.run_length)
    rwa [s.run_length, Nat.sub_self] at h
  rw [hsplit, scan_append, hrun, scan_append, scan_length hn]
  by_cases hempty : 16 * s.size.toNat = 0
  · have hinfo : s.info = [] := by
      apply List.length_eq_zero_iff.mp
      rw [s.info_length, hempty]
    simp [hempty, hinfo]
  · have hinfo : s.info ≠ [] := by
      intro h
      have hlen := s.info_length
      rw [h, List.length_nil] at hlen
      exact hempty hlen.symm
    have hblock := scan_block hn _ hinfo (Nat.le_of_eq s.info_length)
    rw [s.info_length, Nat.sub_self] at hblock
    simp [hempty, hblock]

/-- What is read from segments, and a last run that may be cut short, is their audio. -/
theorem audio_segments (hn : n ≠ 0) (segs : List (Segment n)) {last : List UInt8}
    (hlast : last.length ≤ n) :
    audio n (segs.flatMap Segment.bytes ++ last) = segs.flatMap Segment.run ++ last := by
  have hsegs : scan n (.head n) (segs.flatMap Segment.bytes) =
      (.head n, segs.flatMap Segment.run) := by
    induction segs with
    | nil => rfl
    | cons s segs ih =>
        rw [List.flatMap_cons, List.flatMap_cons, scan_append, scan_segment hn s, ih]
  rw [audio, scan_append, hsegs, Place.head, scan_run hn _ _ hlast]

theorem audio_zero (bs : List UInt8) : audio 0 bs = bs := by
  rw [audio, scan_zero]

end Icy
