/-
SqueezeliteMuse/Gapless.lean

The frames that are left out at the start and at the end of a track: alac.c, helix-aac.c, mad.c.

A header sets `skip` and `samples`, the frames to leave out and the frames to keep.  With each
block that is decoded both are counted down: `skip` says where in the block the frames to be
written begin, and `samples` how many there are at most.  A frame is a number here, its place
among all the frames that are decoded; a place behind the end of a block is what lies behind it
in the buffer of the decoder.

The three decoders do the same (`Trim.run`), but for this.  In alac the place in the block is a
number of bytes, made with the size of a sample in bits.  In helix-aac the first block may have no
frames, and the next one counts twice then.  In mad the end of the stream may be found early, and
then the padding is left out there.

Main result: `gapless_iff`: in each of the three the frames written are those to be kept exactly
if `samples` does not run out before the last block, and none of these happens.
-/
import SqueezeliteMuse.Lib.Trim
import SqueezeliteMuse.Codecs

namespace SqueezeliteMuse

open Trim

/-! ### The code -/

namespace Mp4

variable {κ : Type}

/-- `skip`, for a block: it counts for the empty one before. -/
def credit (skip : ℕ) (empty : Bool) (frames : ℕ) : ℕ :=
  if skip ≠ 0 ∧ empty then u32Sub skip frames else skip

/-- The frames left out at the start of a block. -/
def cut (p : Mp4 κ) (frames : ℕ) : ℕ := min frames (credit p.skip p.empty frames)

/-- What a header sets. -/
def gapless (p : Mp4 κ) (skip samples : ℕ) : Mp4 κ :=
  { p with skip := skip, samples := samples, empty := false }

/-- A block of helix-aac: `outputSamps`, and `nChans`. -/
def helixSize (b : ℕ × ℕ) : ℕ := b.1 / b.2

/-- What helix-aac writes of its blocks. -/
def helixWrites (p : Mp4 κ) (pos : ℕ) : List (ℕ × ℕ) → List ℕ
  | [] => []
  | b :: bs =>
      if b.1 = 0 then helixWrites { p with empty := true } pos bs
      else
        List.range' (pos + p.cut (helixSize b)) (p.trim (helixSize b)).2 ++
          helixWrites (p.trim (helixSize b)).1 (pos + helixSize b) bs

end Mp4

/-- The format of alac: its samples have 8, 16, 24 or 32 bits. -/
structure AlacFormat where
  channels : ℕ
  sampleSize : ℕ
  supported : sampleSize ∈ [8, 16, 24, 32]

/-- `skip * l->channels * l->sample_size` bytes, in frames of the buffer, which are of two
samples. -/
def AlacFormat.offset (f : AlacFormat) (skip : ℕ) : ℕ :=
  skip * f.channels * f.sampleSize / (2 * (f.sampleSize / 8))

/-- What alac writes of its blocks. -/
def Mp4.alacWrites {κ : Type} (f : AlacFormat) (p : Mp4 κ) (pos : ℕ) : List ℕ → List ℕ
  | [] => []
  | n :: ns =>
      List.range' (pos + f.offset (p.cut n)) (p.trim n).2 ++
        alacWrites f (p.trim n).1 (pos + n) ns

/-- What mad has for it. -/
structure MadTrim where
  skip : ℕ
  samples : ℕ
  padding : ℕ

/-- A block of mad: the frames it has, and whether the stream is at its end with no sync word
behind it. -/
abbrev MadBlock := ℕ × Bool

namespace MadTrim

/-- `frames`, and `m->samples`, after the skip and the limit. -/
def limit (t : MadTrim) (frames : ℕ) : ℕ :=
  if t.samples ≠ 0 then min (frames - min frames t.skip) t.samples else frames - min frames t.skip

/-- More samples are expected, so we must have skipped: remove padding. -/
def early (t : MadTrim) (b : MadBlock) : Prop :=
  t.samples ≠ 0 ∧ t.samples - t.limit b.1 > 0 ∧ b.2 = true

instance (t : MadTrim) (b : MadBlock) : Decidable (t.early b) :=
  inferInstanceAs (Decidable (_ ∧ _ ∧ _))

/-- The frames of a block that are written. -/
def frames (t : MadTrim) (b : MadBlock) : ℕ :=
  if t.early b then (if t.limit b.1 ≥ t.padding then t.limit b.1 - t.padding else 0)
  else t.limit b.1

/-- What is left for the next. -/
def next (t : MadTrim) (b : MadBlock) : MadTrim :=
  { t with
    skip := t.skip - min b.1 t.skip
    samples := if t.early b then 0 else t.samples - t.limit b.1 }

/-- What mad writes of its blocks. -/
def writes (t : MadTrim) (pos : ℕ) : List MadBlock → List ℕ
  | [] => []
  | b :: bs => List.range' (pos + min b.1 t.skip) (t.frames b) ++ writes (t.next b) (pos + b.1) bs

end MadTrim

/-! ### helix-aac -/

namespace Mp4

variable {κ : Type}

/-- A block is trimmed as in `Trim`. -/
theorem trim_eq (p : Mp4 κ) (n : ℕ) :
    (p.trim n).2 = part (credit p.skip p.empty n) p.samples n ∧
      (p.trim n).1.skip = credit p.skip p.empty n - p.cut n ∧
      (p.trim n).1.samples = p.samples - part (credit p.skip p.empty n) p.samples n ∧
      (p.trim n).1.empty = (if p.skip ≠ 0 then false else p.empty) := by
  unfold trim cut credit part
  by_cases hskip : p.skip = 0
  · by_cases hsamples : p.samples = 0
    · simp [hskip, hsamples]
    · simp [hskip, hsamples]
  · by_cases hsamples : p.samples = 0
    · simp [hskip, hsamples]
    · simp [hskip, hsamples]

/-- The frames that are left out all in all, with the blocks that count twice. -/
def effective : ℕ → Bool → List (ℕ × ℕ) → ℕ
  | skip, _, [] => skip
  | skip, empty, b :: bs =>
      if b.1 = 0 then effective skip true bs
      else
        min (helixSize b) (credit skip empty (helixSize b)) +
          effective (credit skip empty (helixSize b) -
            min (helixSize b) (credit skip empty (helixSize b)))
            (if skip ≠ 0 then false else empty) bs

theorem effective_zero (empty : Bool) (bs : List (ℕ × ℕ)) : effective 0 empty bs = 0 := by
  induction bs generalizing empty with
  | nil => rfl
  | cons b bs ih =>
    unfold effective
    split
    · exact ih true
    · have hcredit : credit 0 empty (helixSize b) = 0 := if_neg (fun h => h.1 rfl)
      rw [hcredit, Nat.min_zero, Nat.zero_sub, ih]

/-- What is left out in a block, and behind it. -/
theorem run_add {n c rest keep pos : ℕ} {ns : List ℕ} (h : c - min n c = 0 → rest = 0) :
    Trim.run (min n c + rest) keep pos (n :: ns) =
      List.range' (pos + min n c) (part c keep n) ++
        Trim.run rest (keep - part c keep n) (pos + n) ns := by
  have hmin : min n (min n c + rest) = min n c := by
    by_cases hle : n ≤ c
    · omega
    · rw [h (by omega)]
      omega
  have hpart : part (min n c + rest) keep n = part c keep n := by rw [part, part, hmin]
  rw [Trim.run, hpart, hmin, Nat.add_sub_cancel_left]

/-- helix-aac is `Trim.run`, with the frames that are left out all in all. -/
theorem helixWrites_eq (p : Mp4 κ) (pos : ℕ) (bs : List (ℕ × ℕ)) :
    helixWrites p pos bs =
      Trim.run (effective p.skip p.empty bs) p.samples pos (bs.map helixSize) := by
  induction bs generalizing p pos with
  | nil => rfl
  | cons b bs ih =>
    unfold helixWrites effective
    rw [List.map_cons]
    by_cases hb : b.1 = 0
    · have hsize : helixSize b = 0 := by rw [helixSize, hb, Nat.zero_div]
      have hpart : part (effective p.skip true bs) p.samples 0 = 0 := by simp [part]
      rw [if_pos hb, if_pos hb, ih, hsize, Trim.run, hpart]
      simp
    · obtain ⟨hlen, hskip, hsamples, hempty⟩ := trim_eq p (helixSize b)
      rw [if_neg hb, if_neg hb, ih, hlen, hskip, hsamples, hempty, run_add]
      · rfl
      · intro hnone
        rw [hnone]
        exact effective_zero _ bs

theorem helix_iff (p : Mp4 κ) (skip samples : ℕ) (bs : List (ℕ × ℕ)) :
    helixWrites (p.gapless skip samples) 0 bs =
        window skip samples (bs.map helixSize).sum ↔
      Exact (effective skip false bs) skip samples (bs.map helixSize) := by
  rw [helixWrites_eq]
  exact run_eq_window_iff _ _ _ _

/-! ### alac -/

/-- The frames to be kept do not begin within a block. -/
def Uncut (skip : ℕ) : ℕ → List ℕ → Prop
  | _, [] => True
  | pos, n :: ns => ¬ (pos < skip ∧ skip < pos + n) ∧ Uncut skip (pos + n) ns

instance Uncut.decidable (skip : ℕ) : ∀ pos ns, Decidable (Uncut skip pos ns)
  | _, [] => .isTrue trivial
  | pos, n :: ns =>
      have := Uncut.decidable skip (pos + n) ns
      inferInstanceAs (Decidable (¬ (pos < skip ∧ skip < pos + n) ∧ Uncut skip (pos + n) ns))

end Mp4

/-- The place in the buffer is too far by as much as a sample has bits more than bytes, for each
of the channels. -/
theorem AlacFormat.offset_eq (f : AlacFormat) (skip : ℕ) : f.offset skip = skip * f.channels * 4 := by
  have hsize := f.supported
  rw [AlacFormat.offset]
  generalize skip * f.channels = c
  simp only [List.mem_cons, List.not_mem_nil, or_false] at hsize
  rcases hsize with h | h | h | h <;> rw [h] <;> omega

theorem AlacFormat.offset_ne (f : AlacFormat) {skip : ℕ} (h : skip ≠ 0) : f.offset skip ≠ skip := by
  rw [f.offset_eq]
  cases hc : f.channels with
  | zero => omega
  | succ c =>
    have hmul : skip * (c + 1) = skip * c + skip := Nat.mul_succ skip c
    omega

namespace Mp4

variable {κ : Type}

theorem uncut_of_le {skip pos : ℕ} (h : skip ≤ pos) (ns : List ℕ) : Uncut skip pos ns := by
  induction ns generalizing pos with
  | nil => trivial
  | cons n ns ih => exact ⟨fun hcut => by omega, ih (by omega)⟩

/-- What is left of the frames to be left out is behind the block. -/
theorem uncut_next {skip pos n : ℕ} {ns : List ℕ} :
    Uncut (pos + n + (skip - min n skip)) (pos + n) ns ↔ Uncut (pos + skip) (pos + n) ns := by
  by_cases hle : n ≤ skip
  · have hsame : pos + n + (skip - min n skip) = pos + skip := by omega
    rw [hsame]
  · exact ⟨fun _ => uncut_of_le (by omega) ns, fun _ => uncut_of_le (by omega) ns⟩

/-- A block of alac: what is written of it, and what is left. -/
theorem alacWrites_cons (f : AlacFormat) (p : Mp4 κ) (pos n : ℕ) (ns : List ℕ)
    (hempty : p.empty = false) :
    alacWrites f p pos (n :: ns) =
        List.range' (pos + f.offset (min n p.skip)) (part p.skip p.samples n) ++
          alacWrites f (p.trim n).1 (pos + n) ns ∧
      (p.trim n).1.skip = p.skip - min n p.skip ∧
      (p.trim n).1.samples = p.samples - part p.skip p.samples n ∧
      (p.trim n).1.empty = false := by
  obtain ⟨hlen, hskip, hsamples, hnext⟩ := trim_eq p n
  have hcredit : credit p.skip p.empty n = p.skip :=
    if_neg (fun hboth => by simp [hempty] at hboth)
  have hcut : p.cut n = min n p.skip := by rw [cut, hcredit]
  rw [hcredit] at hlen hsamples
  rw [hcredit, hcut] at hskip
  rw [hempty, ite_self] at hnext
  exact ⟨by rw [alacWrites, hlen, hcut], hskip, hsamples, hnext⟩

/-- A block that is left out. -/
theorem part_of_le {skip keep n : ℕ} (h : n ≤ skip) : part skip keep n = 0 := by
  rw [part, Nat.min_eq_left h, Nat.sub_self, Nat.zero_min, ite_self]

/-- Where no block is cut, alac is `Trim.run`. -/
theorem alacWrites_eq (f : AlacFormat) (p : Mp4 κ) (pos : ℕ) (ns : List ℕ)
    (hempty : p.empty = false) (h : Uncut (pos + p.skip) pos ns) :
    alacWrites f p pos ns = Trim.run p.skip p.samples pos ns := by
  induction ns generalizing p pos with
  | nil => rfl
  | cons n ns ih =>
    obtain ⟨hcut, hrest⟩ := h
    obtain ⟨hwrites, hskip, hsamples, hnext⟩ := alacWrites_cons f p pos n ns hempty
    rw [hwrites, Trim.run, ih (p.trim n).1 (pos + n) hnext (by rwa [hskip, uncut_next]), hskip,
      hsamples]
    congr 1
    by_cases hle : n ≤ p.skip
    · rw [part_of_le hle]
      rfl
    · have hzero : p.skip = 0 := by omega
      rw [hzero, Nat.min_zero, f.offset_eq, Nat.zero_mul, Nat.zero_mul]

/-- Where one is cut, what is written begins at the wrong place. -/
theorem alacWrites_head (f : AlacFormat) (p : Mp4 κ) (pos : ℕ) (ns : List ℕ)
    (hempty : p.empty = false) (h : ¬ Uncut (pos + p.skip) pos ns) :
    ∃ first, (alacWrites f p pos ns).head? = some first ∧ first ≠ pos + p.skip := by
  induction ns generalizing p pos with
  | nil => exact absurd trivial h
  | cons n ns ih =>
    obtain ⟨hwrites, hskip, -, hnext⟩ := alacWrites_cons f p pos n ns hempty
    rw [hwrites]
    by_cases hcut : pos < pos + p.skip ∧ pos + p.skip < pos + n
    · have hmin : min n p.skip = p.skip := by omega
      have hsome : part p.skip p.samples n ≠ 0 := by
        rw [part, hmin]
        split
        · omega
        · omega
      have hne := f.offset_ne (show p.skip ≠ 0 by omega)
      refine ⟨pos + f.offset p.skip, ?_, by omega⟩
      rw [hmin, List.head?_append, head?_range'_pos hsome]
      rfl
    · have hrest : ¬ Uncut (pos + p.skip) (pos + n) ns := fun hun => h ⟨hcut, hun⟩
      have hle : n ≤ p.skip := by
        by_contra hlt
        exact hrest (uncut_of_le (by omega) ns)
      obtain ⟨first, hhead, hne⟩ := ih (p.trim n).1 (pos + n) hnext
        (by rwa [hskip, uncut_next])
      refine ⟨first, ?_, by omega⟩
      rw [part_of_le hle, List.range'_zero, List.nil_append]
      exact hhead

theorem alac_iff (f : AlacFormat) (p : Mp4 κ) (skip samples : ℕ) (ns : List ℕ) :
    alacWrites f (p.gapless skip samples) 0 ns = window skip samples ns.sum ↔
      Exact skip skip samples ns ∧ Uncut skip 0 ns := by
  have hzero : 0 + (p.gapless skip samples).skip = skip := Nat.zero_add _
  by_cases huncut : Uncut skip 0 ns
  · rw [alacWrites_eq f (p.gapless skip samples) 0 ns rfl (by rwa [hzero])]
    refine (run_eq_window_iff _ _ _ _).trans ?_
    exact ⟨fun h => ⟨h, huncut⟩, fun h => h.1⟩
  · constructor
    · intro h
      obtain ⟨first, hhead, hne⟩ := alacWrites_head f (p.gapless skip samples) 0 ns rfl
        (by rwa [hzero])
      rw [hzero] at hne
      rw [h, window, List.head?_range'] at hhead
      split at hhead
      · cases hhead
      · exact absurd (Option.some.inj hhead).symm hne
    · exact fun h => absurd h.2 huncut

end Mp4

/-! ### mad -/

namespace MadTrim

/-- The frames of the blocks. -/
def sizes (bs : List MadBlock) : List ℕ := bs.map Prod.fst

/-- Where the end of the stream is found before the last frame to be kept, nothing is left out
there, and there is no more behind it than is to be kept. -/
def EndsWell (skip keep padding : ℕ) : ℕ → List MadBlock → Prop
  | _, [] => True
  | pos, b :: bs =>
      if b.2 = true ∧ pos + b.1 < skip + keep then
        (padding = 0 ∨ b.1 = 0 ∨ pos + b.1 ≤ skip) ∧ pos + b.1 + (sizes bs).sum ≤ skip + keep
      else EndsWell skip keep padding (pos + b.1) bs

/-- With no limit the end does not matter. -/
theorem writes_zero (t : MadTrim) (pos : ℕ) (bs : List MadBlock) (h : t.samples = 0) :
    t.writes pos bs = Trim.run t.skip 0 pos (sizes bs) := by
  induction bs generalizing t pos with
  | nil => rfl
  | cons b bs ih =>
    have hnot : ¬ t.early b := fun hearly => hearly.1 h
    have hlimit : t.limit b.1 = part t.skip 0 b.1 := by rw [limit, h, part]
    have hnext : (t.next b).samples = 0 := by
      rw [next, if_neg hnot, h, Nat.zero_sub]
    show _ ++ (t.next b).writes _ _ = List.range' _ _ ++ Trim.run _ _ _ (sizes bs)
    rw [ih _ _ hnext, frames, if_neg hnot, hlimit, Nat.zero_sub]
    rfl

/-- Nothing is left to be kept behind the limit. -/
theorem endsWell_of_le {skip keep padding pos : ℕ} (h : skip + keep ≤ pos) (bs : List MadBlock) :
    EndsWell skip keep padding pos bs := by
  induction bs generalizing pos with
  | nil => trivial
  | cons b bs ih =>
    rw [EndsWell, if_neg (by omega)]
    exact ih (by omega)

/-- Ranges with the same start are told apart by their length. -/
theorem range'_eq_iff {s m n : ℕ} : List.range' s m = List.range' s n ↔ m = n := by
  constructor
  · intro h
    have hlen := congrArg List.length h
    rwa [List.length_range', List.length_range'] at hlen
  · exact fun h => by rw [h]

/-- A block with which the stream ends early. -/
theorem padded_iff {n r k pos padding : ℕ} {ns : List ℕ} (h : n - min n r < k) :
    List.range' (pos + min n r) (n - min n r - padding) ++
        Trim.run (r - min n r) 0 (pos + n) ns =
      List.range' (pos + r) (min k (n + ns.sum - r)) ↔
    (padding = 0 ∨ n ≤ r) ∧ n + ns.sum ≤ r + k := by
  rw [run_zero]
  by_cases hle : n ≤ r
  · -- nothing of it is written
    have hstart : pos + n + (r - n) = pos + r := by omega
    rw [Nat.min_eq_left hle, Nat.sub_self, Nat.zero_sub, List.range'_zero, List.nil_append, hstart,
      range'_eq_iff]
    omega
  · rw [Nat.min_eq_right (Nat.le_of_not_le hle)] at h ⊢
    rw [Nat.sub_self, Nat.add_zero, Nat.sub_zero]
    have hnext : pos + n = pos + r + (n - r) := by omega
    by_cases hpad : padding = 0
    · rw [hpad, Nat.sub_zero, hnext, List.range'_append_1, range'_eq_iff]
      omega
    · constructor
      · intro heq
        have hsplit : min k (n + ns.sum - r) =
            n - r - padding + (min k (n + ns.sum - r) - (n - r - padding)) := by omega
        rw [hsplit, ← List.range'_append_1, List.append_cancel_left_eq] at heq
        have hhead := congrArg List.head? heq
        rw [head?_range'_pos (s := pos + r + (n - r - padding)) (by omega), List.head?_range'] at hhead
        split at hhead
        · cases hhead
        · have hsame := Option.some.inj hhead
          omega
      · rintro ⟨hzero | hzero, -⟩
        · exact absurd hzero hpad
        · exact absurd hzero hle

/-- Where the limit is reached in a block, it is `Trim.run` from there. -/
theorem writes_limit {t : MadTrim} {pos : ℕ} {b : MadBlock} {bs : List MadBlock}
    (hsamples : t.samples ≠ 0) (h : t.samples ≤ b.1 - min b.1 t.skip) :
    t.writes pos (b :: bs) = Trim.run t.skip t.samples pos (b.1 :: sizes bs) := by
  have hlimit : t.limit b.1 = t.samples := by
    rw [limit, if_pos hsamples, Nat.min_eq_right h]
  have hpart : part t.skip t.samples b.1 = t.samples := by
    rw [part, if_pos hsamples, Nat.min_eq_right h]
  have hnot : ¬ t.early b := by
    rw [early, hlimit, Nat.sub_self]
    exact fun hearly => absurd hearly.2.1 (Nat.lt_irrefl 0)
  have hnext : (t.next b).samples = 0 := by rw [next, if_neg hnot, hlimit, Nat.sub_self]
  rw [writes, writes_zero _ _ _ hnext, frames, if_neg hnot, hlimit, Trim.run, hpart, Nat.sub_self]
  rfl

/-- From any block on. -/
theorem writes_iff {skip keep : ℕ} (bs : List MadBlock) : ∀ {t : MadTrim} {pos : ℕ},
    t.samples ≠ 0 → t.skip = skip - pos → pos + t.skip + t.samples = skip + keep →
    (t.writes pos bs =
        List.range' (pos + t.skip) (min t.samples ((sizes bs).sum - t.skip)) ↔
      Before (skip + keep) pos (sizes bs) ∧ EndsWell skip keep t.padding pos bs) := by
  induction bs with
  | nil =>
    intro t pos _ _ _
    show [] = List.range' _ (min _ (0 - _)) ↔ True ∧ True
    rw [Nat.zero_sub, Nat.min_zero]
    exact ⟨fun _ => ⟨trivial, trivial⟩, fun _ => rfl⟩
  | cons b bs ih =>
    intro t pos hsamples hskip hbound
    have hsum : (sizes (b :: bs)).sum = b.1 + (sizes bs).sum := List.sum_cons ..
    have hbefore : Before (skip + keep) pos (sizes (b :: bs)) ↔
        Before (skip + keep) (pos + b.1) (sizes bs) :=
      ⟨fun h => h.2, fun h => ⟨fun _ => by omega, h⟩⟩
    by_cases hend : t.samples ≤ b.1 - min b.1 t.skip
    · rw [writes_limit hsamples hend, run_eq hsamples]
      show _ ++ _ = List.range' _ (min _ ((b.1 :: sizes bs).sum - _)) ↔ _
      rw [List.append_right_eq_self, late_eq_nil_iff, hbound]
      have hends : EndsWell skip keep t.padding pos (b :: bs) := by
        rw [EndsWell, if_neg (by omega)]
        exact endsWell_of_le (by omega) bs
      exact ⟨fun h => ⟨h, hends⟩, fun h => h.1⟩
    -- the limit is not reached in the block
    have hlimit : t.limit b.1 = b.1 - min b.1 t.skip := by
      rw [limit, if_pos hsamples, Nat.min_eq_left (Nat.le_of_not_le hend)]
    rw [hsum, hbefore, EndsWell]
    by_cases hearly : b.2 = true
    · have hyes : t.early b := ⟨hsamples, by omega, hearly⟩
      have hwritten : t.writes pos (b :: bs) =
          List.range' (pos + min b.1 t.skip) (b.1 - min b.1 t.skip - t.padding) ++
            Trim.run (t.skip - min b.1 t.skip) 0 (pos + b.1) (sizes bs) := by
        have hcut : t.frames b = b.1 - min b.1 t.skip - t.padding := by
          rw [frames, if_pos hyes, hlimit]
          split <;> omega
        rw [writes, hcut, writes_zero _ _ _ (if_pos hyes)]
        rfl
      rw [hwritten, padded_iff (Nat.lt_of_not_le hend), if_pos ⟨hearly, by omega⟩]
      constructor
      · rintro ⟨hpad, hle⟩
        exact ⟨before_of_le (by omega), by omega, by omega⟩
      · rintro ⟨-, hpad, hle⟩
        exact ⟨by omega, by omega⟩
    · have hnot : ¬ t.early b := fun hyes => hearly hyes.2.2
      have hnext : (t.next b).samples = t.samples - (b.1 - min b.1 t.skip) := by
        rw [next, if_neg hnot, hlimit]
      have hskipped : (t.next b).skip = skip - (pos + b.1) := by
        show t.skip - min b.1 t.skip = _
        omega
      have hbound' : pos + b.1 + (t.next b).skip + (t.next b).samples = skip + keep := by
        rw [hnext]
        show pos + b.1 + (t.skip - min b.1 t.skip) + _ = _
        omega
      have hrest := ih (by omega) hskipped hbound'
      rw [if_neg (fun h => hearly h.1), writes, frames, if_neg hnot, hlimit,
        window_cons (Nat.lt_of_not_le hend), List.append_cancel_left_eq, ← hnext]
      exact hrest

theorem mad_iff (skip samples padding : ℕ) (bs : List MadBlock) :
    MadTrim.writes ⟨skip, samples, padding⟩ 0 bs = window skip samples (sizes bs).sum ↔
      Exact skip skip samples (sizes bs) ∧
        (samples ≠ 0 → EndsWell skip samples padding 0 bs) := by
  by_cases hsamples : samples = 0
  · rw [writes_zero _ _ _ hsamples, hsamples]
    refine (run_eq_window_iff _ _ _ _).trans ?_
    exact ⟨fun h => ⟨h, fun hne => absurd rfl hne⟩, fun h => h.1⟩
  · have hbound : 0 + (MadTrim.mk skip samples padding).skip + samples = skip + samples := by
      show 0 + skip + samples = _
      omega
    have hall := @writes_iff skip samples bs ⟨skip, samples, padding⟩ 0 hsamples rfl hbound
    have hexact : Exact skip skip samples (sizes bs) ↔
        Before (skip + samples) 0 (sizes bs) := by
      rw [Exact, if_neg hsamples]
      constructor
      · rintro (⟨hle, -⟩ | ⟨-, hbefore⟩)
        · exact before_of_le (by omega)
        · exact hbefore
      · exact fun h => Or.inr ⟨rfl, h⟩
    rw [hexact]
    refine Iff.trans ?_ (hall.trans ⟨fun h => ⟨h.1, fun _ => h.2⟩, fun h => ⟨h.1, h.2 hsamples⟩⟩)
    rw [window, Nat.zero_add]

end MadTrim

/-! ### All three -/

/-- In alac, helix-aac and mad the frames written are those to be kept, however they are split
into blocks, exactly if no block begins where all is kept already (with `samples` 0: if all is
left out), and: in alac no block is cut, in helix-aac what an empty block takes off does not
matter, in mad an early end of the stream does not. -/
theorem gapless_iff {κ : Type} (f : AlacFormat) (p : Mp4 κ) (skip samples padding : ℕ) (ns : List ℕ)
    (aac : List (ℕ × ℕ)) (bs : List MadBlock) :
    (Mp4.alacWrites f (p.gapless skip samples) 0 ns = window skip samples ns.sum ↔
        Exact skip skip samples ns ∧ Mp4.Uncut skip 0 ns) ∧
      (Mp4.helixWrites (p.gapless skip samples) 0 aac =
          window skip samples (aac.map Mp4.helixSize).sum ↔
        Exact (Mp4.effective skip false aac) skip samples (aac.map Mp4.helixSize)) ∧
      (MadTrim.writes ⟨skip, samples, padding⟩ 0 bs =
          window skip samples (MadTrim.sizes bs).sum ↔
        Exact skip skip samples (MadTrim.sizes bs) ∧
          (samples ≠ 0 → MadTrim.EndsWell skip samples padding 0 bs)) :=
  ⟨Mp4.alac_iff f p skip samples ns, Mp4.helix_iff p skip samples aac,
    MadTrim.mad_iff skip samples padding bs⟩

/-- Three blocks of 1152 frames, where the frames to be kept end with the second: mad writes the
third too. -/
theorem gapless_lifted :
    MadTrim.writes ⟨1681, 623, 0⟩ 0 [(1152, false), (1152, false), (1152, false)] ≠
      window 1681 623 3456 := by
  intro h
  have hlen := congrArg List.length h
  revert hlen
  decide +kernel

end SqueezeliteMuse
