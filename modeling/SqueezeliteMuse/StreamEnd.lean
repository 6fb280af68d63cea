/-
SqueezeliteMuse/StreamEnd.lean

Decoding comes to an end when the stream has ended.

No more bytes arrive, so what is left in `streambuf` is all there is.  A call of a
decode function that returns `DECODE_RUNNING` is to have taken something down: the
bytes that are left, or else what is not in one piece, the skip that is pending, the
header that is not parsed yet (`Codec.left`).

Some calls do not.  They leave the codec as it is, or do not return, and so will all
that follow.  `Codec.clear` is the condition that the next call is not one of them:
a header that is cut off, a box of length 0, a block or a skip of alac that is not
all there, a rest of pcm that is less than a frame.

Main result: `stream_end_reached`, with `header_cut_off` for an alac stream that ends
in its first box.
-/
import SqueezeliteMuse.Codecs

namespace SqueezeliteMuse

variable {κ : Type} {c : Mp4Codec κ} {b b' : Buffer} {p p' : Mp4 κ} {n bytes : ℕ}

/-! ### Bytes left -/

/-- What is left to take of a buffer: its bytes first, then what is not in one piece. -/
def Buffer.left (b : Buffer) : ℕ := bufUsed b * (b.size + 3) + (bufUsed b - bufContRead b)

/-- A buffer is got on with: bytes are taken, or more of them are in one piece. -/
structure Shrinks (b b' : Buffer) : Prop where
  wf : b'.Wf
  size : b'.size = b.size
  less : bufUsed b' < bufUsed b ∨
    (bufUsed b' = bufUsed b ∧ bufContRead b < bufContRead b')

/-- No more than it was is left. -/
structure Keeps (b b' : Buffer) : Prop where
  wf : b'.Wf
  size : b'.size = b.size
  used : bufUsed b' ≤ bufUsed b

namespace Shrinks

/-- What is left goes down by one, or by more than all that does not count as bytes. -/
theorem left_lt (h : Shrinks b b') (hb : b.Wf) :
    b'.left < b.left ∧ (bufUsed b' < bufUsed b → b'.left + 3 ≤ b.left) := by
  have hused := hb.used_lt
  have hcont := h.wf.contRead_le_used
  have hused' := h.wf.used_lt
  rw [h.size] at hused'
  unfold Buffer.left
  rw [h.size]
  have hbytes : bufUsed b' < bufUsed b →
      bufUsed b' * (b.size + 3) + (b.size + 3) ≤ bufUsed b * (b.size + 3) := by
    intro hlt
    rw [← Nat.succ_mul]
    exact Nat.mul_le_mul_right _ hlt
  constructor
  · rcases h.less with hlt | ⟨heq, hlt⟩
    · have hle := hbytes hlt
      omega
    · rw [heq] at hcont ⊢
      omega
  · intro hlt
    have hle := hbytes hlt
    omega

end Shrinks

/-- Bytes that are there are taken. -/
theorem keeps_bufIncReadp (h : b.Wf) (hn : n ≤ bufUsed b) : Keeps b (bufIncReadp b n) where
  wf := wf_bufIncReadp h (Nat.le_trans hn (Nat.le_of_lt h.used_lt))
  size := rfl
  used := by
    rw [used_bufIncReadp h hn]
    exact Nat.sub_le _ _

theorem shrinks_bufIncReadp (h : b.Wf) (hpos : 0 < n) (hn : n ≤ bufUsed b) :
    Shrinks b (bufIncReadp b n) where
  wf := wf_bufIncReadp h (Nat.le_trans hn (Nat.le_of_lt h.used_lt))
  size := rfl
  less := by
    refine .inl ?_
    rw [used_bufIncReadp h hn]
    omega

/-- Bytes that are in one piece and stay are still in one piece. -/
theorem contRead_bufIncReadp (h : b.Wf) :
    bufContRead b - n ≤ bufContRead (bufIncReadp b n) := by
  obtain ⟨_, _, _, _, _, _, _⟩ := h
  unfold bufContRead
  simp only [bufIncReadp]
  by_cases hw : b.readp + n ≥ b.wrap
  · simp only [if_pos hw]
    split <;> split <;> omega
  · simp only [if_neg hw]
    split <;> split <;> omega

/-! ### The header of an MP4 stream -/

/-- The box at `readp` is waited for, and is not all there. -/
def waitsFor (c : Mp4Codec κ) (bytes : ℕ) (b : Buffer) : Bool :=
  decide (bytes < boxConsume (boxOf b.peek) (unpackN b.peek 0)) && decide (boxOf b.peek ∈ c.waits) &&
    decide (unpackN b.peek 0 ≤ b.size)

/-- What `_buf_unwrap` leaves where the box at `readp` is waited for. -/
def unwrapped (c : Mp4Codec κ) (b : Buffer) : Buffer :=
  bufUnwrap c.malloc (unpackN b.peek 0) b (unpackN b.peek 0)

/-- A buffer has kept its bytes, all of them in their place. -/
def unwrapKeeps (c : Mp4Codec κ) (b : Buffer) : Prop :=
  (unwrapped c b).Wf ∧ (unwrapped c b).size = b.size ∧ bufUsed (unwrapped c b) = bufUsed b

/-- The rounds of a header come to an end: no box has the length 0, and what is wrapped is kept
when it is unwrapped.  `ready` is what there is to be with the media data. -/
def headerEnds (c : Mp4Codec κ) (ready : Mp4 κ → Prop) : ℕ → ℕ → Buffer → Mp4 κ → Prop
  | 0, _, _, _ => False
  | fuel + 1, bytes, b, p =>
      bytes < 8 ∨
        match boxStep c bytes b p with
        | .done found _ p' =>
            (found = .media → ready p') ∧
              (found = .more → waitsFor c bytes b = true → unwrapKeeps c b)
        | .next bytes' b' p' =>
            0 < boxConsume (boxOf b.peek) (unpackN b.peek 0) ∧ headerEnds c ready fuel bytes' b' p'

/-- The header gets on: there is a box, and if it is waited for, more of it is in one piece once
it is unwrapped. -/
def headerClear (c : Mp4Codec κ) (ready : Mp4 κ → Prop) (b : Buffer) (p : Mp4 κ) : Prop :=
  8 ≤ bufContRead b ∧
    (waitsFor c (bufContRead b) b = true → bufContRead b < bufContRead (unwrapped c b)) ∧
    headerEnds c ready (bufContRead b + 1) (bufContRead b) b p

/-- Where in the stream a parser is, and what it is to pass. -/
def Mp4.spot (p : Mp4 κ) : ℕ × ℕ := (p.pos, p.consume)

/-- What is left alone by a box that is kept. -/
theorem count_spot (p : Mp4 κ) (box : Box) : (p.count box).spot = p.spot := by
  cases box <;> rfl

theorem count_consume (p : Mp4 κ) (box : Box) : (p.count box).consume = p.consume :=
  congrArg Prod.snd (count_spot p box)

theorem parseGapless_spot (m : ℕ → UInt8) (n len : ℕ) (p : Mp4 κ) :
    (parseGapless m n len p).spot = p.spot := by
  unfold parseGapless
  split <;> rfl

theorem parseBox_spot {m : ℕ → UInt8} {n len : ℕ}
    (h : parseBox c m n len p = some p') : p'.spot = p.spot := by
  unfold parseBox at h
  split at h
  · obtain ⟨codec, -, rfl⟩ := Option.map_eq_some_iff.mp h
    rfl
  · split at h
    · split at h
      · cases h; rfl
      · cases h; rfl
    · cases h; rfl
    · split at h
      · cases h; rfl
      · split at h
        · cases h; rfl
        · cases h
    · split at h
      · cases h; rfl
      · split at h
        · cases h; rfl
        · cases h
    · cases h
      exact parseGapless_spot _ _ _ _
    · cases h; rfl

theorem parseBox_consume {m : ℕ → UInt8} {n len : ℕ}
    (h : parseBox c m n len p = some p') : p'.consume = p.consume :=
  congrArg Prod.snd (parseBox_spot h)

/-- Keeping on taking. -/
theorem Keeps.trans {b₁ b₂ b₃ : Buffer} (h : Keeps b₁ b₂) (h' : Keeps b₂ b₃) : Keeps b₁ b₃ :=
  ⟨h'.wf, h'.size.trans h.size, Nat.le_trans h'.used h.used⟩

/-- What a round leaves that is the last one. -/
inductive RoundDone (c : Mp4Codec κ) (bytes : ℕ) (b : Buffer) (p : Mp4 κ) :
    Found → Buffer → Mp4 κ → Prop
  | failed {b₁ : Buffer} {p₁ : Mp4 κ} : RoundDone c bytes b p .failed b₁ p₁
  | taken {found : Found} {b₁ : Buffer} {p₁ : Mp4 κ} :
      Keeps b b₁ → bufUsed b₁ < bufUsed b → RoundDone c bytes b p found b₁ p₁
  | waits {p₁ : Mp4 κ} : waitsFor c bytes b = true → p₁.consume = p.consume →
      RoundDone c bytes b p .more (unwrapped c b) p₁

/-- Media data are found, and the box before them taken. -/
theorem mediaStep_done {found : Found} (h : b.Wf) (hle : bytes ≤ bufContRead b) (h8 : 8 ≤ bytes)
    (hstep : mediaStep c bytes b p = .done found b' p') : RoundDone c bytes b p found b' p' := by
  have hused := h.contRead_le_used
  have height : Keeps b (bufIncReadp b 8) := keeps_bufIncReadp h (by omega)
  have hless : bufUsed (bufIncReadp b 8) = bufUsed b - 8 := used_bufIncReadp h (by omega)
  unfold mediaStep at hstep
  dsimp only at hstep
  split at hstep
  · cases hstep
    exact .failed
  · split at hstep
    · rename_i hskip
      cases hstep
      have hroom : bytes - 8 ≤ bufUsed (bufIncReadp b 8) := by omega
      have htaken := keeps_bufIncReadp height.wf (Nat.le_trans hskip hroom)
      refine .taken (height.trans htaken) (Nat.lt_of_le_of_lt htaken.used ?_)
      rw [hless]
      omega
    · cases hstep
      refine .taken height ?_
      rw [hless]
      omega

theorem mediaStep_ne_next {bytes' : ℕ} : mediaStep c bytes b p ≠ .next bytes' b' p' := by
  unfold mediaStep
  dsimp only
  split
  · exact fun h => (nomatch h)
  · split <;> exact fun h => (nomatch h)

theorem mediaStep_ne_more : mediaStep c bytes b p ≠ .done .more b' p' := by
  unfold mediaStep
  dsimp only
  split
  · exact fun h => (nomatch h)
  · split <;> exact fun h => (nomatch h)

theorem passBox_done {found : Found} (h : b.Wf) (hle : bytes ≤ bufContRead b) (h8 : 8 ≤ bytes)
    (hstep : passBox c bytes b p (boxOf b.peek) (unpackN b.peek 0) = .done found b' p') :
    RoundDone c bytes b p found b' p' := by
  have hused := h.contRead_le_used
  unfold passBox at hstep
  split at hstep
  · cases hstep
  rename_i hmore
  split at hstep
  · -- the rest of the box is to be skipped
    cases hstep
    refine .taken (keeps_bufIncReadp h (by omega)) ?_
    rw [used_bufIncReadp h (by omega)]
    omega
  rename_i hwait
  split at hstep
  · cases hstep
    exact .failed
  · rename_i hfits
    cases hstep
    refine .waits ?_ rfl
    simp only [waitsFor, Bool.and_eq_true, decide_eq_true_eq]
    exact ⟨⟨by omega, not_not.mp hwait⟩, by omega⟩

/-- What a round leaves after which another one follows. -/
theorem passBox_next {bytes' : ℕ} (h : b.Wf) (hle : bytes ≤ bufContRead b)
    (hstep : passBox c bytes b p (boxOf b.peek) (unpackN b.peek 0) = .next bytes' b' p') :
    Keeps b b' ∧ bytes' ≤ bufContRead b' ∧
      (0 < boxConsume (boxOf b.peek) (unpackN b.peek 0) → bufUsed b' < bufUsed b) := by
  have hused := h.contRead_le_used
  unfold passBox at hstep
  split at hstep
  swap
  · split at hstep
    · cases hstep
    · split at hstep <;> cases hstep
  rename_i hall
  cases hstep
  refine ⟨keeps_bufIncReadp h (by omega), ?_, fun hpos => ?_⟩
  · have hcont := contRead_bufIncReadp (n := boxConsume (boxOf b.peek) (unpackN b.peek 0)) h
    omega
  · rw [used_bufIncReadp h (by omega)]
    omega

/-- A box is kept of, if it is, before it is passed. -/
theorem boxStep_cases (c : Mp4Codec κ) (bytes : ℕ) (b : Buffer) (p : Mp4 κ) :
    (∃ p', boxStep c bytes b p = .done .failed b p') ∨
      ∃ p', p'.spot = p.spot ∧
        boxStep c bytes b p = if boxOf b.peek = .mdat then mediaStep c bytes b p'
          else passBox c bytes b p' (boxOf b.peek) (unpackN b.peek 0) := by
  unfold boxStep
  dsimp only
  split
  · exact .inl ⟨_, rfl⟩
  · rename_i p' hkept
    refine .inr ⟨p', ?_, rfl⟩
    split at hkept
    · exact (parseBox_spot hkept).trans (count_spot p _)
    · cases hkept
      exact count_spot p _

theorem RoundDone.of_consume {found : Found} {q : Mp4 κ} (hq : q.consume = p.consume)
    (h : RoundDone c bytes b q found b' p') : RoundDone c bytes b p found b' p' := by
  cases h with
  | failed => exact .failed
  | taken hkeeps hless => exact .taken hkeeps hless
  | waits hwaits hsame => exact .waits hwaits (hsame.trans hq)

theorem boxStep_done {found : Found} (h : b.Wf) (hle : bytes ≤ bufContRead b) (h8 : 8 ≤ bytes)
    (hstep : boxStep c bytes b p = .done found b' p') : RoundDone c bytes b p found b' p' := by
  rcases boxStep_cases c bytes b p with ⟨q, heq⟩ | ⟨q, hq, heq⟩
  · rw [heq] at hstep
    cases hstep
    exact .failed
  · rw [heq] at hstep
    split at hstep
    · exact (mediaStep_done h hle h8 hstep).of_consume (congrArg Prod.snd hq)
    · exact (passBox_done h hle h8 hstep).of_consume (congrArg Prod.snd hq)

theorem boxStep_next {bytes' : ℕ} (h : b.Wf) (hle : bytes ≤ bufContRead b)
    (hstep : boxStep c bytes b p = .next bytes' b' p') :
    Keeps b b' ∧ bytes' ≤ bufContRead b' ∧
      (0 < boxConsume (boxOf b.peek) (unpackN b.peek 0) → bufUsed b' < bufUsed b) := by
  rcases boxStep_cases c bytes b p with ⟨q, heq⟩ | ⟨q, hq, heq⟩
  · rw [heq] at hstep
    cases hstep
  · rw [heq] at hstep
    split at hstep
    · exact absurd hstep mediaStep_ne_next
    · exact passBox_next h hle hstep

variable {ready : Mp4 κ → Prop}

/-- A parser that comes to an end leaves no more than there was. -/
theorem headerLoop_keeps {fuel : ℕ} (h : b.Wf) (hle : bytes ≤ bufContRead b)
    (hends : headerEnds c ready fuel bytes b p) :
    ∃ found b' p', headerLoop c fuel bytes b p = some (found, b', p') ∧
      (found = .media → ready p') ∧ (found ≠ .failed → Keeps b b') := by
  induction fuel generalizing bytes b p with
  | zero => exact hends.elim
  | succ fuel ih =>
      rw [headerLoop]
      split
      · exact ⟨_, _, _, rfl, fun hf => (nomatch hf), fun _ => ⟨h, rfl, Nat.le_refl _⟩⟩
      rename_i h8
      have hends := hends.resolve_left h8
      rcases hstep : boxStep c bytes b p with ⟨found, b', p'⟩ | ⟨bytes', b', p'⟩
      · rw [hstep] at hends
        refine ⟨found, b', p', rfl, hends.1, fun hok => ?_⟩
        cases boxStep_done h hle (by omega) hstep with
        | failed => exact absurd rfl hok
        | taken hkeeps _ => exact hkeeps
        | waits hwaits _ =>
            obtain ⟨hwf, hsize, hused⟩ := hends.2 rfl hwaits
            exact ⟨hwf, hsize, Nat.le_of_eq hused⟩
      · rw [hstep] at hends
        obtain ⟨hkeeps, hle', -⟩ := boxStep_next h hle hstep
        obtain ⟨found, b₂, p₂, hloop, hready, hrest⟩ := ih hkeeps.wf hle' hends.2
        exact ⟨found, b₂, p₂, hloop, hready, fun hok => hkeeps.trans (hrest hok)⟩

/-- A call of the parser that is clear fails, finds media data, or gets on. -/
theorem readMp4Header_clear (h : b.Wf) (hclear : headerClear c ready b p) :
    ∃ found b' p', readMp4Header c b p = some (found, b', p') ∧ (found = .media → ready p') ∧
      (found ≠ .failed → Shrinks b b' ∧ (bufUsed b' < bufUsed b ∨ p'.consume = p.consume)) := by
  obtain ⟨h8, hwrap, hends⟩ := hclear
  have hbytes : min (bufUsed b) (bufContRead b) = bufContRead b :=
    Nat.min_eq_right h.contRead_le_used
  have hle : bufContRead b ≤ bufContRead b := Nat.le_refl _
  unfold readMp4Header
  rw [hbytes, headerLoop, if_neg (by omega)]
  have hends := hends.resolve_left (by omega)
  rcases hstep : boxStep c (bufContRead b) b p with ⟨found, b', p'⟩ | ⟨bytes', b', p'⟩
  · rw [hstep] at hends
    refine ⟨found, b', p', rfl, hends.1, fun hok => ?_⟩
    cases boxStep_done h hle h8 hstep with
    | failed => exact absurd rfl hok
    | taken hkeeps hless => exact ⟨⟨hkeeps.wf, hkeeps.size, .inl hless⟩, .inl hless⟩
    | waits hwaits hsame =>
        obtain ⟨hwf, hsize, hused⟩ := hends.2 rfl hwaits
        exact ⟨⟨hwf, hsize, .inr ⟨hused, hwrap hwaits⟩⟩, .inr hsame⟩
  · rw [hstep] at hends
    obtain ⟨hkeeps, hle', hless⟩ := boxStep_next h hle hstep
    obtain ⟨found, b₂, p₂, hloop, hready, hrest⟩ := headerLoop_keeps hkeeps.wf hle' hends.2
    refine ⟨found, b₂, p₂, hloop, hready, fun hok => ?_⟩
    have hlt : bufUsed b₂ < bufUsed b := Nat.lt_of_le_of_lt (hrest hok).used (hless hends.1)
    have hall := hkeeps.trans (hrest hok)
    exact ⟨⟨hall.wf, hall.size, .inl hlt⟩, .inl hlt⟩

/-! ### The two codecs of MP4 streams -/

/-- What is left to a codec of MP4 streams, in `streambuf` and of its own. -/
def mp4Left (b : Buffer) (p : Mp4 κ) (newStream : Bool) : ℕ :=
  b.left + (if p.consume = 0 then 1 else 0) + newStream.toNat

/-- A codec has moved on: bytes are taken, or there are some to consume. -/
structure MovedOn (b : Buffer) (b' : Buffer) (p' : Mp4 κ) : Prop where
  keeps : Keeps b b'
  moved : bufUsed b' < bufUsed b ∨ (b' = b ∧ p'.consume ≠ 0)

theorem mp4Left_lt_of_shrinks (h : Shrinks b b') (hb : b.Wf)
    (hmore : bufUsed b' < bufUsed b ∨ p'.consume = p.consume) (new : Bool) :
    mp4Left b' p' new < mp4Left b p new := by
  obtain ⟨hlt, hbytes⟩ := h.left_lt hb
  unfold mp4Left
  rcases hmore with hless | hsame
  · have hle := hbytes hless
    split <;> omega
  · rw [hsame]
    omega

/-- A header that is done with is not left any more. -/
theorem mp4Left_false_le (b : Buffer) (p : Mp4 κ) : mp4Left b p false ≤ mp4Left b p true := by
  unfold mp4Left
  simp only [Bool.toNat_false, Bool.toNat_true]
  omega

theorem mp4Left_false_lt (b : Buffer) (p : Mp4 κ) : mp4Left b p false < mp4Left b p true := by
  unfold mp4Left
  simp only [Bool.toNat_false, Bool.toNat_true]
  omega

namespace MovedOn

theorem left_lt (h : MovedOn b b' p') (hb : b.Wf) (hp : p.consume = 0) (new : Bool) :
    mp4Left b' p' new < mp4Left b p new := by
  rcases h.moved with hless | ⟨rfl, hne⟩
  · exact mp4Left_lt_of_shrinks ⟨h.keeps.wf, h.keeps.size, .inl hless⟩ hb (.inl hless) new
  · unfold mp4Left
    rw [if_neg hne, if_pos hp]
    omega

theorem left_le (h : MovedOn b b' p') (hb : b.Wf) (new : Bool) :
    mp4Left b' p' new ≤ mp4Left b p new := by
  rcases h.moved with hless | ⟨rfl, hne⟩
  · exact Nat.le_of_lt
      (mp4Left_lt_of_shrinks ⟨h.keeps.wf, h.keeps.size, .inl hless⟩ hb (.inl hless) new)
  · unfold mp4Left
    rw [if_neg hne]
    split <;> omega

end MovedOn

/-- At the end of a chunk, and elsewhere, a stream moves on if it goes on. -/
theorem moveOn_movedOn {moves : Bool} (h : b.Wf) (hbytes : moves = true → 0 < bytes)
    (hle : bytes ≤ bufUsed b) (hmove : p.moveOn b moves bytes = some (b', p')) :
    MovedOn b b' p' := by
  unfold Mp4.moveOn at hmove
  dsimp only at hmove
  split at hmove
  · split at hmove
    · rename_i hahead
      split at hmove
      · rename_i hroom
        cases hmove
        have hpos : 0 < p.next.offset - p.pos := by omega
        refine ⟨keeps_bufIncReadp h hroom, .inl ?_⟩
        rw [used_bufIncReadp h hroom]
        omega
      · cases hmove
        refine ⟨⟨h, rfl, Nat.le_refl _⟩, .inr ⟨rfl, ?_⟩⟩
        show p.next.offset - p.pos ≠ 0
        omega
    · cases hmove
  · split at hmove
    · rename_i hmoves
      cases hmove
      have hpos := hbytes hmoves
      refine ⟨keeps_bufIncReadp h hle, .inl ?_⟩
      rw [used_bufIncReadp h hle]
      omega
    · cases hmove

/-- What is trimmed is frames. -/
theorem trim_consume (p : Mp4 κ) (frames : ℕ) : (p.trim frames).1.consume = p.consume := by
  unfold Mp4.trim
  by_cases hskip : p.skip = 0 <;> by_cases hsamples : p.samples = 0 <;> simp [hskip, hsamples]

theorem MovedOn.trim (h : MovedOn b b' p') (frames : ℕ) : MovedOn b b' (p'.trim frames).1 := by
  refine ⟨h.keeps, h.moved.imp_right fun hm => ⟨hm.1, ?_⟩⟩
  rw [trim_consume]
  exact hm.2

/-- Bytes that are to be consumed are taken. -/
theorem reach_left_lt (h : b.Wf) (hp : p.consume ≠ 0) (hpos : 0 < bytes) (hle : bytes ≤ bufUsed b)
    (new : Bool) :
    (p.reach b bytes).1.Wf ∧
      mp4Left (p.reach b bytes).1 (p.reach b bytes).2 new < mp4Left b p new := by
  have htake : min p.consume bytes ≤ bufUsed b := by omega
  have hshrinks : Shrinks b (bufIncReadp b (min p.consume bytes)) :=
    shrinks_bufIncReadp h (by omega) htake
  refine ⟨hshrinks.wf, mp4Left_lt_of_shrinks hshrinks h (.inl ?_) new⟩
  rw [used_bufIncReadp h htake]
  omega

/-- A call ends decoding, or leaves less than `n`. -/
def LeavesLess {σ : Type} (buffer : σ → Buffer) (left : σ → ℕ) (n : ℕ) (r : Decoded σ) : Prop :=
  r.state = .complete ∨ r.state = .error ∨
    (r.state = .running ∧ (buffer r.next).Wf ∧ left r.next < n)

namespace LeavesLess

variable {σ : Type} {buffer : σ → Buffer} {left : σ → ℕ} {m n : ℕ} {frames : ℕ} {s : σ}

theorem complete : LeavesLess buffer left n ⟨.complete, frames, s⟩ := .inl rfl

theorem error : LeavesLess buffer left n ⟨.error, frames, s⟩ := .inr (.inl rfl)

theorem running (h : (buffer s).Wf ∧ left s < n) : LeavesLess buffer left n ⟨.running, frames, s⟩ :=
  .inr (.inr ⟨rfl, h⟩)

theorem weaken {r : Decoded σ} (h : LeavesLess buffer left m r) (hle : m ≤ n) :
    LeavesLess buffer left n r :=
  h.imp_right fun h => h.imp_right fun ⟨hrun, hwf, hlt⟩ => ⟨hrun, hwf, Nat.lt_of_lt_of_le hlt hle⟩

end LeavesLess

/-! ### alac -/

/-- What is left to alac. -/
def AlacStream.left (s : AlacStream) : ℕ := mp4Left s.streambuf s.mp4 s.newStream

/-- The next call of `alac_decode` gets on, with nothing more to come: a skip has bytes to take,
the header gets on, a block that is not all there is none at all. -/
def AlacStream.clear (create : List UInt8 → AlacInfo) (malloc : ℕ → Bool) (s : AlacStream) : Prop :=
  if s.mp4.consume ≠ 0 then 0 < bufUsed s.streambuf
  else if s.newStream then
    headerClear (alacCodec create malloc) (fun p => p.codec.size.isSome) s.streambuf s.mp4
  else
    ∃ size, s.mp4.codec.size = some size ∧ ¬ (0 < bufUsed s.streambuf ∧ bufUsed s.streambuf < size)

variable {stream : StreamState}

/-- A block leaves no more than there was, and less unless the rest is too short for it. -/
theorem alacBlock_leavesLess {s : AlacStream} (toPcm : Option ℕ) {size : ℕ} (hend : stream.toend = true)
    (h : s.streambuf.Wf) (hsize : s.mp4.codec.size = some size) :
    ∃ r, alacBlock stream toPcm s = some r ∧
      LeavesLess AlacStream.streambuf AlacStream.left (s.left + 1) r ∧
      (s.mp4.consume = 0 → ¬ (0 < bufUsed s.streambuf ∧ bufUsed s.streambuf < size) →
        LeavesLess AlacStream.streambuf AlacStream.left s.left r) := by
  unfold alacBlock
  rw [hsize]
  dsimp only
  split
  · exact ⟨_, rfl, .complete, fun _ _ => .complete⟩
  rename_i hmore
  have hrest : bufUsed s.streambuf ≠ 0 ∧ size ≠ 0 :=
    ⟨fun h0 => hmore ⟨hend, .inl h0⟩, fun h0 => hmore ⟨hend, .inr h0⟩⟩
  split
  · exact ⟨_, rfl, .running ⟨h, Nat.lt_succ_self _⟩, fun _ hall => absurd ⟨by omega, ‹_›⟩ hall⟩
  rename_i hroom
  generalize hcodec : (if size ≠ s.mp4.codec.defaultBlockSize then
    { s.mp4.codec with blockIndex := s.mp4.codec.blockIndex + 1 } else s.mp4.codec) = codec
  rcases toPcm with - | frames
  · exact ⟨_, rfl, .error, fun _ _ => .error⟩
  dsimp only
  rcases hmove : Mp4.moveOn { s.mp4 with codec := codec } s.streambuf (decide (frames ≠ 0)) size
    with - | ⟨b, p⟩
  · exact ⟨_, rfl, .error, fun _ _ => .error⟩
  · have hmoved := (moveOn_movedOn h (fun _ => by omega) (by omega) hmove).trim frames
    refine ⟨_, rfl, .running ⟨hmoved.keeps.wf, ?_⟩, fun hp _ => .running ⟨hmoved.keeps.wf, ?_⟩⟩
    · exact Nat.lt_succ_of_le (hmoved.left_le (p := s.mp4) h s.newStream)
    · exact hmoved.left_lt (p := s.mp4) h hp s.newStream

/-- A call of `alac_decode` that is clear ends decoding, or leaves less. -/
theorem alacDecode_leavesLess {s : AlacStream} {create : List UInt8 → AlacInfo} {malloc : ℕ → Bool}
    (toPcm : Option ℕ) (hend : stream.toend = true) (h : s.streambuf.Wf)
    (hclear : s.clear create malloc) :
    ∃ r, alacDecode create malloc stream toPcm s = some r ∧
      LeavesLess AlacStream.streambuf AlacStream.left s.left r := by
  unfold alacDecode
  unfold AlacStream.clear at hclear
  split at hclear
  · rename_i hp
    rw [if_pos hp]
    exact ⟨_, rfl, .running (reach_left_lt h hp hclear (Nat.le_refl _) s.newStream)⟩
  rename_i hp
  rw [if_neg hp]
  split at hclear
  · rename_i hnew
    rw [if_pos hnew]
    obtain ⟨found, b, p, hheader, hready, hrest⟩ := readMp4Header_clear h hclear
    rw [alacReadMp4Header, hheader]
    have hleft : s.left = mp4Left s.streambuf s.mp4 true := by rw [AlacStream.left, hnew]
    cases found with
    | more =>
        obtain ⟨hshrinks, hmore⟩ := hrest (by simp)
        refine ⟨_, rfl, .running ⟨hshrinks.wf, ?_⟩⟩
        exact mp4Left_lt_of_shrinks hshrinks h hmore s.newStream
    | failed => exact ⟨_, rfl, .error⟩
    | media =>
        obtain ⟨hshrinks, hmore⟩ := hrest (by simp)
        obtain ⟨size, hsize⟩ := Option.isSome_iff_exists.mp (hready rfl)
        obtain ⟨r, hr, hle, -⟩ :=
          alacBlock_leavesLess (s := ⟨p, false, b⟩) toPcm hend hshrinks.wf hsize
        refine ⟨r, hr, hle.weaken ?_⟩
        have hhead := mp4Left_lt_of_shrinks hshrinks h hmore true
        have hdone := mp4Left_false_lt b p
        have hthis : AlacStream.left ⟨p, false, b⟩ = mp4Left b p false := rfl
        omega
  · rename_i hnew
    rw [if_neg hnew]
    obtain ⟨size, hsize, hblock⟩ := hclear
    obtain ⟨r, hr, -, hlt⟩ := alacBlock_leavesLess toPcm hend h hsize
    exact ⟨r, hr, hlt (not_not.mp hp) hblock⟩

/-! ### helix-aac -/

/-- What is left to helix-aac. -/
def HelixStream.left (s : HelixStream) : ℕ := mp4Left s.streambuf s.mp4 s.newStream

/-- The next call of `helixaac_decode` gets on, with nothing more to come: where it comes to a
header, the header gets on. -/
def HelixStream.clear (malloc : ℕ → Bool) (s : HelixStream) : Prop :=
  bufUsed s.streambuf = 0 ∨ s.mp4.consume ≠ 0 ∨ s.newStream = false ∨ s.adts = true ∨
    headerClear (helixCodec malloc) (fun _ => True) s.streambuf s.mp4

theorem helixGiven_le (b : Buffer) : helixGiven b ≤ bufUsed b := by
  unfold helixGiven
  dsimp only
  split <;> omega

/-- A frame leaves no more than there was, and less where nothing was to be skipped. -/
theorem helixFrame_leavesLess {s : HelixStream} (e : HelixAnswers) (h : s.streambuf.Wf) :
    LeavesLess HelixStream.streambuf HelixStream.left (s.left + 1) (helixFrame e s) ∧
      (s.mp4.consume = 0 → LeavesLess HelixStream.streambuf HelixStream.left s.left (helixFrame e s)) := by
  have hgiven := helixGiven_le s.streambuf
  unfold helixFrame
  dsimp only
  rcases hmove : s.mp4.moveOn s.streambuf (decide (min e.takes (helixGiven s.streambuf) > 0))
    (min e.takes (helixGiven s.streambuf)) with - | ⟨b, p⟩
  · exact ⟨.error, fun _ => .error⟩
  have hmoved := moveOn_movedOn h of_decide_eq_true (by omega) hmove
  dsimp only
  split
  · -- no samples: the first frame is an empty one
    have hempty : MovedOn s.streambuf b { p with empty := true } := ⟨hmoved.keeps, hmoved.moved⟩
    exact ⟨.running ⟨hempty.keeps.wf,
        Nat.lt_succ_of_le (hempty.left_le (p := s.mp4) h s.newStream)⟩,
      fun hp => .running ⟨hempty.keeps.wf, hempty.left_lt (p := s.mp4) h hp s.newStream⟩⟩
  · have htrim := hmoved.trim (e.outputSamps / e.nChans)
    exact ⟨.running ⟨htrim.keeps.wf,
        Nat.lt_succ_of_le (htrim.left_le (p := s.mp4) h s.newStream)⟩,
      fun hp => .running ⟨htrim.keeps.wf, htrim.left_lt (p := s.mp4) h hp s.newStream⟩⟩

/-- Once the header is found, no more than there was is left. -/
theorem helixFound_leavesLess {s : HelixStream} (e : HelixAnswers) (h : s.streambuf.Wf) :
    LeavesLess HelixStream.streambuf HelixStream.left (s.left + 1) (helixFound e s) := by
  unfold helixFound
  split
  · exact .running ⟨h, Nat.lt_succ_self _⟩
  · exact (helixFrame_leavesLess e h).1

/-- The search for a header of an adts stream leaves less: it is over, or bytes are passed. -/
theorem helixSeek_leavesLess {s : HelixStream} (e : HelixAnswers) (h : s.streambuf.Wf)
    (hnew : s.newStream = true) :
    LeavesLess HelixStream.streambuf HelixStream.left s.left (helixSeek e s) := by
  have hleft : s.left = mp4Left s.streambuf s.mp4 true := by rw [HelixStream.left, hnew]
  unfold helixSeek
  rcases hsync : e.sync.filter
    (· < min (bufUsed s.streambuf) (bufContRead s.streambuf)) with - | n
  · exact .error
  have hn : n < bufUsed s.streambuf := by
    have hlt := (Option.filter_eq_some_iff.mp hsync).2
    simp only [decide_eq_true_eq] at hlt
    omega
  dsimp only
  split
  · have hkeeps : Keeps s.streambuf (bufIncReadp s.streambuf n) :=
      keeps_bufIncReadp h (Nat.le_of_lt hn)
    refine (helixFound_leavesLess e hkeeps.wf).weaken ?_
    rw [hleft]
    rcases Nat.eq_zero_or_pos n with rfl | hpos
    · have hsame : bufIncReadp s.streambuf 0 = s.streambuf := by
        have hlt := h.readp_lt
        simp only [bufIncReadp, Nat.add_zero, if_neg (Nat.not_le.mpr hlt)]
      show mp4Left (bufIncReadp s.streambuf 0) s.mp4 false + 1 ≤ mp4Left s.streambuf s.mp4 true
      rw [hsame]
      exact mp4Left_false_lt _ _
    · have hshrinks := shrinks_bufIncReadp h hpos (Nat.le_of_lt hn)
      have hless : bufUsed (bufIncReadp s.streambuf n) < bufUsed s.streambuf := by
        rw [used_bufIncReadp h (Nat.le_of_lt hn)]
        omega
      have hhead : mp4Left (bufIncReadp s.streambuf n) s.mp4 true < mp4Left s.streambuf s.mp4 true :=
        mp4Left_lt_of_shrinks hshrinks h (.inl hless) true
      exact Nat.lt_of_le_of_lt (mp4Left_false_le _ _) hhead
  · have hpos : 0 < (if n = 0 then 1 else n) := by split <;> omega
    have hle : (if n = 0 then 1 else n) ≤ bufUsed s.streambuf := by split <;> omega
    have hshrinks := shrinks_bufIncReadp h hpos hle
    refine .running ⟨hshrinks.wf, mp4Left_lt_of_shrinks hshrinks h (.inl ?_) s.newStream⟩
    rw [used_bufIncReadp h hle]
    omega

/-- A call of `helixaac_decode` that is clear ends decoding, or leaves less. -/
theorem helixDecode_leavesLess {s : HelixStream} {malloc : ℕ → Bool} {e : HelixAnswers}
    (hend : stream.toend = true) (h : s.streambuf.Wf) (hclear : s.clear malloc) :
    ∃ r, helixDecode malloc stream e s = some r ∧
      LeavesLess HelixStream.streambuf HelixStream.left s.left r := by
  unfold helixDecode
  split
  · exact ⟨_, rfl, .complete⟩
  rename_i hmore
  have hused : 0 < bufUsed s.streambuf := Nat.pos_of_ne_zero fun h0 => hmore ⟨hend, h0⟩
  have hcont := h.contRead_pos hused
  split
  · rename_i hp
    exact ⟨_, rfl, .running (reach_left_lt h hp (by omega) (by omega) s.newStream)⟩
  rename_i hp
  split
  swap
  · exact ⟨_, rfl, (helixFrame_leavesLess e h).2 (not_not.mp hp)⟩
  rename_i hnew
  split
  · exact ⟨_, rfl, helixSeek_leavesLess e h hnew⟩
  rename_i hadts
  have hhead : headerClear (helixCodec malloc) (fun _ => True) s.streambuf s.mp4 := by
    rcases hclear with h0 | hskip | hold | hadts' | hhead
    · exact absurd h0 (Nat.ne_of_gt hused)
    · exact absurd hskip hp
    · rw [hnew] at hold
      cases hold
    · exact absurd hadts' hadts
    · exact hhead
  obtain ⟨found, b, p, hheader, -, hrest⟩ := readMp4Header_clear h hhead
  rw [helixReadMp4Header, hheader]
  have hleft : s.left = mp4Left s.streambuf s.mp4 true := by rw [HelixStream.left, hnew]
  cases found with
  | more =>
      obtain ⟨hshrinks, hmore'⟩ := hrest (by simp)
      exact ⟨_, rfl,
        .running ⟨hshrinks.wf, mp4Left_lt_of_shrinks hshrinks h hmore' s.newStream⟩⟩
  | failed => exact ⟨_, rfl, .error⟩
  | media =>
      obtain ⟨hshrinks, hmore'⟩ := hrest (by simp)
      have hfound :=
        helixFound_leavesLess (s := { s with newStream := false, streambuf := b, mp4 := p }) e
          hshrinks.wf
      refine ⟨_, rfl, hfound.weaken ?_⟩
      have hbefore := mp4Left_lt_of_shrinks hshrinks h hmore' true
      have hdone := mp4Left_false_lt b p
      have hthis : HelixStream.left { s with newStream := false, streambuf := b, mp4 := p } =
        mp4Left b p false := rfl
      omega

/-! ### pcm -/

namespace Pcm

/-- What is left to pcm.  A header may set `readp` anywhere in the block. -/
def left (s : Pcm) : ℕ := if s.newStream then s.streambuf.size else bufUsed s.streambuf

/-- Decoding is at its end, with nothing more to come. -/
def ends (s : Pcm) : Prop :=
  min (bufUsed s.streambuf) (bufContRead s.streambuf) < s.bytesPerFrame ∨
    (s.limit = true ∧ s.audioLeft = 0)

/-- Frames can be taken until decoding is at its end: there is a size of them, and the header does
not leave a rest that is less than one. -/
def bodyClear (s : Pcm) : Prop :=
  s.ends ∨
    if s.newStream then s.channels * s.sampleSize % 2 ^ 32 ≠ 0
    else s.bytesPerFrame ≠ 0 ∧ ¬ (s.limit = true ∧ s.audioLeft < s.bytesPerFrame)

end Pcm

/-- The chunks of a header come to an end: none takes 0 bytes, the samples begin in the block, and
what comes behind is `ok`. -/
def chunksEnd (file : Bool) (format : HeaderFormat) (m : ℕ → UInt8) (ok : Pcm → Prop) :
    ℕ → ℕ → ℕ → Pcm → Prop
  | 0, _, _, _ => False
  | fuel + 1, p, bytes, s =>
      if bytes < 8 then ok s
      else if format = .wave ∧ isText m p (ascii ['d', 'a', 't', 'a']) then
        ok (waveData (chunkLen format m p) p s)
      else if format = .aiff ∧ isText m p (ascii ['S', 'S', 'N', 'D']) ∧ bytes ≥ 16 then
        s.streambuf.readp + (p + 16 + Octets.be m (p + 8) 4) % 2 ^ 32 <
            s.streambuf.wrap + s.streambuf.size ∧
          ∀ s', aiffData file (Octets.be m (p + 8) 4) (chunkLen format m p) p s = some s' → ok s'
      else if bytes ≥ (chunkLen format m p + 8) % 2 ^ 32 then
        0 < (chunkLen format m p + 8) % 2 ^ 32 ∧
          chunksEnd file format m ok fuel (p + (chunkLen format m p + 8) % 2 ^ 32)
            (bytes - (chunkLen format m p + 8) % 2 ^ 32) (pcmFormat format m p bytes s)
      else ok (pcmFormat format m p bytes s)

/-- The next call of `pcm_decode` gets on, with nothing more to come. -/
def Pcm.clear (pcmCheckHeader : Bool) (s : Pcm) : Prop :=
  let bytes := min (bufUsed s.streambuf) (bufContRead s.streambuf)
  match if s.newStream ∧ pcmCheckHeader then headerFormat s.streambuf.peek bytes else none with
  | some format =>
      chunksEnd false format s.streambuf.peek Pcm.bodyClear (bytes + 1) 12 (bytes - 12) s
  | none => s.bodyClear

/-- The format of a header is not the stream. -/
structure SameStream (s s' : Pcm) : Prop where
  wf : s'.streambuf.Wf
  size : s'.streambuf.size = s.streambuf.size
  newStream : s'.newStream = s.newStream

theorem pcmFormat_stream (format : HeaderFormat) (m : ℕ → UInt8) (p bytes : ℕ) (s : Pcm) :
    (pcmFormat format m p bytes s).streambuf = s.streambuf ∧
      (pcmFormat format m p bytes s).newStream = s.newStream := by
  cases format <;> unfold pcmFormat <;> dsimp only <;> split <;> exact ⟨rfl, rfl⟩

/-- `readp` is set within the block, or just behind it. -/
theorem wf_bufIncReadp_of_lt (h : b.Wf) (hn : b.readp + n < b.wrap + b.size) :
    (bufIncReadp b n).Wf := by
  obtain ⟨hge, hlt, hwge, hwlt, hwrap, hsize, hbase⟩ := h
  refine ⟨?_, ?_, hwge, hwlt, hwrap, hsize, hbase⟩
  · show b.buf ≤ if b.readp + n ≥ b.wrap then b.readp + n - b.size else b.readp + n
    split <;> omega
  · show (if b.readp + n ≥ b.wrap then b.readp + n - b.size else b.readp + n) < b.wrap
    split <;> omega

theorem aiffData_stream (file : Bool) {offset : ℕ} (len : ℕ) {p : ℕ} {s : Pcm} (h : s.streambuf.Wf)
    (hn : s.streambuf.readp + (p + 16 + offset) % 2 ^ 32 <
      s.streambuf.wrap + s.streambuf.size) :
    ∃ s', aiffData file offset len p s = some s' ∧ SameStream s s' := by
  unfold aiffData
  dsimp only
  rw [if_pos hn]
  refine ⟨_, rfl, ?_⟩
  have hwf := wf_bufIncReadp_of_lt h hn
  split <;> exact ⟨hwf, rfl, rfl⟩

/-- The walk over the chunks comes to an end, and to what is `ok`. -/
theorem chunkLoop_ends {file : Bool} {format : HeaderFormat} {m : ℕ → UInt8} {ok : Pcm → Prop}
    {fuel p : ℕ} {s : Pcm} (h : s.streambuf.Wf) (hle : p + bytes ≤ bufUsed s.streambuf)
    (hends : chunksEnd file format m ok fuel p bytes s) :
    ∃ s', chunkLoop file format m fuel p bytes s = some s' ∧ SameStream s s' ∧ ok s' := by
  induction fuel generalizing p bytes s with
  | zero => exact hends.elim
  | succ fuel ih =>
      obtain ⟨hbuf, hnew⟩ := pcmFormat_stream format m p bytes s
      have hformat : SameStream s (pcmFormat format m p bytes s) :=
        ⟨by rwa [hbuf], by rw [hbuf], hnew⟩
      rw [chunksEnd] at hends
      rw [chunkLoop]
      split at hends
      · rename_i hfew
        rw [if_pos hfew]
        exact ⟨s, rfl, ⟨h, rfl, rfl⟩, hends⟩
      rename_i hbytes
      rw [if_neg hbytes]
      split at hends
      · rename_i hdata
        rw [if_pos hdata]
        exact ⟨_, rfl, ⟨(keeps_bufIncReadp h (by omega)).wf, rfl, rfl⟩, hends⟩
      rename_i hdata
      rw [if_neg hdata]
      split at hends
      · rename_i hsound
        rw [if_pos hsound]
        obtain ⟨s', hs', hsame⟩ := aiffData_stream file
          (chunkLen format m p) h hends.1
        exact ⟨s', hs', hsame, hends.2 s' hs'⟩
      rename_i hsound
      rw [if_neg hsound]
      split at hends
      · rename_i hall
        rw [if_pos hall]
        obtain ⟨s', hs', hsame, hok⟩ :=
          ih (by rwa [hbuf]) (by rw [hbuf]; omega) hends.2
        exact ⟨s', hs', ⟨hsame.wf, hsame.size.trans hformat.size,
          hsame.newStream.trans hformat.newStream⟩, hok⟩
      · rename_i hall
        rw [if_neg hall]
        exact ⟨_, rfl, hformat, hends⟩

/-- Frames in one piece are there, and so is one that wraps. -/
theorem framesIn_mul_le (s : Pcm) (hle : bytes ≤ bufUsed s.streambuf) :
    s.framesIn bytes * s.bytesPerFrame ≤ bufUsed s.streambuf := by
  unfold Pcm.framesIn
  split
  · rename_i hwrap
    rw [Nat.one_mul]
    exact hwrap.2.2
  · exact Nat.le_trans (Nat.div_mul_le_self _ _) hle

theorem framesOut_mul_le (s : Pcm) (out : ℕ) (hle : bytes ≤ bufUsed s.streambuf) :
    s.framesOut bytes out * s.bytesPerFrame ≤ bufUsed s.streambuf := by
  have hin := framesIn_mul_le s hle
  have hmin : min (min (s.framesIn bytes) out) MAX_DECODE_FRAMES * s.bytesPerFrame ≤
      s.framesIn bytes * s.bytesPerFrame :=
    Nat.mul_le_mul_right _ (Nat.le_trans (Nat.min_le_left _ _) (Nat.min_le_left _ _))
  unfold Pcm.framesOut
  dsimp only
  split
  · rename_i hover
    have hrest := Nat.div_mul_le_self s.audioLeft s.bytesPerFrame
    omega
  · exact Nat.le_trans hmin hin

/-- Where a frame is in one piece, and `audio_left` does not end before it, a frame is decoded. -/
theorem framesOut_pos {s : Pcm} {out : ℕ} (hout : 0 < out) (hsize : s.bytesPerFrame ≠ 0)
    (hbytes : s.bytesPerFrame ≤ bytes)
    (hrest : ¬ (s.limit = true ∧ s.audioLeft < s.bytesPerFrame)) : 0 < s.framesOut bytes out := by
  have hpos : 0 < bytes / s.bytesPerFrame := Nat.div_pos hbytes (Nat.pos_of_ne_zero hsize)
  have hin : s.framesIn bytes = bytes / s.bytesPerFrame :=
    if_neg fun hwrap => absurd hwrap.1 (Nat.ne_of_gt hpos)
  unfold Pcm.framesOut
  dsimp only
  rw [hin]
  split
  · rename_i hover
    have hlong : s.bytesPerFrame ≤ s.audioLeft := Nat.not_lt.mp fun hlt => hrest ⟨hover.1, hlt⟩
    exact Nat.div_pos hlong (Nat.pos_of_ne_zero hsize)
  · unfold MAX_DECODE_FRAMES
    omega

/-- Behind the header, a call that is clear ends decoding, or leaves less. -/
theorem pcmBody_leavesLess {s : Pcm} {out : ℕ} (hend : stream.toend = true) (h : s.streambuf.Wf)
    (hout : 0 < out) (hclear : s.bodyClear) :
    ∃ r, pcmBody stream out s = some r ∧ LeavesLess Pcm.streambuf Pcm.left s.left r := by
  have hle : min (bufUsed s.streambuf) (bufContRead s.streambuf) ≤ bufUsed s.streambuf :=
    Nat.min_le_left _ _
  unfold pcmBody
  dsimp only
  split
  · exact ⟨_, rfl, .complete⟩
  rename_i hmore
  have hgo := hclear.resolve_left fun hstop =>
    hmore (hstop.imp (fun hfew => ⟨hend, hfew⟩) id)
  rcases hnew : s.newStream with - | -
  · have hstart : s.start = s := by
      unfold Pcm.start
      rw [hnew]
      rfl
    rw [hnew] at hgo
    obtain ⟨hsize, hrest⟩ := hgo
    rw [hstart, if_neg hsize]
    refine ⟨_, rfl, .running ?_⟩
    have hbytes : s.bytesPerFrame ≤ min (bufUsed s.streambuf) (bufContRead s.streambuf) :=
      Nat.not_lt.mp fun hlt => hmore (.inl ⟨hend, hlt⟩)
    have htaken := framesOut_mul_le s out hle
    have hpos := Nat.mul_pos (framesOut_pos hout hsize hbytes hrest) (Nat.pos_of_ne_zero hsize)
    refine ⟨(keeps_bufIncReadp h htaken).wf, ?_⟩
    show (if s.newStream then _ else bufUsed (bufIncReadp s.streambuf _)) <
      if s.newStream then s.streambuf.size else bufUsed s.streambuf
    rw [used_bufIncReadp h htaken, hnew]
    show bufUsed s.streambuf - _ < bufUsed s.streambuf
    omega
  · have hstart : s.start.streambuf = s.streambuf ∧ s.start.newStream = false ∧
        s.start.bytesPerFrame = s.channels * s.sampleSize % 2 ^ 32 := by
      unfold Pcm.start
      rw [hnew]
      exact ⟨rfl, rfl, rfl⟩
    rw [hnew] at hgo
    obtain ⟨hbuf, hdone, hsize⟩ := hstart
    rw [if_neg (by rw [hsize]; exact hgo)]
    refine ⟨_, rfl, .running ?_⟩
    have hle' : min (bufUsed s.streambuf) (bufContRead s.streambuf) ≤ bufUsed s.start.streambuf := by
      rw [hbuf]
      exact hle
    have htaken := framesOut_mul_le s.start out hle'
    have hwf := (keeps_bufIncReadp (hbuf.symm ▸ h) htaken).wf
    refine ⟨hwf, ?_⟩
    show (if s.start.newStream then _ else bufUsed (bufIncReadp s.start.streambuf _)) <
      if s.newStream then s.streambuf.size else bufUsed s.streambuf
    rw [hdone, hnew]
    have hblock : s.start.streambuf.size = s.streambuf.size := by rw [hbuf]
    exact Nat.lt_of_lt_of_eq hwf.used_lt hblock

/-- A call of `pcm_decode` that is clear ends decoding, or leaves less. -/
theorem pcmDecode_leavesLess {s : Pcm} {pcmCheckHeader : Bool} {out : ℕ} (hend : stream.toend = true)
    (h : s.streambuf.Wf) (hout : 0 < out) (hclear : s.clear pcmCheckHeader) :
    ∃ r, pcmDecode pcmCheckHeader stream out s = some r ∧
      LeavesLess Pcm.streambuf Pcm.left s.left r := by
  have hfile : ¬ stream = .streamingFile := fun hf => by
    rw [hf] at hend
    cases hend
  unfold pcmDecode
  unfold Pcm.clear at hclear
  simp only [hfile, false_or, decide_false]
  by_cases hnew : s.newStream = true ∧ pcmCheckHeader = true
  · rw [if_pos hnew]
    simp only [if_pos hnew] at hclear
    unfold checkHeader
    rcases hformat : headerFormat s.streambuf.peek
      (min (bufUsed s.streambuf) (bufContRead s.streambuf)) with - | format
    · simp only [hformat] at hclear ⊢
      exact pcmBody_leavesLess hend h hout hclear
    · simp only [hformat] at hclear ⊢
      have hlong : 12 < min (bufUsed s.streambuf) (bufContRead s.streambuf) := by
        unfold headerFormat at hformat
        split at hformat
        · cases hformat
        · omega
      obtain ⟨s', hs', hsame, hok⟩ := chunkLoop_ends h (by omega) hclear
      rw [hs']
      obtain ⟨r, hr, hgets⟩ := pcmBody_leavesLess hend hsame.wf hout hok
      have hleft : s'.left = s.left := by
        unfold Pcm.left
        rw [hsame.newStream, hnew.1, hsame.size]
        rfl
      exact ⟨r, hr, hleft ▸ hgets⟩
  · rw [if_neg hnew]
    simp only [if_neg hnew] at hclear
    exact pcmBody_leavesLess hend h hout hclear

/-! ### decode_thread -/

namespace Codec

/-- What is left to a codec. -/
def left : Codec → ℕ
  | .pcm s => s.left
  | .alac s => s.left
  | .helixaac s => s.left

/-- The next call of `codec->decode()` gets on, with nothing more to come. -/
def clear (d : DecodeSetup) : Codec → Prop
  | .pcm s => s.clear d.pcmCheckHeader
  | .alac s => s.clear d.create d.malloc
  | .helixaac s => s.clear d.malloc

end Codec

/-- A call that is clear ends decoding, or leaves less to the codec. -/
theorem decode_leavesLess {d : DecodeSetup} {e : DecodePass} {x : Codec} (hend : stream.toend = true)
    (h : x.streambuf.Wf) (hroom : BYTES_PER_FRAME ≤ min e.space e.contWrite)
    (hclear : x.clear d) :
    ∃ r, x.decode d stream e = some r ∧ LeavesLess Codec.streambuf Codec.left x.left r := by
  cases x with
  | pcm s =>
      have hout : 0 < min e.space e.contWrite / BYTES_PER_FRAME := Nat.div_pos hroom (by decide)
      obtain ⟨r, hr, hgets⟩ := pcmDecode_leavesLess hend h hout hclear
      exact ⟨_, congrArg (Option.map _) hr, hgets⟩
  | alac s =>
      obtain ⟨r, hr, hgets⟩ := alacDecode_leavesLess e.toPcm hend h hclear
      exact ⟨_, congrArg (Option.map _) hr, hgets⟩
  | helixaac s =>
      obtain ⟨r, hr, hgets⟩ := helixDecode_leavesLess (e := e.helix) hend h hclear
      exact ⟨_, congrArg (Option.map _) hr, hgets⟩

/-- The output side has freed space for another call. -/
def DecodePass.hasRoom (e : DecodePass) (x : Codec) : Prop :=
  e.space > x.minSpace ∧ BYTES_PER_FRAME ≤ e.contWrite

/-- A pass of `decode_thread` with space, that gets on. -/
def DecodePass.getsOn (d : DecodeSetup) (s : Decoding) (e : DecodePass) : Prop :=
  s.state = .running → e.hasRoom s.codec ∧ s.codec.clear d

/-- What ends decoding counts. -/
def endWeight (state : DecodeState) : ℕ := if state = .complete ∨ state = .error then 1 else 0

theorem exists_of_total {log : List DecodeState} (h : 0 < Runs.total endWeight log) :
    ∃ state ∈ log, state = .complete ∨ state = .error := by
  induction log with
  | nil => exact absurd h (Nat.lt_irrefl 0)
  | cons state log ih =>
      by_cases hends : state = .complete ∨ state = .error
      · exact ⟨state, List.mem_cons_self, hends⟩
      · rw [Runs.total_cons, endWeight, if_neg hends, Nat.zero_add] at h
        obtain ⟨last, hmem, hlast⟩ := ih h
        exact ⟨last, List.mem_cons_of_mem _ hmem, hlast⟩

/-- A pass of `decode_thread` that gets on ends decoding, or leaves less to the codec. -/
theorem decodeThread_leavesLess {d : DecodeSetup} {s : Decoding} {e : DecodePass}
    (hend : stream.toend = true) (hstate : s.state = .running) (hwf : s.codec.streambuf.Wf)
    (hpass : e.hasRoom s.codec ∧ s.codec.clear d) :
    0 < Runs.total endWeight (decodeThread d stream s e).2 ∨
      (((decodeThread d stream s e).1.state = .running ∧
          (decodeThread d stream s e).1.codec.streambuf.Wf) ∧
        (decodeThread d stream s e).1.codec.left < s.codec.left) := by
  obtain ⟨⟨hspace, hcont⟩, hclear⟩ := hpass
  have hroom : BYTES_PER_FRAME ≤ min e.space e.contWrite := by
    have hmin : BYTES_PER_FRAME ≤ s.codec.minSpace := by
      cases s.codec <;> simp [Codec.minSpace, BYTES_PER_FRAME]
    omega
  obtain ⟨r, hr, hgets⟩ := decode_leavesLess (e := e) hend hwf hroom hclear
  have hstep : decodeThread d stream s e =
      (⟨r.state, r.next⟩, if r.state ≠ .running then [r.state] else []) := by
    unfold decodeThread
    rw [if_pos ⟨hstate, hspace, .inr hend⟩, hr]
  rw [hstep]
  rcases hgets with hcomplete | herror | ⟨hrun, hwf', hlt⟩
  · rw [hcomplete]
    exact .inl (show 0 < Runs.total endWeight [DecodeState.complete] by decide)
  · rw [herror]
    exact .inl (show 0 < Runs.total endWeight [DecodeState.error] by decide)
  · exact .inr ⟨⟨hrun, hwf'⟩, hlt⟩

/-- End of stream is reached: if every pass has space and gets on, decoding ends. -/
theorem stream_end_reached (d : DecodeSetup) (s : Decoding) (es : List DecodePass)
    (hend : stream.toend = true) (hstate : s.state = .running) (hwf : s.codec.streambuf.Wf)
    (hpasses : (decodeMachine d stream).Along (fun s e => e.getsOn d s) s es)
    (hlen : s.codec.left < es.length) :
    ∃ state ∈ ((decodeMachine d stream).run s es).2, state = .complete ∨ state = .error := by
  have hstep : ∀ (s : Decoding) (e : DecodePass),
      (s.state = .running ∧ s.codec.streambuf.Wf) → e.getsOn d s →
      0 < Runs.total endWeight ((decodeMachine d stream).step s e).2 ∨
        ((((decodeMachine d stream).step s e).1.state = .running ∧
            ((decodeMachine d stream).step s e).1.codec.streambuf.Wf) ∧
          ((decodeMachine d stream).step s e).1.codec.left < s.codec.left) := by
    intro s e hI hP
    exact decodeThread_leavesLess hend hI.1 hI.2 (hP hI.1)
  exact exists_of_total (Runs.Machine.run_progresses _ (μ := fun s => s.codec.left) hstep
    ⟨hstate, hwf⟩ hpasses hlen)

/-- Once decoding has ended, no pass has anything to get on with. -/
theorem along_ended {d : DecodeSetup} {s : Decoding} (hstate : s.state ≠ .running)
    (es : List DecodePass) : (decodeMachine d stream).Along (fun s e => e.getsOn d s) s es := by
  induction es with
  | nil => trivial
  | cons e es ih =>
      have hstay : decodeThread d stream s e = (s, []) := if_neg fun h => hstate h.1
      refine ⟨fun hrun => absurd hrun hstate, ?_⟩
      show Runs.Machine.Along _ _ (decodeThread d stream s e).1 es
      rw [hstay]
      exact ih

section Example

/-- `streambuf` as a stream has filled it. -/
def Buffer.holding (size : ℕ) (bs : List UInt8) : Buffer :=
  bufIncWritep (bufStore (bufInit ⟨0, fun _ => 0⟩ size) bs) bs.length

/-- A pass with space for any codec. -/
def roomyPass : DecodePass where
  space := 1000000
  contWrite := 1000000
  toPcm := none
  helix := ⟨none, false, 0, 0, 0, 0, 1⟩

/-- What `createDecoder` and `malloc` answer. -/
def someSetup : DecodeSetup := ⟨false, fun _ => ⟨16, 44100, 2, 4096⟩, fun _ => true⟩

/-- An MP4 stream for helix-aac that is a box `free` of 8 bytes. -/
def freeBox : HelixStream where
  mp4 := helixOpen (.zero ⟨0, 0, 0, 0⟩)
  adts := false
  newStream := true
  streambuf := .holding 9 ([0, 0, 0, 8] ++ ascii ['f', 'r', 'e', 'e'])

/-- The box is passed, then decoding is complete. -/
theorem stream_end_reached_run :
    ∃ state ∈ ((decodeMachine someSetup .disconnect).run ⟨.running, .helixaac freeBox⟩
      (roomyPass :: roomyPass :: List.replicate 100 roomyPass)).2,
      state = .complete ∨ state = .error := by
  have hstep : boxStep (helixCodec someSetup.malloc) 8 freeBox.streambuf freeBox.mp4 =
      .next 0 (bufIncReadp freeBox.streambuf 8) { freeBox.mp4 with pos := 8 } := rfl
  have hclear : headerClear (helixCodec someSetup.malloc) (fun _ => True) freeBox.streambuf
      freeBox.mp4 := by
    refine ⟨by decide, fun hwaits => absurd hwaits (by decide), ?_⟩
    show headerEnds _ _ (8 + 1) 8 _ _
    rw [headerEnds, hstep]
    exact .inr ⟨by decide, .inl (by decide)⟩
  refine stream_end_reached someSetup ⟨.running, .helixaac freeBox⟩ _ rfl rfl
    (wf_bufAppend (wf_bufInit _ (by decide)) (by decide)) ⟨fun _ => ⟨?_, ?_⟩, fun _ => ⟨?_, ?_⟩, ?_⟩
    (by decide)
  · exact ⟨by decide, by decide⟩
  · exact .inr (.inr (.inr (.inr hclear)))
  · exact ⟨by decide, by decide⟩
  · exact .inl rfl
  · exact along_ended (by decide) _

/-- An alac stream that ends in its first box. -/
def cutOff : AlacStream where
  mp4 := alacOpen
  newStream := true
  streambuf := .holding 16 ([0, 0, 0, 32] ++ ascii ['f', 't', 'y'])

/-- A header that is cut off: `alac_decode` returns `DECODE_RUNNING` for ever. -/
theorem header_cut_off :
    ¬ ∀ (d : DecodeSetup) (stream : StreamState) (s : Decoding), stream.toend = true →
      s.state = .running → s.codec.streambuf.Wf →
      ∃ n, ∀ es : List DecodePass, n ≤ es.length →
        (decodeMachine d stream).Along (fun s e => e.hasRoom s.codec) s es →
        ∃ state ∈ ((decodeMachine d stream).run s es).2, state = .complete ∨ state = .error := by
  intro hall
  obtain ⟨n, hn⟩ := hall someSetup .disconnect ⟨.running, .alac cutOff⟩ rfl rfl
    (wf_bufAppend (wf_bufInit _ (by decide)) (by decide))
  have hstays : ∀ e : DecodePass, e = roomyPass →
      (decodeMachine someSetup .disconnect).step ⟨.running, .alac cutOff⟩ e =
        (⟨.running, .alac cutOff⟩, []) := by
    rintro e rfl
    rfl
  have hpasses : ∀ e ∈ List.replicate n roomyPass, e = roomyPass := fun e he =>
    List.eq_of_mem_replicate he
  have hrun := Runs.Machine.run_stays _ hstays hpasses
  obtain ⟨state, hmem, -⟩ := hn (List.replicate n roomyPass) (by simp) (by
    refine Runs.Machine.along_of_invariant _ (I := fun s => s = ⟨.running, .alac cutOff⟩)
      (P := fun _ e => e = roomyPass) ?_ ?_ rfl (Runs.Machine.along_of_forall _ hpasses _)
    · rintro s e rfl he
      rw [hstays e he]
    · rintro s e rfl rfl
      exact ⟨by decide, by decide⟩)
  rw [hrun] at hmem
  cases hmem

end Example

end SqueezeliteMuse
