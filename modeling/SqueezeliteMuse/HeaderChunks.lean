/-
SqueezeliteMuse/HeaderChunks.lean

What an MP4 header says, and how it arrives.

What a header says is a matter of the stream alone: `HeaderOf` walks over its boxes from
one position to the next, until it comes to media data or to an error.  A parser
that is called again and again (`headerMachine`) sees no more of the stream than what has
arrived, and of that only what is in one piece.

The two agree as long as a box is not there by half: `CallClear` is the condition on the
state before a call.  A box that is kept is to be followed by a byte in one piece with it, as
`read_mp4_header` parses it when `bytes > len` but passes it when `bytes >= len`; it is to be
waited for, or all there, and it is not to reach the end of the ring.

Main result: `header_same`, with `header_split` for a stream whose configuration is lost when it
arrives in two pieces.
-/
import SqueezeliteMuse.StreamEnd

namespace SqueezeliteMuse

variable {κ : Type} {c : Mp4Codec κ} {b b' : Buffer} {p p' : Mp4 κ} {bytes q : ℕ}
variable {data : List UInt8} {result : Option (Mp4 κ)}

/-! ### What a header says -/

/-- The bytes of a stream from `q` on. -/
def streamFrom (data : List UInt8) (q : ℕ) : ℕ → UInt8 := fun i => data.getD (q + i) 0

/-- A box of which something is kept. -/
def keptBox (c : Mp4Codec κ) (box : Box) : Bool :=
  box = c.config || (box = .stsz && c.sizes.isSome) ||
    box ∈ [Box.stts, Box.stsc, Box.stco, Box.dashes]

namespace Mp4

/-- So many bytes are passed. -/
def pass (p : Mp4 κ) (n : ℕ) : Mp4 κ := { p with pos := (p.pos + n) % 2 ^ 32 }

/-- The bytes to consume are passed. -/
def ahead (p : Mp4 κ) : Mp4 κ := { p with pos := (p.pos + p.consume) % 2 ^ 32, consume := 0 }

/-- At the first byte of audio, from the box of the media data. -/
def atAudio (c : Mp4Codec κ) (p : Mp4 κ) : Mp4 κ :=
  { (p.pass 8).pass (p.pass 8).firstSkip with
    sample := 1, nextchunk := 1, codec := c.start p.codec }

end Mp4

/-- What a stream says from `q` on, where the parser has `p`: what the parser has at the first byte
of audio, or `none` for an error. -/
inductive HeaderOf (c : Mp4Codec κ) (data : List UInt8) : ℕ → Mp4 κ → Option (Mp4 κ) → Prop
  | media {q : ℕ} {p : Mp4 κ} : q + 8 ≤ data.length → boxOf (streamFrom data q) = .mdat →
      p.play ≠ 0 → HeaderOf c data q p (some (p.atAudio c))
  | noTrack {q : ℕ} {p : Mp4 κ} : q + 8 ≤ data.length → boxOf (streamFrom data q) = .mdat →
      p.play = 0 → HeaderOf c data q p none
  | error {q : ℕ} {p : Mp4 κ} : q + 8 ≤ data.length → boxOf (streamFrom data q) ≠ .mdat →
      (keptBox c (boxOf (streamFrom data q)) →
        q + unpackN (streamFrom data q) 0 ≤ data.length) →
      parseBox c (streamFrom data q) (data.length - q) (unpackN (streamFrom data q) 0)
        (p.count (boxOf (streamFrom data q))) = none → HeaderOf c data q p none
  | box {q : ℕ} {p p' : Mp4 κ} {result : Option (Mp4 κ)} : q + 8 ≤ data.length →
      boxOf (streamFrom data q) ≠ .mdat →
      (keptBox c (boxOf (streamFrom data q)) →
        q + unpackN (streamFrom data q) 0 ≤ data.length) →
      parseBox c (streamFrom data q) (data.length - q) (unpackN (streamFrom data q) 0)
        (p.count (boxOf (streamFrom data q))) = some p' →
      HeaderOf c data
        (q + boxConsume (boxOf (streamFrom data q)) (unpackN (streamFrom data q) 0))
        (p'.pass (boxConsume (boxOf (streamFrom data q)) (unpackN (streamFrom data q) 0))) result →
      HeaderOf c data q p result

/-- A header says one thing. -/
theorem HeaderOf.unique {result' : Option (Mp4 κ)} (h : HeaderOf c data q p result)
    (h' : HeaderOf c data q p result') : result = result' := by
  induction h with
  | media hroom hbox hplay =>
      cases h' with
      | media => rfl
      | noTrack _ _ hnone => exact absurd hnone hplay
      | error _ hother => exact absurd hbox hother
      | box _ hother => exact absurd hbox hother
  | noTrack hroom hbox hplay =>
      cases h' with
      | media _ _ hsome => exact absurd hplay hsome
      | noTrack => rfl
      | error _ hother => exact absurd hbox hother
      | box _ hother => exact absurd hbox hother
  | error hroom hother hthere hparse =>
      cases h' with
      | media _ hbox => exact absurd hbox hother
      | noTrack => rfl
      | error => rfl
      | box _ _ _ hparse' =>
          rw [hparse] at hparse'
          cases hparse'
  | box hroom hother hthere hparse _ ih =>
      cases h' with
      | media _ hbox => exact absurd hbox hother
      | noTrack _ hbox => exact absurd hbox hother
      | error _ _ _ hparse' =>
          rw [hparse] at hparse'
          cases hparse'
      | box _ _ _ hparse' hrest =>
          rw [hparse] at hparse'
          cases hparse'
          exact ih hrest

/-- There is a box, and it is there if it is kept. -/
theorem HeaderOf.room (h : HeaderOf c data q p result) : q + 8 ≤ data.length := by
  cases h <;> assumption

/-- A box that is not media data: what comes behind it decides. -/
theorem headerOf_box_iff (hroom : q + 8 ≤ data.length) (hother : boxOf (streamFrom data q) ≠ .mdat)
    (hthere : keptBox c (boxOf (streamFrom data q)) →
      q + unpackN (streamFrom data q) 0 ≤ data.length)
    (hparse : parseBox c (streamFrom data q) (data.length - q) (unpackN (streamFrom data q) 0)
      (p.count (boxOf (streamFrom data q))) = some p') :
    HeaderOf c data
        (q + boxConsume (boxOf (streamFrom data q)) (unpackN (streamFrom data q) 0))
        (p'.pass (boxConsume (boxOf (streamFrom data q)) (unpackN (streamFrom data q) 0))) result ↔
      HeaderOf c data q p result := by
  constructor
  · exact .box hroom hother hthere hparse
  · intro h
    cases h with
    | media _ hbox => exact absurd hbox hother
    | noTrack _ hbox => exact absurd hbox hother
    | error _ _ _ hparse' =>
        rw [hparse] at hparse'
        cases hparse'
    | box _ _ _ hparse' hrest =>
        rw [hparse] at hparse'
        cases hparse'
        exact hrest

/-- Nothing is kept of the other boxes. -/
theorem parseBox_of_not_kept {m : ℕ → UInt8} {n len : ℕ} (h : keptBox c (boxOf m) = false) :
    parseBox c m n len p = some p := by
  simp only [keptBox, Bool.or_eq_false_iff, Bool.and_eq_false_iff, decide_eq_false_iff_not,
    List.mem_cons, List.not_mem_nil, or_false, not_or] at h
  obtain ⟨⟨hconfig, hsizes⟩, hstts, hstsc, hstco, hdashes⟩ := h
  unfold parseBox
  rw [if_neg hconfig]
  split
  · rename_i hstsz
    rcases hsizes with hother | hnone
    · exact absurd hstsz hother
    · split
      · rename_i hsome
        rw [hsome] at hnone
        cases hnone
      · rfl
  · exact absurd ‹_› hstts
  · exact absurd ‹_› hstsc
  · exact absurd ‹_› hstco
  · exact absurd ‹_› hdashes
  · rfl

/-! ### What is in the buffer -/

/-- `streambuf` has bytes of the stream, from `q` on. -/
structure Carries (data : List UInt8) (q : ℕ) (b : Buffer) : Prop where
  wf : b.Wf
  bytes : b.content <+: data.drop q

namespace Carries

theorem used_le (h : Carries data q b) : bufUsed b ≤ data.length - q := by
  have hle := h.bytes.length_le
  rwa [Buffer.Wf.length_content, List.length_drop] at hle

/-- What is in one piece is read as it is in the stream. -/
theorem peek (h : Carries data q b) {i : ℕ} (hi : i < bufContRead b) :
    b.peek i = streamFrom data q i := by
  have hused := h.wf.contRead_le_used
  have hget := h.wf.content_getElem? (i := i) (by omega)
  obtain ⟨rest, hrest⟩ := h.bytes
  have hin : i < b.content.length := by
    rw [Buffer.Wf.length_content]
    omega
  have hdrop : (data.drop q)[i]? = b.content[i]? := by
    rw [← hrest, List.getElem?_append_left hin]
  rw [List.getElem?_drop, hget] at hdrop
  simp only [streamFrom, List.getD_eq_getElem?_getD, hdrop]
  rfl

theorem peek_box (h : Carries data q b) (h8 : 8 ≤ bufContRead b) :
    boxOf b.peek = boxOf (streamFrom data q) := by
  unfold boxOf
  rw [h.peek (i := 4) (by omega), h.peek (i := 5) (by omega), h.peek (i := 6) (by omega),
    h.peek (i := 7) (by omega)]

theorem peek_len (h : Carries data q b) (h8 : 8 ≤ bufContRead b) :
    unpackN b.peek 0 = unpackN (streamFrom data q) 0 := by
  unfold unpackN
  exact Octets.be_congr fun i hi => h.peek (by omega)

/-- Bytes are taken. -/
theorem bufIncReadp {n : ℕ} (h : Carries data q b) (hn : n ≤ bufUsed b) :
    Carries data (q + n) (bufIncReadp b n) where
  wf := (keeps_bufIncReadp h.wf hn).wf
  bytes := by
    rw [content_bufIncReadp h.wf hn, ← List.drop_drop]
    obtain ⟨rest, hrest⟩ := h.bytes
    rw [← hrest]
    refine ⟨rest, ?_⟩
    rw [List.drop_append_of_le_length]
    rwa [Buffer.Wf.length_content]

/-- Bytes arrive. -/
theorem fill {arrived n : ℕ} (h : Carries data q b) (hq : q + bufUsed b = arrived)
    (hroom : n ≤ min (bufSpace b) (bufContWrite b)) (hle : arrived + n ≤ data.length)
    {bs : List UInt8} (hbs : bs = (data.drop arrived).take n) :
    Carries data q (bufIncWritep (bufStore b bs) bs.length) ∧
      q + bufUsed (bufIncWritep (bufStore b bs) bs.length) = arrived + n := by
  have hlen : bs.length = n := by
    rw [hbs, List.length_take, List.length_drop]
    omega
  have hfit : bs.length ≤ min (bufSpace b) (bufContWrite b) := by
    rw [hlen]
    exact hroom
  refine ⟨⟨wf_bufAppend h.wf hfit, ?_⟩, ?_⟩
  · rw [content_bufAppend h.wf hfit]
    obtain ⟨rest, hrest⟩ := h.bytes
    have hbehind : data.drop arrived = rest := by
      have hlong : bufUsed b = b.content.length := by
        rw [Buffer.Wf.length_content]
      rw [← hq, ← List.drop_drop, ← hrest, hlong, List.drop_left]
    rw [hbs, hbehind, ← hrest]
    exact (List.prefix_append_right_inj _).mpr (List.take_prefix _ _)
  · rw [used_bufAppend h.wf hfit, hlen]
    omega

end Carries

/-! ### A round that is clear -/

/-- What is kept of a box is decided by its own bytes. -/
def Alone (c : Mp4Codec κ) (m : ℕ → UInt8) (n len : ℕ) (p : Mp4 κ) : Prop :=
  ∀ m' n', (∀ i < max 8 len, m' i = m i) → len ≤ n' →
    parseBox c m' n' len p = parseBox c m n len p

/-- What `_buf_unwrap` moves, where it does, are the same bytes. -/
def unwrapCarries (c : Mp4Codec κ) (b : Buffer) : Prop :=
  (unwrapped c b).Wf ∧ (unwrapped c b).size = b.size ∧ (unwrapped c b).content = b.content

/-- The box at `readp` is not there by half. -/
structure RoundClear (c : Mp4Codec κ) (bytes : ℕ) (b : Buffer) (p : Mp4 κ) : Prop where
  /-- if it is kept, it is all there and followed by a byte, or waited for -/
  kept : keptBox c (boxOf b.peek) = true →
    (unpackN b.peek 0 < bytes ∧
        Alone c b.peek (b.wrap - b.readp) (unpackN b.peek 0) (p.count (boxOf b.peek))) ∨
      (bytes < unpackN b.peek 0 ∧ boxOf b.peek ∈ c.waits)
  /-- if it is waited for, the buffer can hold it, and the bytes stay when it is unwrapped -/
  waits : bytes < boxConsume (boxOf b.peek) (unpackN b.peek 0) → boxOf b.peek ∈ c.waits →
    unpackN b.peek 0 ≤ b.size ∧ unwrapCarries c b

/-- The rounds of a call are clear, and each box that is passed has a length. -/
def roundsClear (c : Mp4Codec κ) : ℕ → ℕ → Buffer → Mp4 κ → Prop
  | 0, _, _, _ => False
  | fuel + 1, bytes, b, p =>
      bytes < 8 ∨
        (RoundClear c bytes b p ∧
          match boxStep c bytes b p with
          | .done _ _ _ => True
          | .next bytes' b' p' =>
              0 < boxConsume (boxOf b.peek) (unpackN b.peek 0) ∧
                roundsClear c fuel bytes' b' p')

theorem roundsClear_next {fuel bytes' : ℕ} (hround : RoundClear c bytes b p)
    (hstep : boxStep c bytes b p = .next bytes' b' p')
    (hpos : 0 < boxConsume (boxOf b.peek) (unpackN b.peek 0))
    (hrest : roundsClear c fuel bytes' b' p') : roundsClear c (fuel + 1) bytes b p := by
  refine .inr ⟨hround, ?_⟩
  rw [hstep]
  exact ⟨hpos, hrest⟩

theorem roundsClear_done {fuel : ℕ} {found : Found} (hround : RoundClear c bytes b p)
    (hstep : boxStep c bytes b p = .done found b' p') : roundsClear c (fuel + 1) bytes b p := by
  refine .inr ⟨hround, ?_⟩
  rw [hstep]
  trivial

/-- A parser has gone on from `q` to `q'`, of the same header. -/
structure GoesOn (c : Mp4Codec κ) (data : List UInt8) (q : ℕ) (b : Buffer) (p : Mp4 κ)
    (q' : ℕ) (b' : Buffer) (p' : Mp4 κ) : Prop where
  carries : Carries data q' b'
  taken : q' + bufUsed b' = q + bufUsed b
  pos : p'.pos < 2 ^ 32
  same : ∀ result, HeaderOf c data (q' + p'.consume) p'.ahead result ↔
    HeaderOf c data (q + p.consume) p.ahead result

theorem GoesOn.trans {q₁ q₂ q₃ : ℕ} {b₁ b₂ b₃ : Buffer} {p₁ p₂ p₃ : Mp4 κ}
    (h : GoesOn c data q₁ b₁ p₁ q₂ b₂ p₂) (h' : GoesOn c data q₂ b₂ p₂ q₃ b₃ p₃) :
    GoesOn c data q₁ b₁ p₁ q₃ b₃ p₃ :=
  ⟨h'.carries, h'.taken.trans h.taken, h'.pos, fun result => (h'.same result).trans (h.same result)⟩

theorem ahead_of_consume (hp : p.consume = 0) (hpos : p.pos < 2 ^ 32) : p.ahead = p := by
  cases p
  simp only at hp hpos
  simp only [Mp4.ahead, hp, Nat.add_zero, Nat.mod_eq_of_lt hpos]

/-- Some bytes are passed, the rest is to be consumed. -/
theorem ahead_of_part {n m : ℕ} (hle : n ≤ m) :
    Mp4.ahead { p.pass n with consume := m - n } =
      { p with pos := (p.pos + m) % 2 ^ 32, consume := 0 } := by
  simp only [Mp4.ahead, Mp4.pass, Nat.mod_add_mod]
  congr 2
  omega

theorem pass_of_consume (hp : p.consume = 0) (n : ℕ) :
    { p with pos := (p.pos + n) % 2 ^ 32, consume := 0 } = p.pass n := by
  simp only [Mp4.pass, hp]

/-- A box that is kept is passed as a whole. -/
theorem boxConsume_of_kept (hwhole : ∀ len, boxConsume c.config len = len) {box : Box}
    (h : keptBox c box = true) (len : ℕ) : boxConsume box len = len := by
  simp only [keptBox, Bool.or_eq_true, Bool.and_eq_true, decide_eq_true_eq, List.mem_cons,
    List.not_mem_nil, or_false] at h
  rcases h with (rfl | ⟨rfl, -⟩) | rfl | rfl | rfl | rfl
  · exact hwhole len
  all_goals rfl

/-- Nothing is kept of media data. -/
theorem keptBox_mdat (hmedia : c.config ≠ .mdat) : keptBox c .mdat = false := by
  simp [keptBox, hmedia.symm]

/-- A box that is not passed yet with 8 bytes is not a track. -/
theorem count_of_consume {box : Box} {len : ℕ} (h8 : 8 ≤ bytes)
    (hfew : bytes < boxConsume box len) (p : Mp4 κ) : p.count box = p := by
  cases box <;> first | rfl | exact absurd hfew (by simp only [boxConsume]; omega)

section Round

variable (h : Carries data q b) (hle : bytes ≤ bufContRead b) (h8 : 8 ≤ bytes)
include h hle h8

theorem Carries.room : q + 8 ≤ data.length := by
  have hused := h.used_le
  have hcont := h.wf.contRead_le_used
  omega

/-- The box at `readp` is the box of the stream at `q`. -/
theorem Carries.box_iff (hother : boxOf b.peek ≠ .mdat)
    (hthere : keptBox c (boxOf b.peek) → q + unpackN b.peek 0 ≤ data.length)
    (hparse : parseBox c (streamFrom data q) (data.length - q) (unpackN b.peek 0)
      (p.count (boxOf b.peek)) = some p') :
    HeaderOf c data (q + boxConsume (boxOf b.peek) (unpackN b.peek 0))
        (p'.pass (boxConsume (boxOf b.peek) (unpackN b.peek 0))) result ↔
      HeaderOf c data q p result := by
  have hroom := h.room hle h8
  rw [h.peek_box (by omega), h.peek_len (by omega)] at *
  exact headerOf_box_iff hroom hother hthere hparse

/-- What is kept of a box, unless it is waited for, is what is to be kept of it. -/
theorem parse_clear (hclear : RoundClear c bytes b p) :
    (keptBox c (boxOf b.peek) = true ∧ bytes < unpackN b.peek 0 ∧ boxOf b.peek ∈ c.waits) ∨
      ((keptBox c (boxOf b.peek) → unpackN b.peek 0 < bytes ∧
          q + unpackN b.peek 0 ≤ data.length) ∧
        (if bytes > unpackN b.peek 0 then
            parseBox c b.peek (b.wrap - b.readp) (unpackN b.peek 0) (p.count (boxOf b.peek))
          else some (p.count (boxOf b.peek))) =
        parseBox c (streamFrom data q) (data.length - q) (unpackN b.peek 0)
          (p.count (boxOf b.peek))) := by
  have hused := h.used_le
  have hcont := h.wf.contRead_le_used
  have hbox := h.peek_box (by omega)
  rcases (keptBox c (boxOf b.peek)).eq_false_or_eq_true with hkept | hkept
  · rcases hclear.kept hkept with ⟨hall, halone⟩ | ⟨hfew, hwait⟩
    · refine .inr ⟨fun _ => ⟨hall, by omega⟩, ?_⟩
      rw [if_pos hall]
      refine (halone _ _ (fun i hi => (h.peek ?_).symm) (by omega)).symm
      omega
    · exact .inl ⟨hkept, hfew, hwait⟩
  · refine .inr ⟨fun hk => absurd (hk.symm.trans hkept) (by decide), ?_⟩
    rw [parseBox_of_not_kept hkept, parseBox_of_not_kept (by rwa [← hbox]), ite_self]

/-- Media data are found at the first byte of audio, if there is a track. -/
theorem mediaStep_tells (hbox : boxOf b.peek = .mdat) (hp : p.consume = 0) :
    (mediaStep c bytes b p = .done .failed (bufIncReadp b 8) (p.pass 8) ∧
        HeaderOf c data q p none) ∨
      ∃ b' p', mediaStep c bytes b p = .done .media b' p' ∧
        HeaderOf c data q p (some p'.ahead) := by
  have hroom := h.room hle h8
  have hmdat : boxOf (streamFrom data q) = .mdat := by rwa [← h.peek_box (by omega)]
  unfold mediaStep
  dsimp only
  by_cases hplay : p.play = 0
  · exact .inl ⟨if_pos hplay, .noTrack hroom hmdat hplay⟩
  · right
    rw [if_neg hplay]
    have htells := HeaderOf.media (c := c) hroom hmdat hplay
    split
    · refine ⟨_, _, rfl, ?_⟩
      convert htells using 2
      simp only [Mp4.ahead, Mp4.atAudio, Mp4.pass, hp, Nat.add_zero, Nat.mod_mod]
    · refine ⟨_, _, rfl, ?_⟩
      convert htells using 2
      simp only [Mp4.ahead, Mp4.atAudio, Mp4.pass, hp]

/-- A box that is all there is passed, and one that nothing is kept of as far as it goes. -/
theorem passBox_goesOn (hother : boxOf b.peek ≠ .mdat)
    (hthere : keptBox c (boxOf b.peek) → q + unpackN b.peek 0 ≤ data.length)
    (hparse : parseBox c (streamFrom data q) (data.length - q) (unpackN b.peek 0)
      (p.count (boxOf b.peek)) = some p') (hp : p.consume = 0) (hpos : p.pos < 2 ^ 32)
    (hpass : boxConsume (boxOf b.peek) (unpackN b.peek 0) ≤ bytes ∨ boxOf b.peek ∉ c.waits) :
    (∃ bytes' b₁ p₁,
        passBox c bytes b p' (boxOf b.peek) (unpackN b.peek 0) = .next bytes' b₁ p₁ ∧
        bytes' ≤ bufContRead b₁ ∧ p₁.consume = 0 ∧ ∃ q₁, GoesOn c data q b p q₁ b₁ p₁) ∨
      ∃ b₁ p₁, passBox c bytes b p' (boxOf b.peek) (unpackN b.peek 0) = .done .more b₁ p₁ ∧
        ∃ q₁, GoesOn c data q b p q₁ b₁ p₁ := by
  have hcont := h.wf.contRead_le_used
  have hp' : p'.consume = 0 := (parseBox_consume hparse).trans ((count_consume p _).trans hp)
  have hsame : ∀ result, HeaderOf c data
      (q + boxConsume (boxOf b.peek) (unpackN b.peek 0))
      (p'.pass (boxConsume (boxOf b.peek) (unpackN b.peek 0))) result ↔
      HeaderOf c data q p result := fun _ => h.box_iff hle h8 hother hthere hparse
  rw [← ahead_of_consume hp hpos] at hsame
  unfold passBox
  by_cases hall : boxConsume (boxOf b.peek) (unpackN b.peek 0) ≤ bytes
  · refine .inl ⟨_, _, _, if_pos hall, ?_, hp', _, h.bufIncReadp (by omega), ?_, ?_, ?_⟩
    · have hrest := contRead_bufIncReadp (n := boxConsume (boxOf b.peek) (unpackN b.peek 0)) h.wf
      omega
    · rw [used_bufIncReadp h.wf (by omega)]
      omega
    · exact Nat.mod_lt _ (by decide)
    · intro result
      show HeaderOf c data (_ + p'.consume) (p'.pass _).ahead result ↔ _
      rw [ahead_of_consume (p := p'.pass _) hp' (Nat.mod_lt _ (by decide)), hp', hp]
      exact hsame result
  · have hskip := hpass.resolve_left hall
    rw [if_neg hall, if_pos hskip]
    refine .inr ⟨_, _, rfl, _, h.bufIncReadp (by omega), ?_, ?_, ?_⟩
    · rw [used_bufIncReadp h.wf (by omega)]
      omega
    · exact Nat.mod_lt _ (by decide)
    · intro result
      show HeaderOf c data (q + bytes + (_ - bytes))
        (Mp4.ahead { p'.pass bytes with consume := _ - bytes }) result ↔ _
      rw [ahead_of_part (by omega), pass_of_consume hp', hp]
      have hto : q + bytes + (boxConsume (boxOf b.peek) (unpackN b.peek 0) - bytes) =
        q + boxConsume (boxOf b.peek) (unpackN b.peek 0) := by omega
      rw [hto]
      exact hsame result

omit hle in
/-- A box that is waited for stays where it is in the stream. -/
theorem waits_goesOn (hclear : RoundClear c bytes b p) (hpos : p.pos < 2 ^ 32) (hfew : bytes < boxConsume (boxOf b.peek) (unpackN b.peek 0))
    (hwait : boxOf b.peek ∈ c.waits) :
    passBox c bytes b (p.count (boxOf b.peek)) (boxOf b.peek) (unpackN b.peek 0) =
        .done .more (unwrapped c b) p ∧
      GoesOn c data q b p q (unwrapped c b) p := by
  obtain ⟨hsize, hwf, -, hcontent⟩ := hclear.waits hfew hwait
  constructor
  · unfold passBox
    rw [if_neg (by omega), if_neg (not_not.mpr hwait), if_neg (by omega),
      count_of_consume h8 hfew]
    rfl
  · refine ⟨⟨hwf, by rw [hcontent]; exact h.bytes⟩, ?_, hpos, fun _ => Iff.rfl⟩
    rw [← Buffer.Wf.length_content, ← Buffer.Wf.length_content, hcontent]

/-- What a round says that is clear. -/
theorem boxStep_tells (hwhole : ∀ len, boxConsume c.config len = len)
    (hmedia : c.config ≠ .mdat) (hclear : RoundClear c bytes b p) (hp : p.consume = 0) (hpos : p.pos < 2 ^ 32) :
    match boxStep c bytes b p with
    | .done .failed _ _ => HeaderOf c data q p none
    | .done .media _ p' => HeaderOf c data q p (some p'.ahead)
    | .done .more b' p' => ∃ q', GoesOn c data q b p q' b' p'
    | .next bytes' b' p' =>
        bytes' ≤ bufContRead b' ∧ p'.consume = 0 ∧ ∃ q', GoesOn c data q b p q' b' p' := by
  have hroom := h.room hle h8
  unfold boxStep
  dsimp only
  rcases parse_clear h hle h8 hclear with ⟨hkept, hfew, hwait⟩ | ⟨hthere, hparse⟩
  · -- waited for, with less than its length in one piece
    have hlen := boxConsume_of_kept hwhole hkept (unpackN b.peek 0)
    have hother : boxOf b.peek ≠ .mdat := by
      intro hmdat
      rw [hmdat, keptBox_mdat hmedia] at hkept
      cases hkept
    obtain ⟨hpass, hgoes⟩ := waits_goesOn h h8 hclear hpos (by omega) hwait
    rw [if_neg (by omega)]
    dsimp only
    rw [if_neg hother, hpass]
    exact ⟨q, hgoes⟩
  rw [hparse]
  by_cases hmdat : boxOf b.peek = .mdat
  · -- nothing is kept of media data
    have hkept : keptBox c (boxOf (streamFrom data q)) = false := by
      rw [← h.peek_box (by omega), hmdat]
      exact keptBox_mdat hmedia
    rw [parseBox_of_not_kept hkept, hmdat]
    dsimp only
    rw [if_pos rfl]
    show match mediaStep c bytes b p with
      | .done .failed _ _ => HeaderOf c data q p none
      | .done .media _ p' => HeaderOf c data q p (some p'.ahead)
      | .done .more b' p' => ∃ q', GoesOn c data q b p q' b' p'
      | .next bytes' b' p' =>
          bytes' ≤ bufContRead b' ∧ p'.consume = 0 ∧ ∃ q', GoesOn c data q b p q' b' p'
    rcases mediaStep_tells h hle h8 hmdat hp with ⟨hstep, htells⟩ | ⟨b', p', hstep, htells⟩ <;>
      rw [hstep] <;> exact htells
  · rcases hkeep : parseBox c (streamFrom data q) (data.length - q) (unpackN b.peek 0)
      (p.count (boxOf b.peek)) with - | p'
    · dsimp only
      rw [h.peek_box (by omega), h.peek_len (by omega)] at *
      exact .error hroom hmdat (fun hk => (hthere hk).2) hkeep
    · dsimp only
      rw [if_neg hmdat]
      by_cases hpass : boxConsume (boxOf b.peek) (unpackN b.peek 0) ≤ bytes ∨
        boxOf b.peek ∉ c.waits
      · rcases passBox_goesOn h hle h8 hmdat (fun hk => (hthere hk).2) hkeep hp hpos hpass with
          ⟨bytes', b₁, p₁, hstep, hle', hp₁, hgoes⟩ | ⟨b₁, p₁, hstep, hgoes⟩
        · rw [hstep]
          exact ⟨hle', hp₁, hgoes⟩
        · rw [hstep]
          exact hgoes
      · obtain ⟨hfew, hwait⟩ := not_or.mp hpass
        have hkept : keptBox c (boxOf (streamFrom data q)) = false := by
          rcases (keptBox c (boxOf b.peek)).eq_false_or_eq_true with hkept | hkept
          · have hlen := boxConsume_of_kept hwhole hkept (unpackN b.peek 0)
            have hall := (hthere hkept).1
            omega
          · rwa [← h.peek_box (by omega)]
        rw [parseBox_of_not_kept hkept] at hkeep
        cases hkeep
        obtain ⟨hstep, hgoes⟩ :=
          waits_goesOn h h8 hclear hpos (by omega) (not_not.mp hwait)
        rw [hstep]
        exact ⟨q, hgoes⟩

end Round

/-! ### A call that is clear -/

/-- What a call says: the error or the media data that the header says, or where it goes on. -/
def Tells (c : Mp4Codec κ) (data : List UInt8) (q : ℕ) (b : Buffer) (p : Mp4 κ) :
    Found → Buffer → Mp4 κ → Prop
  | .failed, _, _ => HeaderOf c data (q + p.consume) p.ahead none
  | .media, _, p' => HeaderOf c data (q + p.consume) p.ahead (some p'.ahead)
  | .more, b', p' => ∃ q', GoesOn c data q b p q' b' p'

theorem GoesOn.tells {q₁ : ℕ} {b₁ : Buffer} {p₁ : Mp4 κ} {found : Found}
    (h : GoesOn c data q b p q₁ b₁ p₁) (htells : Tells c data q₁ b₁ p₁ found b' p') :
    Tells c data q b p found b' p' := by
  cases found with
  | failed => exact (h.same _).mp htells
  | media => exact (h.same _).mp htells
  | more =>
      obtain ⟨q', hgoes⟩ := htells
      exact ⟨q', h.trans hgoes⟩

theorem headerLoop_tells (hwhole : ∀ len, boxConsume c.config len = len)
    (hmedia : c.config ≠ .mdat) {fuel : ℕ} (h : Carries data q b) (hle : bytes ≤ bufContRead b)
    (hp : p.consume = 0) (hpos : p.pos < 2 ^ 32) (hclear : roundsClear c fuel bytes b p) :
    ∃ found b' p', headerLoop c fuel bytes b p = some (found, b', p') ∧
      Tells c data q b p found b' p' := by
  induction fuel generalizing bytes b p q with
  | zero => exact hclear.elim
  | succ fuel ih =>
      rw [headerLoop]
      split
      · exact ⟨_, _, _, rfl, q, h, rfl, hpos, fun _ => Iff.rfl⟩
      rename_i h8
      obtain ⟨hround, hrest⟩ := hclear.resolve_left h8
      have htells := boxStep_tells h hle (by omega) hwhole hmedia hround hp hpos
      have hhere : q + p.consume = q := by rw [hp, Nat.add_zero]
      have hahead := ahead_of_consume hp hpos
      rcases hstep : boxStep c bytes b p with ⟨found, b', p'⟩ | ⟨bytes', b', p'⟩
      · rw [hstep] at htells
        refine ⟨found, b', p', rfl, ?_⟩
        cases found with
        | failed => rwa [Tells, hhere, hahead]
        | media => rwa [Tells, hhere, hahead]
        | more => exact htells
      · rw [hstep] at htells hrest
        obtain ⟨hle', hp', q', hgoes⟩ := htells
        obtain ⟨found, b₂, p₂, hloop, htells⟩ := ih hgoes.carries hle' hp' hgoes.pos hrest.2
        exact ⟨found, b₂, p₂, hloop, hgoes.tells htells⟩

/-- What is left of the buffer when a box is unwrapped, if it is clear. -/
theorem roundsClear.ends {fuel : ℕ} (hclear : roundsClear c fuel bytes b p) :
    headerEnds c (fun _ => True) fuel bytes b p := by
  induction fuel generalizing bytes b p with
  | zero => exact hclear.elim
  | succ fuel ih =>
      refine hclear.imp_right fun ⟨hround, hrest⟩ => ?_
      rcases hstep : boxStep c bytes b p with ⟨found, b', p'⟩ | ⟨bytes', b', p'⟩
      · refine ⟨fun _ => trivial, fun _ hwaits => ?_⟩
        simp only [waitsFor, Bool.and_eq_true, decide_eq_true_eq] at hwaits
        obtain ⟨-, hwf, hsize, hcontent⟩ := hround.waits hwaits.1.1 hwaits.1.2
        refine ⟨hwf, hsize, ?_⟩
        rw [← Buffer.Wf.length_content, ← Buffer.Wf.length_content, hcontent]
      · rw [hstep] at hrest
        exact ⟨hrest.1, ih hrest.2⟩

/-- A call of `read_mp4_header` is clear: a box that begins is in one piece with its head, one
that is waited for comes to be in one piece once it is there, and the rounds are clear. -/
structure CallClear (c : Mp4Codec κ) (b : Buffer) (p : Mp4 κ) : Prop where
  head : 8 ≤ bufUsed b → 8 ≤ bufContRead b
  waits : waitsFor c (bufContRead b) b = true →
    boxConsume (boxOf b.peek) (unpackN b.peek 0) ≤ bufUsed b →
    bufContRead b < bufContRead (unwrapped c b)
  rounds : roundsClear c (bufContRead b + 1) (bufContRead b) b p

/-- What a call says that is clear. -/
theorem readMp4Header_tells (hwhole : ∀ len, boxConsume c.config len = len)
    (hmedia : c.config ≠ .mdat) (h : Carries data q b) (hp : p.consume = 0)
    (hpos : p.pos < 2 ^ 32) (hclear : CallClear c b p) :
    ∃ found b' p', readMp4Header c b p = some (found, b', p') ∧
      Tells c data q b p found b' p' := by
  unfold readMp4Header
  rw [Nat.min_eq_right h.wf.contRead_le_used]
  exact headerLoop_tells hwhole hmedia h (Nat.le_refl _) hp hpos hclear.rounds

/-- A box that is not media data is there, where the stream says anything. -/
theorem HeaderOf.there (hwhole : ∀ len, boxConsume c.config len = len)
    (htells : HeaderOf c data q p result) (hother : boxOf (streamFrom data q) ≠ .mdat) :
    q + boxConsume (boxOf (streamFrom data q)) (unpackN (streamFrom data q) 0) ≤
      data.length := by
  cases htells with
  | media _ hbox => exact absurd hbox hother
  | noTrack _ hbox => exact absurd hbox hother
  | error _ _ hthere hparse =>
      rcases (keptBox c (boxOf (streamFrom data q))).eq_false_or_eq_true with hkept | hkept
      · rw [boxConsume_of_kept hwhole hkept]
        exact hthere hkept
      · rw [parseBox_of_not_kept hkept] at hparse
        cases hparse
  | box _ _ _ _ hrest =>
      have hroom := hrest.room
      omega

/-! ### A stream arrives -/

/-- A decode function that reads a header: its parser, and the bytes it consumes in a call. -/
structure HeaderReader (κ : Type) where
  codec : Mp4Codec κ
  /-- the box with the configuration is passed as a whole -/
  whole : ∀ len, boxConsume codec.config len = len
  /-- media data are not parsed, and not waited for -/
  media : codec.config ≠ .mdat ∧ .mdat ∉ codec.waits
  reads : Buffer → ℕ
  reads_le : ∀ b, b.Wf → reads b ≤ bufUsed b
  reads_pos : ∀ b, b.Wf → 0 < bufUsed b → 0 < reads b

/-- `alac_decode`, as long as it reads a header -/
def alacReader (create : List UInt8 → AlacInfo) (malloc : ℕ → Bool) : HeaderReader Alac where
  codec := alacCodec create malloc
  whole _ := rfl
  media := by simp [alacCodec]
  reads := bufUsed
  reads_le _ _ := Nat.le_refl _
  reads_pos _ _ h := h

/-- `helixaac_decode`, as long as it reads the header of an MP4 stream -/
def helixReader (malloc : ℕ → Bool) : HeaderReader Helix where
  codec := helixCodec malloc
  whole _ := rfl
  media := by simp [helixCodec]
  reads b := min (bufUsed b) (bufContRead b)
  reads_le _ _ := Nat.min_le_left _ _
  reads_pos b h hused := Nat.lt_min.mpr ⟨hused, h.contRead_pos hused⟩

/-- `streambuf` and the parser, with how much of the stream has arrived; `newStream` until the
header is found. -/
structure Feed (κ : Type) where
  streambuf : Buffer
  mp4 : Mp4 κ
  arrived : ℕ
  newStream : Bool

/-- `n` more bytes of the stream arrive, or the decode function is called. -/
inductive FeedEvent
  | fill (n : ℕ)
  | call
  deriving DecidableEq

variable {R : HeaderReader κ}

/-- A call, as long as there is a header: what it finds in the end, `none` for an error. -/
def headerCall (R : HeaderReader κ) (s : Feed κ) : Feed κ × List (Option (Mp4 κ)) :=
  if s.mp4.consume ≠ 0 then
    let reached := s.mp4.reach s.streambuf (R.reads s.streambuf)
    ({ s with streambuf := reached.1, mp4 := reached.2 }, [])
  else
    match readMp4Header R.codec s.streambuf s.mp4 with
    | none => (s, [])
    | some (.more, b, p) => ({ s with streambuf := b, mp4 := p }, [])
    | some (.failed, b, p) => (⟨b, p, s.arrived, false⟩, [none])
    | some (.media, b, p) => (⟨b, p, s.arrived, false⟩, [some p.ahead])

/-- The bytes of a stream arrive in `streambuf` in any amounts, and the decode function is called at
any time. -/
def headerMachine (R : HeaderReader κ) (data : List UInt8) :
    Runs.Machine (Feed κ) FeedEvent (Option (Mp4 κ)) where
  step s
    | .fill n =>
        let bs := (data.drop s.arrived).take n
        if n ≤ min (bufSpace s.streambuf) (bufContWrite s.streambuf) ∧
            s.arrived + n ≤ data.length then
          ({ s with
              streambuf := bufIncWritep (bufStore s.streambuf bs) bs.length
              arrived := s.arrived + n }, [])
        else (s, [])
    | .call => if s.newStream then headerCall R s else (s, [])

/-- The condition on a call. -/
def FeedEvent.clear (R : HeaderReader κ) (s : Feed κ) (e : FeedEvent) : Prop :=
  e = .call → s.newStream = true → s.mp4.consume = 0 →
    CallClear R.codec s.streambuf s.mp4

/-- Of the stream that is arriving, the header says what it says from the start, where the parser
has `p₀`. -/
structure Reading (R : HeaderReader κ) (data : List UInt8) (p₀ : Mp4 κ) (s : Feed κ) : Prop where
  newStream : s.newStream = true
  arrived : s.arrived ≤ data.length
  reads : ∃ q, q + bufUsed s.streambuf = s.arrived ∧ Carries data q s.streambuf ∧
    s.mp4.pos < 2 ^ 32 ∧
    ∀ result, HeaderOf R.codec data (q + s.mp4.consume) s.mp4.ahead result ↔
      HeaderOf R.codec data 0 p₀ result

variable {p₀ : Mp4 κ} {s : Feed κ}

/-- A parser that goes on is still reading. -/
theorem Reading.goesOn (h : s.newStream = true) (harrived : s.arrived ≤ data.length)
    (hq : q + bufUsed s.streambuf = s.arrived)
    (hsame : ∀ result, HeaderOf R.codec data (q + s.mp4.consume) s.mp4.ahead result ↔
      HeaderOf R.codec data 0 p₀ result) {q' : ℕ}
    (hgoes : GoesOn R.codec data q s.streambuf s.mp4 q' b' p') :
    Reading R data p₀ { s with streambuf := b', mp4 := p' } where
  newStream := h
  arrived := harrived
  reads := ⟨q', hgoes.taken.trans hq, hgoes.carries, hgoes.pos, fun result =>
    (hgoes.same result).trans (hsame result)⟩

/-- Bytes to consume are taken as the parser goes on. -/
theorem reach_goesOn (h : Carries data q b) (hle : bytes ≤ bufUsed b) :
    GoesOn c data q b p (q + min p.consume bytes) (p.reach b bytes).1 (p.reach b bytes).2 where
  carries := h.bufIncReadp (by omega)
  taken := by
    show _ + bufUsed (bufIncReadp b _) = _
    rw [used_bufIncReadp h.wf (by omega)]
    omega
  pos := Nat.mod_lt _ (by decide)
  same := by
    intro result
    show HeaderOf c data (q + min p.consume bytes + (p.consume - min p.consume bytes))
      (Mp4.ahead { p.pass _ with consume := p.consume - min p.consume bytes }) result ↔ _
    rw [ahead_of_part (Nat.min_le_left _ _)]
    have hto : q + min p.consume bytes + (p.consume - min p.consume bytes) = q + p.consume := by
      omega
    rw [hto]
    exact Iff.rfl

/-- Bytes that arrive change nothing of what the header says. -/
theorem fill_reading (hread : Reading R data p₀ s) (n : ℕ) :
    ((headerMachine R data).step s (.fill n)).2 = [] ∧
      Reading R data p₀ ((headerMachine R data).step s (.fill n)).1 := by
  obtain ⟨hnew, harrived, q, hq, hcarries, hpos, hsame⟩ := hread
  unfold headerMachine
  dsimp only
  split
  · rename_i hroom
    obtain ⟨hfilled, hused⟩ := hcarries.fill hq hroom.1 hroom.2 rfl
    exact ⟨rfl, hnew, hroom.2, q, hused, hfilled, hpos, hsame⟩
  · exact ⟨rfl, hnew, harrived, q, hq, hcarries, hpos, hsame⟩

/-- What a call says is what the header says, or it is still reading. -/
theorem call_reading (hread : Reading R data p₀ s) (hclear : FeedEvent.call.clear R s) :
    ((headerCall R s).2 = [] ∧ Reading R data p₀ (headerCall R s).1) ∨
      ∃ result, (headerCall R s).2 = [result] ∧ (headerCall R s).1.newStream = false ∧
        HeaderOf R.codec data 0 p₀ result := by
  obtain ⟨hnew, harrived, q, hq, hcarries, hpos, hsame⟩ := hread
  unfold headerCall
  split
  · refine .inl ⟨rfl, Reading.goesOn hnew harrived hq hsame (reach_goesOn hcarries ?_)⟩
    exact R.reads_le _ hcarries.wf
  · rename_i hp
    obtain ⟨found, b', p', hcall, htells⟩ :=
      readMp4Header_tells R.whole R.media.1 hcarries (not_not.mp hp) hpos
        (hclear rfl hnew (not_not.mp hp))
    rw [hcall]
    cases found with
    | more =>
        obtain ⟨q', hgoes⟩ := htells
        exact .inl ⟨rfl, Reading.goesOn hnew harrived hq hsame hgoes⟩
    | media => exact .inr ⟨_, rfl, rfl, (hsame _).mp htells⟩
    | failed => exact .inr ⟨_, rfl, rfl, (hsame _).mp htells⟩

variable (data) in
/-- Once the header is found, there is nothing more to find. -/
theorem run_found {s : Feed κ} (hnew : s.newStream = false) (es : List FeedEvent) :
    ((headerMachine R data).run s es).2 = [] ∧
      ((headerMachine R data).run s es).1.newStream = false := by
  induction es generalizing s with
  | nil => exact ⟨rfl, hnew⟩
  | cons e es ih =>
      have hstep : ((headerMachine R data).step s e).2 = [] ∧
          ((headerMachine R data).step s e).1.newStream = false := by
        cases e with
        | fill n =>
            unfold headerMachine
            dsimp only
            split <;> exact ⟨rfl, hnew⟩
        | call =>
            unfold headerMachine
            dsimp only
            rw [hnew]
            exact ⟨rfl, hnew⟩
      obtain ⟨hlog, hdone⟩ := ih hstep.2
      exact ⟨by rw [Runs.Machine.run, hstep.1, hlog]; rfl, hdone⟩

/-- A run that is clear is still reading, or has found what the header says. -/
theorem run_reading {es : List FeedEvent} (hread : Reading R data p₀ s)
    (hclear : (headerMachine R data).Along (fun s e => e.clear R s) s es) :
    (((headerMachine R data).run s es).2 = [] ∧
        Reading R data p₀ ((headerMachine R data).run s es).1) ∨
      ∃ result, ((headerMachine R data).run s es).2 = [result] ∧
        ((headerMachine R data).run s es).1.newStream = false ∧
        HeaderOf R.codec data 0 p₀ result := by
  induction es generalizing s with
  | nil => exact .inl ⟨rfl, hread⟩
  | cons e es ih =>
      have hstep : (((headerMachine R data).step s e).2 = [] ∧
            Reading R data p₀ ((headerMachine R data).step s e).1) ∨
          ∃ result, ((headerMachine R data).step s e).2 = [result] ∧
            ((headerMachine R data).step s e).1.newStream = false ∧
            HeaderOf R.codec data 0 p₀ result := by
        cases e with
        | fill n => exact .inl (fill_reading hread n)
        | call =>
            have hcall : (headerMachine R data).step s .call = headerCall R s :=
              if_pos hread.newStream
            rw [hcall]
            exact call_reading hread hclear.1
      rcases hstep with ⟨hlog, hread'⟩ | ⟨result, hlog, hdone, htells⟩
      · rw [Runs.Machine.run, hlog, List.nil_append]
        exact ih hread' hclear.2
      · obtain ⟨hrest, hend⟩ := run_found data hdone es
        refine .inr ⟨result, ?_, hend, htells⟩
        rw [Runs.Machine.run, hlog, hrest]
        rfl

/-- Where all has arrived and the header says something, a call says it, or leaves less. -/
theorem call_left_lt (hread : Reading R data p₀ s) (hall : s.arrived = data.length)
    (htells : HeaderOf R.codec data 0 p₀ result) (hclear : FeedEvent.call.clear R s) :
    (headerCall R s).2 ≠ [] ∨ ((headerCall R s).1.arrived = data.length ∧
      mp4Left (headerCall R s).1.streambuf (headerCall R s).1.mp4 false <
        mp4Left s.streambuf s.mp4 false) := by
  obtain ⟨hnew, harrived, q, hq, hcarries, hpos, hsame⟩ := hread
  have hhere := (hsame _).mpr htells
  have hroom := hhere.room
  unfold headerCall
  split
  · rename_i hp
    have hread := R.reads_pos _ hcarries.wf (by omega)
    exact .inr ⟨hall, (reach_left_lt hcarries.wf hp hread (R.reads_le _ hcarries.wf) false).2⟩
  rename_i hp
  have hp := not_not.mp hp
  obtain ⟨hhead, hwaits, hrounds⟩ := hclear rfl hnew hp
  rw [hp, Nat.add_zero, ahead_of_consume hp hpos] at hhere
  have h8 : 8 ≤ bufContRead s.streambuf := hhead (by omega)
  have hgets : headerClear R.codec (fun _ => True) s.streambuf s.mp4 := by
    refine ⟨h8, fun hw => hwaits hw ?_, hrounds.ends⟩
    simp only [waitsFor, Bool.and_eq_true, decide_eq_true_eq] at hw
    have hother : boxOf s.streambuf.peek ≠ .mdat := fun hmdat => R.media.2 (hmdat ▸ hw.1.2)
    rw [hcarries.peek_box h8, hcarries.peek_len h8] at *
    have hthere := hhere.there R.whole hother
    omega
  obtain ⟨found, b', p', hcall, -, hrest⟩ := readMp4Header_clear hcarries.wf hgets
  rw [hcall]
  cases found with
  | failed => exact .inl (List.cons_ne_nil _ _)
  | media => exact .inl (List.cons_ne_nil _ _)
  | more =>
      obtain ⟨hshrinks, hmore⟩ := hrest (by simp)
      exact .inr ⟨hall, mp4Left_lt_of_shrinks hshrinks hcarries.wf hmore false⟩

/-- All has arrived, and the header is still being read. -/
structure Waiting (R : HeaderReader κ) (data : List UInt8) (p₀ : Mp4 κ) (s : Feed κ) : Prop where
  reading : Reading R data p₀ s
  all : s.arrived = data.length

theorem call_progresses {e : FeedEvent} (htells : HeaderOf R.codec data 0 p₀ result)
    (hwait : Waiting R data p₀ s) (he : e = .call ∧ e.clear R s) :
    0 < Runs.total (fun _ => 1) ((headerMachine R data).step s e).2 ∨
      (Waiting R data p₀ ((headerMachine R data).step s e).1 ∧
        mp4Left ((headerMachine R data).step s e).1.streambuf
            ((headerMachine R data).step s e).1.mp4 false <
          mp4Left s.streambuf s.mp4 false) := by
  obtain ⟨rfl, hclear⟩ := he
  have hcall : (headerMachine R data).step s .call = headerCall R s :=
    if_pos hwait.reading.newStream
  rw [hcall]
  rcases call_reading hwait.reading hclear with ⟨hlog, hread'⟩ | ⟨found, hlog, -, -⟩
  · rcases call_left_lt hwait.reading hwait.all htells hclear with hne | ⟨hall', hlt⟩
    · exact absurd hlog hne
    · exact .inr ⟨⟨hread', hall'⟩, hlt⟩
  · rw [hlog, Runs.total_cons]
    exact .inl (Nat.lt_of_lt_of_le Nat.one_pos (Nat.le_add_right _ _))

theorem along_calls {n : ℕ}
    (hclear : (headerMachine R data).Along (fun s e => e.clear R s) s (List.replicate n .call)) :
    (headerMachine R data).Along (fun s e => e = .call ∧ e.clear R s) s
      (List.replicate n .call) := by
  induction n generalizing s with
  | zero => trivial
  | succ n ih => exact ⟨⟨rfl, hclear.1⟩, ih hclear.2⟩

/-- Calls that are clear find what the header says, once all has arrived. -/
theorem run_calls {n : ℕ} (hwait : Waiting R data p₀ s)
    (htells : HeaderOf R.codec data 0 p₀ result)
    (hclear : (headerMachine R data).Along (fun s e => e.clear R s) s (List.replicate n .call))
    (hn : mp4Left s.streambuf s.mp4 false < n) :
    ((headerMachine R data).run s (List.replicate n .call)).2 = [result] := by
  have hlen : mp4Left s.streambuf s.mp4 false < (List.replicate n FeedEvent.call).length := by
    rwa [List.length_replicate]
  have hpos := Runs.Machine.run_progresses (headerMachine R data) (I := Waiting R data p₀)
    (w := fun _ => 1) (μ := fun s => mp4Left s.streambuf s.mp4 false)
    (fun _ _ => call_progresses htells) hwait (along_calls hclear) hlen
  rcases run_reading hwait.reading hclear with ⟨hlog, -⟩ | ⟨found, hlog, -, hfound⟩
  · rw [hlog] at hpos
    exact absurd hpos (Nat.lt_irrefl 0)
  · rw [hlog, hfound.unique htells]

/-- A new stream: nothing has arrived, and the parser has `p₀`. -/
structure Opened (p₀ : Mp4 κ) (s : Feed κ) : Prop where
  newStream : s.newStream = true
  arrived : s.arrived = 0
  mp4 : s.mp4 = p₀
  consume : p₀.consume = 0
  pos : p₀.pos = 0
  wf : s.streambuf.Wf
  empty : s.streambuf.content = []

theorem Opened.reading (h : Opened p₀ s) : Reading R data p₀ s := by
  obtain ⟨hnew, harrived, rfl, hp, hpos, hwf, hempty⟩ := h
  have hused : bufUsed s.streambuf = 0 := by
    rw [← Buffer.Wf.length_content, hempty]
    rfl
  refine ⟨hnew, by omega, 0, by omega, ⟨hwf, ?_⟩, by omega, fun _ => ?_⟩
  · rw [hempty]
    exact List.nil_prefix
  · rw [hp, ahead_of_consume hp (by omega)]

/-- The header of a stream does not depend on how the stream arrives: of two runs that are clear, in
which the bytes arrive in any amounts at any place of the ring, the one finds what the other does,
and it does find it once all has arrived and enough calls are made. -/
theorem header_same (R : HeaderReader κ) (data : List UInt8) (p₀ : Mp4 κ) (s₁ s₂ : Feed κ)
    (es₁ es₂ : List FeedEvent) (h₁ : Opened p₀ s₁) (h₂ : Opened p₀ s₂)
    (hclear₁ : (headerMachine R data).Along (fun s e => e.clear R s) s₁ es₁)
    (hclear₂ : (headerMachine R data).Along (fun s e => e.clear R s) s₂ es₂)
    (hfound : ((headerMachine R data).run s₁ es₁).2 ≠ []) :
    (((headerMachine R data).run s₂ es₂).2 ≠ [] →
        ((headerMachine R data).run s₂ es₂).2 = ((headerMachine R data).run s₁ es₁).2) ∧
      ∀ n, ((headerMachine R data).run s₂ es₂).1.arrived = data.length →
        mp4Left ((headerMachine R data).run s₂ es₂).1.streambuf
            ((headerMachine R data).run s₂ es₂).1.mp4 false < n →
        (headerMachine R data).Along (fun s e => e.clear R s)
          ((headerMachine R data).run s₂ es₂).1 (List.replicate n .call) →
        ((headerMachine R data).run s₂ (es₂ ++ List.replicate n .call)).2 =
          ((headerMachine R data).run s₁ es₁).2 := by
  rcases run_reading h₁.reading hclear₁ with ⟨hnone, -⟩ | ⟨result, hlog₁, -, htells⟩
  · exact absurd hnone hfound
  rw [hlog₁]
  rcases run_reading h₂.reading hclear₂ with ⟨hlog₂, hread⟩ | ⟨result₂, hlog₂, hdone, htells₂⟩
  · refine ⟨fun hne => absurd hlog₂ hne, fun n hall hn hcalls => ?_⟩
    rw [Runs.Machine.run_append, hlog₂, List.nil_append]
    exact run_calls ⟨hread, hall⟩ htells hcalls hn
  · rw [hlog₂, htells₂.unique htells]
    refine ⟨fun _ => rfl, fun n _ _ _ => ?_⟩
    rw [Runs.Machine.run_append, hlog₂, (run_found data hdone _).1, htells₂.unique htells]
    rfl

section Example

/-- An alac stream: a track, a configuration with an empty cookie, media data. -/
def trackBytes : List UInt8 :=
  [0, 0, 0, 8] ++ ascii ['t', 'r', 'a', 'k'] ++ ([0, 0, 0, 36] ++ ascii ['a', 'l', 'a', 'c'] ++
    List.replicate 28 0) ++ ([0, 0, 0, 8] ++ ascii ['m', 'd', 'a', 't'])

/-- `alac_decode`, as long as it reads a header, with what `createDecoder` and `malloc` answer. -/
def trackReader : HeaderReader Alac :=
  alacReader (fun _ => ⟨16, 44100, 2, 4096⟩) (fun _ => true)

/-- A new stream, with a ring of so many bytes. -/
def newFeed (size : ℕ) : Feed Alac := ⟨bufInit ⟨0, fun _ => 0⟩ size, alacOpen, 0, true⟩

theorem opened_newFeed {size : ℕ} (h : 0 < size) : Opened alacOpen (newFeed size) :=
  ⟨rfl, rfl, rfl, rfl, rfl, wf_bufInit _ h, content_bufInit _ _⟩

/-- What is kept of an empty cookie is decided by the box. -/
theorem alone_track {m : ℕ → UInt8} {n : ℕ} {p : Mp4 Alac} (hbox : boxOf m = .alac) :
    Alone trackReader.codec m n 36 p := by
  intro m' n' hm _
  have hbox' : boxOf m' = .alac := by
    rw [← hbox]
    unfold boxOf
    rw [hm 4 (by decide), hm 5 (by decide), hm 6 (by decide), hm 7 (by decide)]
  unfold parseBox
  rw [hbox, hbox']
  rfl

/-- The box with the configuration is all there, and followed by a byte. -/
theorem roundClear_track {b : Buffer} {p : Mp4 Alac} {bytes : ℕ} (hbox : boxOf b.peek = .alac)
    (hlen : unpackN b.peek 0 = 36) (hall : 36 < bytes) :
    RoundClear trackReader.codec bytes b p where
  kept := by
    rw [hlen]
    exact fun _ => .inl ⟨hall, alone_track hbox⟩
  waits := by
    rw [hbox, hlen]
    exact fun hfew => absurd hfew (by simp only [boxConsume]; omega)

/-- Nothing is kept of a box that is all there. -/
theorem roundClear_other {b : Buffer} {p : Mp4 Alac} {bytes : ℕ}
    (hkept : keptBox trackReader.codec (boxOf b.peek) = false)
    (hall : boxConsume (boxOf b.peek) (unpackN b.peek 0) ≤ bytes) :
    RoundClear trackReader.codec bytes b p where
  kept hk := absurd (hkept.symm.trans hk) (by decide)
  waits hfew := absurd hfew (Nat.not_lt.mpr hall)

/-- The header is found at once, and in two pieces that do not end with the configuration. -/
theorem header_same_run :
    ((headerMachine trackReader trackBytes).run (newFeed 60)
        [.fill 8, .call, .fill 44, .call]).2 =
      ((headerMachine trackReader trackBytes).run (newFeed 64) [.fill 52, .call]).2 := by
  refine (header_same trackReader trackBytes alacOpen (newFeed 64) (newFeed 60) [.fill 52, .call]
    [.fill 8, .call, .fill 44, .call] (opened_newFeed (by decide)) (opened_newFeed (by decide))
    ⟨nofun, fun _ _ _ => ⟨fun _ => by decide, fun hw => absurd hw (by decide), ?_⟩, trivial⟩
    ⟨nofun, fun _ _ _ => ⟨fun _ => by decide, fun hw => absurd hw (by decide), ?_⟩, nofun,
      fun _ _ _ => ⟨fun _ => by decide, fun hw => absurd hw (by decide), ?_⟩, trivial⟩
    (by decide)).1 (by decide)
  · show roundsClear _ 53 52 _ _
    refine roundsClear_next (roundClear_other (by decide) (by decide)) rfl (by decide) ?_
    refine roundsClear_next (roundClear_track (by decide) (by decide) (by decide)) rfl
      (by decide) ?_
    exact roundsClear_done (roundClear_other (by decide) (by decide)) rfl
  · show roundsClear _ 9 8 _ _
    refine roundsClear_next (roundClear_other (by decide) (by decide)) rfl (by decide) ?_
    exact .inl (by decide)
  · show roundsClear _ 45 44 _ _
    refine roundsClear_next (roundClear_track (by decide) (by decide) (by decide)) rfl
      (by decide) ?_
    exact roundsClear_done (roundClear_other (by decide) (by decide)) rfl

/-- A header that is lost: when the box with the configuration is the last that has arrived, it is
passed and not parsed, and there is no track when the media data come. -/
theorem header_split :
    ¬ ∀ (R : HeaderReader Alac) (data : List UInt8) (p₀ : Mp4 Alac) (s₁ s₂ : Feed Alac)
      (es₁ es₂ : List FeedEvent), Opened p₀ s₁ → Opened p₀ s₂ →
      ((headerMachine R data).run s₁ es₁).2 ≠ [] → ((headerMachine R data).run s₂ es₂).2 ≠ [] →
      ((headerMachine R data).run s₂ es₂).2 = ((headerMachine R data).run s₁ es₁).2 := by
  intro hall
  have h := hall trackReader trackBytes alacOpen (newFeed 64) (newFeed 64) [.fill 52, .call]
    [.fill 44, .call, .fill 8, .call] (opened_newFeed (by decide)) (opened_newFeed (by decide))
    (by decide) (by decide)
  revert h
  decide

end Example

end SqueezeliteMuse
