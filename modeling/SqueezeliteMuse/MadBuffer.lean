/-
SqueezeliteMuse/MadBuffer.lean

How `mad_decode` gives an MP3 stream to libmad.

The tag in front is skipped.  Then each call moves what libmad has left of `readbuf` to its start,
fills it up out of `streambuf`, and gives it to libmad, which decodes frames until it fails; at the
end of the stream zeros are put behind.  libmad is not in the repository: what it answers in a call
is in `MadAnswer`, and `MadAnswer.Lawful` is what it promises.  The samples are left out, and so are
the numbers for gapless.

Main result: `mad_buffers`: as long as the tag is seen and libmad leaves room for the zeros, a run
stays in `readbuf` and gives the bytes behind the tag to libmad, once and in order; and when the
stream has ended it completes, unless it ends in its tag or libmad gets on too slowly.
-/
import SqueezeliteMuse.HeaderChunks

namespace SqueezeliteMuse

/-! ### libmad -/

/-- `enum mad_error` -/
inductive MadError
  | none | buflen | bufptr | nomem
  | lostsync | badlayer | badbitrate | badsamplerate | bademphasis
  | badcrc | badbitalloc | badscalefactor | badmode | badframelen | badbigvalues | badblocktype
  | badscfsi | baddataptr | badpart3len | badhufftable | badhuffdata | badstereo
  deriving DecidableEq

def MadError.code : MadError → ℕ
  | .none => 0x0000
  | .buflen => 0x0001
  | .bufptr => 0x0002
  | .nomem => 0x0031
  | .lostsync => 0x0101
  | .badlayer => 0x0102
  | .badbitrate => 0x0103
  | .badsamplerate => 0x0104
  | .bademphasis => 0x0105
  | .badcrc => 0x0201
  | .badbitalloc => 0x0211
  | .badscalefactor => 0x0221
  | .badmode => 0x0222
  | .badframelen => 0x0231
  | .badbigvalues => 0x0232
  | .badblocktype => 0x0233
  | .badscfsi => 0x0234
  | .baddataptr => 0x0235
  | .badpart3len => 0x0236
  | .badhufftable => 0x0237
  | .badhuffdata => 0x0238
  | .badstereo => 0x0239

/-- `MAD_RECOVERABLE` -/
def MadError.recoverable (e : MadError) : Bool := e.code &&& 0xff00 ≠ 0

/-- An error after which `mad_decode` is called again, at the end of the stream as well. -/
def MadError.again (e : MadError) : Bool := e.recoverable && e ≠ .lostsync && e ≠ .badbitrate

/-- `MAD_BUFFER_GUARD` -/
def MAD_BUFFER_GUARD : ℕ := 8

/-- `READBUF_SIZE` -/
def READBUF_SIZE : ℕ := 2048

/-- What libmad does in a call: where `next_frame` is after each frame that it decodes, and the error
that it fails with in the end, with `next_frame` then. -/
structure MadAnswer where
  frames : List ℕ
  error : MadError
  last : ℕ

/-- What libmad promises for a buffer of `n` bytes: `next_frame` stays in the buffer, and advances
unless it needs more data. -/
structure MadAnswer.Lawful (a : MadAnswer) (n : ℕ) : Prop where
  advances : (0 :: a.frames).Pairwise (· < ·)
  inside : a.last ≤ n
  after : ∀ f ∈ a.frames, f ≤ a.last
  fails : a.error ≠ .buflen → ∀ f ∈ 0 :: a.frames, f < a.last

/-! ### The code -/

/-- What `struct mad` has of the input: the `readbuf_len` bytes of `readbuf`, and where `next_frame`
is in it. -/
structure Mad where
  readbuf : List UInt8
  next : Option ℕ
  checktags : ℕ
  consume : ℕ

/-- `mad_open` -/
def madOpen : Mad := ⟨[], none, 1, 0⟩

/-- The size in a tag, encoded as syncsafe integer; add 10 if footer present. -/
def id3Size (m : ℕ → UInt8) : ℕ :=
  if m 0 = 73 ∧ m 1 = 68 ∧ m 2 = 51 ∧ m 6 < 0x80 ∧ m 7 < 0x80 ∧ m 8 < 0x80 ∧ m 9 < 0x80 then
    10 + (m 6).toNat * 2 ^ 21 + (m 7).toNat * 2 ^ 14 + (m 8).toNat * 2 ^ 7 + (m 9).toNat +
      if m 5 &&& 0x10 ≠ 0 then 10 else 0
  else 0

/-- `_check_id3_tag` -/
def checkId3Tag (m : ℕ → UInt8) (bytes : ℕ) : ℕ := if bytes > 10 then id3Size m else 0

/-- `streambuf` and the decoder, how much of the stream has arrived, and whether it has ended. -/
structure MadFeed where
  streambuf : Buffer
  mad : Mad
  arrived : ℕ
  ended : Bool

/-- What can be seen of a call: what it writes of `readbuf`, from where and how many bytes; what it
gives to libmad, and whether it is the end of the stream; what libmad takes of it. -/
structure MadCall where
  writes : List (ℕ × ℕ)
  given : Option (List UInt8)
  eos : Bool
  used : ℕ
  state : DecodeState

/-- What is returned when libmad fails. -/
def madState (eos : Bool) (e : MadError) : DecodeState :=
  if !eos && e = .buflen then .running
  else if eos && (e = .buflen || e = .lostsync || e = .badbitrate) then .complete
  else if !e.recoverable then .complete
  else .running

/-- What libmad has left of `readbuf`. -/
def Mad.kept (m : Mad) : List UInt8 :=
  match m.next with
  | some n => if m.readbuf.length ≠ 0 then m.readbuf.drop n else m.readbuf
  | none => m.readbuf

namespace MadFeed

variable (s : MadFeed)

/-- `bytes` -/
def bytes : ℕ := min (bufUsed s.streambuf) (bufContRead s.streambuf)

/-- The bytes that are put behind what is kept. -/
def moved : ℕ := min s.bytes (u32Sub READBUF_SIZE s.mad.kept.length)

/-- `readbuf` is filled up. -/
def filled : List UInt8 := s.mad.kept ++ (List.range s.moved).map s.streambuf.peek

/-- `eos` -/
def eos : Bool := s.ended && bufUsed (bufIncReadp s.streambuf s.moved) = 0

/-- What is given to libmad. -/
def given : List UInt8 :=
  if s.eos then s.filled ++ List.replicate MAD_BUFFER_GUARD 0 else s.filled

end MadFeed

/-- A call behind the tag. -/
def madRead (a : MadAnswer) (s : MadFeed) : MadFeed × MadCall :=
  ({ s with
      streambuf := bufIncReadp s.streambuf s.moved
      mad := { s.mad with readbuf := s.given, next := some a.last } },
    { writes := [(0, s.mad.kept.length), (s.mad.kept.length, s.moved)] ++
        if s.eos then [(s.filled.length, MAD_BUFFER_GUARD)] else []
      given := some s.given
      eos := s.eos
      used := a.last
      state := madState s.eos a.error })

/-- `mad_decode` -/
def madDecode (a : MadAnswer) (s : MadFeed) : MadFeed × MadCall :=
  let m :=
    if s.mad.checktags = 1 then
      { s.mad with consume := checkId3Tag s.streambuf.peek s.bytes, checktags := 2 }
    else s.mad
  if m.checktags ≠ 0 ∧ m.consume ≠ 0 then
    ({ s with
        streambuf := bufIncReadp s.streambuf (min m.consume s.bytes)
        mad := { m with consume := m.consume - min m.consume s.bytes } },
      ⟨[], none, false, 0, .running⟩)
  else
    madRead a { s with mad := { m with checktags := if m.checktags = 2 then 0 else m.checktags } }

/-- `n` more bytes of the stream arrive, it ends, or the decode function is called. -/
inductive MadEvent
  | fill (n : ℕ)
  | finish
  | call (a : MadAnswer)

/-- The bytes of a stream arrive in `streambuf` in any amounts, and `mad_decode` is called at any
time. -/
def madMachine (data : List UInt8) : Runs.Machine MadFeed MadEvent MadCall where
  step s
    | .fill n =>
        let bs := (data.drop s.arrived).take n
        if n ≤ min (bufSpace s.streambuf) (bufContWrite s.streambuf) ∧
            s.arrived + n ≤ data.length then
          ({ s with
              streambuf := bufIncWritep (bufStore s.streambuf bs) bs.length
              arrived := s.arrived + n }, [])
        else (s, [])
    | .finish => if s.arrived = data.length then ({ s with ended := true }, []) else (s, [])
    | .call a => ((madDecode a s).1, [(madDecode a s).2])

/-! ### What a run is to do -/

/-- The tag in front of a stream. -/
def id3Length (data : List UInt8) : ℕ :=
  if 10 ≤ data.length then id3Size (Octets.ofList data) else 0

/-- What is behind the tag. -/
def audioOf (data : List UInt8) : List UInt8 := data.drop (id3Length data)

/-- A call stays in `readbuf`, and what it gives to libmad is the stream from where libmad is,
`k` bytes behind the tag; zeros are only behind all of it. -/
structure CallFine (audio : List UInt8) (k : ℕ) (c : MadCall) : Prop where
  writes : ∀ w ∈ c.writes, w.1 + w.2 ≤ READBUF_SIZE + MAD_BUFFER_GUARD
  length : ∀ g ∈ c.given, g.length ≤ READBUF_SIZE + MAD_BUFFER_GUARD
  stream : ∀ g ∈ c.given, c.eos = false → g <+: audio.drop k
  guarded : ∀ g ∈ c.given, c.eos = true → ∃ z ≥ MAD_BUFFER_GUARD,
    g = audio.drop k ++ List.replicate z 0

open Classical in
/-- Libmad goes on from call to call. -/
noncomputable def madSees (audio : List UInt8) (k : ℕ) (c : MadCall) : Option ℕ :=
  if CallFine audio k c then some (k + c.used) else none

/-- The bytes of the tag that are still to be skipped, at a call. -/
def MadFeed.tagLeft (s : MadFeed) : ℕ :=
  if s.mad.checktags = 0 then 0
  else if s.mad.checktags = 1 then checkId3Tag s.streambuf.peek s.bytes
  else s.mad.consume

/-- The condition on a call: a tag is in one piece when it is looked for, and there is room for the
zeros. -/
structure MadClear (data : List UInt8) (s : MadFeed) : Prop where
  tag : s.mad.checktags = 1 → 10 < s.bytes ∨ id3Length data = 0
  room : s.mad.kept.length ≤ READBUF_SIZE

/-- The condition on a call when the stream has ended: it is not in the tag, libmad takes a byte if
`readbuf` is full, and more than the zeros if it is to be called again at the end. -/
structure MadGetsOn (a : MadAnswer) (s : MadFeed) : Prop where
  tag : s.tagLeft ≠ 0 → bufUsed s.streambuf ≠ 0
  more : s.tagLeft = 0 → s.moved = 0 → bufUsed s.streambuf ≠ 0 → 0 < a.last
  last : s.tagLeft = 0 → s.moved = bufUsed s.streambuf → a.error.again = true →
    MAD_BUFFER_GUARD < s.moved + a.last

/-! ### Windows of the stream -/

section Windows

variable {data : List UInt8} {b : Buffer} {q : ℕ}

/-- What is copied out of `streambuf` in one piece. -/
theorem map_peek (h : b.Wf) {n : ℕ} (hn : n ≤ min (bufUsed b) (bufContRead b)) :
    (List.range n).map b.peek = b.content.take n := by
  apply List.ext_getElem?
  intro i
  rcases Nat.lt_or_ge i n with hlt | hge
  · rw [List.getElem?_map, List.getElem?_range hlt, List.getElem?_take_of_lt hlt,
      h.content_getElem? (by omega)]
    rfl
  · rw [List.getElem?_eq_none (by simpa using hge), List.getElem?_eq_none]
    rw [List.length_take]
    omega

/-- Bytes behind a prefix. -/
theorem prefix_append_drop {xs ys l : List UInt8} (hx : xs <+: l) (hy : ys <+: l.drop xs.length) :
    xs ++ ys <+: l := by
  obtain ⟨rest, rfl⟩ := hx
  rw [List.drop_left] at hy
  exact (List.prefix_append_right_inj xs).mpr hy

theorem prefix_drop {xs l : List UInt8} (h : xs <+: l) (n : ℕ) : xs.drop n <+: l.drop n := by
  obtain ⟨rest, rfl⟩ := h
  rw [List.drop_append]
  exact List.prefix_append ..

/-- What is left of the stream with zeros behind. -/
theorem drop_zeros (l : List UInt8) (z n : ℕ) :
    (l ++ List.replicate z 0).drop n = l.drop n ++ List.replicate (z - (n - l.length)) 0 := by
  rw [List.drop_append, List.drop_replicate]

end Windows

/-! ### One call -/

/-- Where the decoder is in the stream, of which `q` bytes are taken out of `streambuf`, and libmad
has taken `k` behind the tag. -/
inductive MadAt (data : List UInt8) (m : Mad) (q k : ℕ) (ended : Bool) : Prop
  | opened (hm : m = madOpen) (hq : q = 0) (hk : k = 0)
  | tag (hchecks : m.checktags = 2) (hread : m.readbuf = []) (hnext : m.next = none) (hk : k = 0)
      (hto : q + m.consume = id3Length data)
  | reading (hchecks : m.checktags = 0) (hto : id3Length data + k + m.kept.length = q)
      (hkept : m.kept <+: (audioOf data).drop k) (hroom : m.kept.length ≤ READBUF_SIZE)
  | guarded (hchecks : m.checktags = 0) (hended : ended = true) (hq : q = data.length)
      (hkept : ∃ z, m.kept = (audioOf data).drop k ++ List.replicate z 0)

/-- `streambuf` has the stream from `q` on. -/
structure MadHas (data : List UInt8) (s : MadFeed) (q : ℕ) : Prop where
  arrived : s.arrived ≤ data.length
  all : s.ended = true → s.arrived = data.length
  place : q + bufUsed s.streambuf = s.arrived
  carries : Carries data q s.streambuf

section Call

variable {data : List UInt8} {s : MadFeed} {a : MadAnswer} {q k : ℕ}

theorem kept_next {readbuf : List UInt8} {n checktags consume : ℕ} :
    (Mad.mk readbuf (some n) checktags consume).kept = readbuf.drop n := by
  unfold Mad.kept
  dsimp only
  split
  · rfl
  · rename_i hnone
    have hnil : readbuf = [] := List.eq_nil_of_length_eq_zero (not_not.mp hnone)
    rw [hnil, List.drop_nil]

theorem moved_le (s : MadFeed) : s.moved ≤ s.bytes := Nat.min_le_left ..

theorem MadHas.takes (h : MadHas data s q) {n : ℕ} (hn : n ≤ s.bytes) (m : Mad) :
    MadHas data { s with streambuf := bufIncReadp s.streambuf n, mad := m } (q + n) := by
  have hused : n ≤ bufUsed s.streambuf := Nat.le_trans hn (Nat.min_le_left ..)
  refine ⟨h.arrived, h.all, ?_, h.carries.bufIncReadp hused⟩
  show q + n + bufUsed (bufIncReadp s.streambuf n) = s.arrived
  have hplace := h.place
  rw [used_bufIncReadp h.carries.wf hused]
  omega

theorem filled_length (s : MadFeed) : s.filled.length = s.mad.kept.length + s.moved := by
  rw [MadFeed.filled, List.length_append, List.length_map, List.length_range]

theorem given_length (s : MadFeed) :
    s.given.length = s.mad.kept.length + s.moved + if s.eos then MAD_BUFFER_GUARD else 0 := by
  unfold MadFeed.given
  split
  · rw [List.length_append, List.length_replicate, filled_length]
  · rw [filled_length]
    rfl

/-- What is moved fits. -/
theorem moved_room (h : s.mad.kept.length ≤ READBUF_SIZE) :
    s.mad.kept.length + s.moved ≤ READBUF_SIZE := by
  have hsub : u32Sub READBUF_SIZE s.mad.kept.length = READBUF_SIZE - s.mad.kept.length := by
    unfold u32Sub READBUF_SIZE at *
    omega
  have hmoved : s.moved ≤ u32Sub READBUF_SIZE s.mad.kept.length := Nat.min_le_right ..
  omega

/-- At the end of the stream, all has been moved. -/
theorem eos_iff (h : MadHas data s q) :
    s.eos = true ↔ s.ended = true ∧ s.moved = bufUsed s.streambuf := by
  have hused : s.moved ≤ bufUsed s.streambuf := Nat.le_trans (moved_le s) (Nat.min_le_left ..)
  unfold MadFeed.eos
  rw [used_bufIncReadp h.carries.wf hused, Bool.and_eq_true, decide_eq_true_eq]
  have hzero : bufUsed s.streambuf - s.moved = 0 ↔ s.moved = bufUsed s.streambuf := by omega
  rw [hzero]

/-- `readbuf` is filled up with the bytes that come next. -/
theorem filled_prefix (h : MadHas data s q) (hto : id3Length data + k + s.mad.kept.length = q)
    (hkept : s.mad.kept <+: (audioOf data).drop k) : s.filled <+: (audioOf data).drop k := by
  have hmap := map_peek h.carries.wf (moved_le s)
  have hplace : id3Length data + (k + s.mad.kept.length) = q := by omega
  apply prefix_append_drop hkept
  rw [hmap, audioOf, List.drop_drop, List.drop_drop, hplace]
  exact (List.take_prefix ..).trans h.carries.bytes

/-- What is written in a call behind the tag. -/
theorem writes_inside (hroom : s.mad.kept.length ≤ READBUF_SIZE) :
    ∀ w ∈ (madRead a s).2.writes, w.1 + w.2 ≤ READBUF_SIZE + MAD_BUFFER_GUARD := by
  have hfits := moved_room hroom
  intro w hw
  rcases List.mem_append.mp hw with hw | hw
  · rcases List.mem_cons.mp hw with rfl | hw
    · show 0 + s.mad.kept.length ≤ _
      omega
    · rw [List.mem_singleton] at hw
      subst hw
      show s.mad.kept.length + s.moved ≤ _
      omega
  · split at hw
    · rw [List.mem_singleton] at hw
      subst hw
      show s.filled.length + MAD_BUFFER_GUARD ≤ _
      rw [filled_length]
      omega
    · exact absurd hw List.not_mem_nil

theorem given_inside (hroom : s.mad.kept.length ≤ READBUF_SIZE) :
    s.given.length ≤ READBUF_SIZE + MAD_BUFFER_GUARD := by
  have hfits := moved_room hroom
  rw [given_length]
  split <;> omega

/-- A call behind the tag gives to libmad what comes next. -/
theorem madRead_fine (h : MadHas data s q) (hchecks : s.mad.checktags = 0)
    (hroom : s.mad.kept.length ≤ READBUF_SIZE) (hlaw : a.Lawful s.given.length)
    (hat : MadAt data s.mad q k s.ended) :
    CallFine (audioOf data) k (madRead a s).2 ∧ MadHas data (madRead a s).1 (q + s.moved) ∧
      MadAt data (madRead a s).1.mad (q + s.moved) (k + a.last) s.ended := by
  have hhas := h.takes (moved_le s) { s.mad with readbuf := s.given, next := some a.last }
  have hplace := h.place
  have harrived := h.arrived
  have hall := h.all
  -- at the end, what is given is all that is left, with zeros behind it
  have hend : s.eos = true → (∃ z ≥ MAD_BUFFER_GUARD,
      s.given = (audioOf data).drop k ++ List.replicate z 0) →
      CallFine (audioOf data) k (madRead a s).2 ∧ MadHas data (madRead a s).1 (q + s.moved) ∧
      MadAt data (madRead a s).1.mad (q + s.moved) (k + a.last) s.ended := by
    rintro heos ⟨z, hz, hgiven⟩
    obtain ⟨hended, hmoved⟩ := (eos_iff h).mp heos
    refine ⟨⟨writes_inside hroom, ?_, ?_, ?_⟩, hhas, .guarded hchecks hended ?_ ?_⟩
    · rintro g ⟨⟩
      exact given_inside hroom
    · intro g _ hno
      exact absurd (heos.symm.trans hno) (by decide)
    · rintro g ⟨⟩ -
      exact ⟨z, hz, hgiven⟩
    · have hdata := hall hended
      omega
    · refine ⟨z - (a.last - ((audioOf data).drop k).length), ?_⟩
      show Mad.kept ⟨s.given, some a.last, _, _⟩ = _
      rw [kept_next, hgiven, drop_zeros, List.drop_drop]
  cases hat with
  | opened hm => exact absurd hchecks (by rw [hm]; decide)
  | tag htwo => exact absurd (hchecks.symm.trans htwo) (by decide)
  | reading _ hto hkept _ =>
    have hfilled := filled_prefix h hto hkept
    cases heos : s.eos with
    | true =>
      obtain ⟨hended, hmoved⟩ := (eos_iff h).mp heos
      have hdata := hall hended
      have hlen := filled_length s
      have hwhole : s.filled = (audioOf data).drop k := by
        apply hfilled.eq_of_length
        rw [hlen, audioOf, List.length_drop, List.length_drop]
        omega
      refine hend heos ⟨MAD_BUFFER_GUARD, Nat.le_refl _, ?_⟩
      unfold MadFeed.given
      rw [if_pos heos, hwhole]
    | false =>
      have hgiven : s.given = s.filled := by
        unfold MadFeed.given
        rw [if_neg (by rw [heos]; decide)]
      have hlen := filled_length s
      have hinside := hlaw.inside
      have hfits := moved_room hroom
      rw [hgiven] at hinside
      refine ⟨⟨writes_inside hroom, ?_, ?_, ?_⟩, hhas, .reading hchecks ?_ ?_ ?_⟩
      · rintro g ⟨⟩
        exact given_inside hroom
      · rintro g ⟨⟩ -
        rw [hgiven]
        exact hfilled
      · intro g _ hyes
        exact absurd (heos.symm.trans hyes) (by decide)
      · show _ + (Mad.kept ⟨s.given, some a.last, _, _⟩).length = _
        rw [kept_next, hgiven, List.length_drop]
        omega
      · show Mad.kept ⟨s.given, some a.last, _, _⟩ <+: _
        rw [kept_next, hgiven, ← List.drop_drop]
        exact prefix_drop hfilled _
      · show (Mad.kept ⟨s.given, some a.last, _, _⟩).length ≤ _
        rw [kept_next, hgiven, List.length_drop]
        omega
  | guarded _ hended hq hkept =>
    obtain ⟨z, hkept⟩ := hkept
    have hdata := hall hended
    have hmoved : s.moved = 0 := by
      have hle : s.moved ≤ bufUsed s.streambuf :=
        Nat.le_trans (moved_le s) (Nat.min_le_left ..)
      omega
    have heos : s.eos = true := (eos_iff h).mpr ⟨hended, by omega⟩
    refine hend heos ⟨z + MAD_BUFFER_GUARD, Nat.le_add_left .., ?_⟩
    unfold MadFeed.given MadFeed.filled
    rw [if_pos heos, hmoved, hkept, List.range_zero, List.map_nil, List.append_nil,
      List.append_assoc, List.replicate_append_replicate]

/-- The tag is found, if it is in one piece. -/
theorem checkId3Tag_eq (h : Carries data 0 s.streambuf)
    (hclear : 10 < s.bytes ∨ id3Length data = 0) :
    checkId3Tag s.streambuf.peek s.bytes = id3Length data := by
  unfold checkId3Tag
  by_cases hlong : s.bytes > 10
  · have hcont : s.bytes ≤ bufContRead s.streambuf := Nat.min_le_right ..
    have hused : s.bytes ≤ bufUsed s.streambuf := Nat.min_le_left ..
    have hdata := h.used_le
    have hpeek : ∀ i < 10, s.streambuf.peek i = Octets.ofList data i := by
      intro i hi
      rw [h.peek (by omega), streamFrom, Nat.zero_add]
      rfl
    rw [if_pos hlong, id3Length, if_pos (by omega)]
    unfold id3Size
    rw [hpeek 0 (by decide), hpeek 1 (by decide), hpeek 2 (by decide), hpeek 5 (by decide),
      hpeek 6 (by decide), hpeek 7 (by decide), hpeek 8 (by decide), hpeek 9 (by decide)]
  · rw [if_neg hlong]
    rcases hclear with h | h
    · exact absurd h hlong
    · exact h.symm

/-- What a call leaves of the input. -/
structure MadNext (data : List UInt8) (k : ℕ) (r : MadFeed × MadCall) : Prop where
  fine : CallFine (audioOf data) k r.2
  next : ∃ q, MadHas data r.1 q ∧ MadAt data r.1.mad q (k + r.2.used) r.1.ended

/-- The decoder behind the tag. -/
def MadFeed.behind (s : MadFeed) : MadFeed :=
  { s with
    mad :=
      { s.mad with
        consume := if s.mad.checktags = 1 then checkId3Tag s.streambuf.peek s.bytes else s.mad.consume
        checktags := if s.mad.checktags = 1 ∨ s.mad.checktags = 2 then 0 else s.mad.checktags } }

theorem madDecode_read (h : s.tagLeft = 0) : madDecode a s = madRead a s.behind := by
  obtain ⟨b, ⟨readbuf, next, checktags, consume⟩, arrived, ended⟩ := s
  unfold MadFeed.tagLeft at h
  unfold madDecode MadFeed.behind
  dsimp only at h ⊢
  by_cases hfirst : checktags = 1
  · subst hfirst
    rw [if_neg (by decide), if_pos rfl] at h
    simp only [if_true, true_or, h, ne_eq, not_true_eq_false, and_false, if_false]
  · by_cases hzero : checktags = 0
    · subst hzero
      rfl
    · rw [if_neg hzero, if_neg hfirst] at h
      subst h
      simp only [if_neg hfirst, hfirst, false_or, ne_eq, not_true_eq_false, and_false, if_false]

theorem madDecode_skip (h : s.tagLeft ≠ 0) : madDecode a s =
    ({ s with
        streambuf := bufIncReadp s.streambuf (min s.tagLeft s.bytes)
        mad :=
          { s.mad with
            checktags := if s.mad.checktags = 1 then 2 else s.mad.checktags
            consume := s.tagLeft - min s.tagLeft s.bytes } },
      ⟨[], none, false, 0, .running⟩) := by
  obtain ⟨b, ⟨readbuf, next, checktags, consume⟩, arrived, ended⟩ := s
  unfold MadFeed.tagLeft at h ⊢
  unfold madDecode
  dsimp only at h ⊢
  by_cases hzero : checktags = 0
  · rw [if_pos hzero] at h
    exact absurd rfl h
  · rw [if_neg hzero] at h ⊢
    by_cases hfirst : checktags = 1
    · rw [if_pos hfirst] at h
      simp only [if_pos hfirst]
      rw [if_pos ⟨by decide, h⟩]
    · rw [if_neg hfirst] at h
      simp only [if_neg hfirst]
      rw [if_pos ⟨hzero, h⟩]

/-- Bytes of the tag are skipped. -/
theorem skip_next (h : MadHas data s q) (hleft : s.tagLeft ≠ 0)
    (hto : q + s.tagLeft = id3Length data) (hread : s.mad.readbuf = []) (hnext : s.mad.next = none)
    (hchecks : s.mad.checktags = 1 ∨ s.mad.checktags = 2) :
    MadNext data 0 (madDecode a s) := by
  rw [madDecode_skip hleft]
  refine ⟨⟨?_, ?_, ?_, ?_⟩, q + min s.tagLeft s.bytes, h.takes (Nat.min_le_right ..) _, ?_⟩
  · exact fun w hw => absurd hw List.not_mem_nil
  · exact fun g hg => by cases hg
  · exact fun g hg => by cases hg
  · exact fun g hg => by cases hg
  · refine .tag ?_ hread hnext rfl ?_
    · show (if s.mad.checktags = 1 then 2 else s.mad.checktags) = 2
      split
      · rfl
      · rename_i hother
        exact hchecks.resolve_left hother
    · show q + min s.tagLeft s.bytes + (s.tagLeft - min s.tagLeft s.bytes) = _
      omega

/-- Behind the tag, the decoder is somewhere in the stream. -/
theorem behind_at (h : MadHas data s q) (hat : MadAt data s.mad q k s.ended)
    (hclear : MadClear data s) (hleft : s.tagLeft = 0) :
    s.behind.mad.checktags = 0 ∧ MadAt data s.behind.mad q k s.behind.ended := by
  unfold MadFeed.tagLeft at hleft
  cases hat with
  | opened hm hq hk =>
    subst hq hk
    have hfirst : s.mad.checktags = 1 := by rw [hm]; rfl
    have hempty : s.behind.mad.kept = [] := by
      show Mad.kept ⟨s.mad.readbuf, s.mad.next, _, _⟩ = []
      rw [hm]
      rfl
    have hnow : s.behind.mad.checktags = 0 := if_pos (.inl hfirst)
    rw [if_neg (by omega), if_pos hfirst, checkId3Tag_eq h.carries (hclear.tag hfirst)] at hleft
    refine ⟨hnow, .reading hnow ?_ ?_ ?_⟩
    · rw [hempty, hleft]
      rfl
    · rw [hempty]
      exact List.nil_prefix
    · rw [hempty]
      exact Nat.zero_le _
  | tag hchecks hread hnext hk hto =>
    subst hk
    have hempty : s.behind.mad.kept = [] := by
      show Mad.kept ⟨s.mad.readbuf, s.mad.next, _, _⟩ = []
      rw [hread, hnext]
      rfl
    have hnow : s.behind.mad.checktags = 0 := if_pos (.inr hchecks)
    rw [if_neg (by omega), if_neg (by omega)] at hleft
    refine ⟨hnow, .reading hnow ?_ ?_ ?_⟩
    · rw [hempty]
      show id3Length data + 0 + 0 = q
      omega
    · rw [hempty]
      exact List.nil_prefix
    · rw [hempty]
      exact Nat.zero_le _
  | reading hchecks hto hkept hroom =>
    have hnow : s.behind.mad.checktags = 0 := (if_neg (by omega)).trans hchecks
    exact ⟨hnow, .reading hnow hto hkept hroom⟩
  | guarded hchecks hended hq hkept =>
    have hnow : s.behind.mad.checktags = 0 := (if_neg (by omega)).trans hchecks
    exact ⟨hnow, .guarded hnow hended hq hkept⟩

/-- A call goes on in the stream. -/
theorem madDecode_next (h : MadHas data s q) (hat : MadAt data s.mad q k s.ended)
    (hclear : MadClear data s) (hlaw : ∀ g ∈ (madDecode a s).2.given, a.Lawful g.length) :
    MadNext data k (madDecode a s) := by
  by_cases hleft : s.tagLeft = 0
  · obtain ⟨hchecks, hat'⟩ := behind_at h hat hclear hleft
    rw [madDecode_read hleft] at hlaw ⊢
    have hhas : MadHas data s.behind q := ⟨h.arrived, h.all, h.place, h.carries⟩
    obtain ⟨hfine, hhas', hnext⟩ := madRead_fine hhas hchecks hclear.room (hlaw _ rfl) hat'
    exact ⟨hfine, _, hhas', hnext⟩
  · cases hat with
    | opened hm hq hk =>
      subst hq hk
      have hfirst : s.mad.checktags = 1 := by rw [hm]; rfl
      refine skip_next h hleft ?_ (by rw [hm]; rfl) (by rw [hm]; rfl) (.inl hfirst)
      unfold MadFeed.tagLeft
      rw [if_neg (by omega), if_pos hfirst, checkId3Tag_eq h.carries (hclear.tag hfirst),
        Nat.zero_add]
    | tag hchecks hread hnext hk hto =>
      subst hk
      refine skip_next h hleft ?_ hread hnext (.inr hchecks)
      unfold MadFeed.tagLeft
      rw [if_neg (by omega), if_neg (by omega)]
      exact hto
    | reading hchecks => exact absurd (if_pos hchecks) hleft
    | guarded hchecks => exact absurd (if_pos hchecks) hleft

end Call

/-! ### Runs -/

/-- A new stream: `mad_open`, with nothing in `streambuf`, wherever its pointers are. -/
structure MadOpened (s : MadFeed) : Prop where
  wf : s.streambuf.Wf
  empty : bufUsed s.streambuf = 0
  mad : s.mad = madOpen
  arrived : s.arrived = 0
  ended : s.ended = false

/-- Libmad keeps its promises in a call. -/
def MadEvent.lawful (s : MadFeed) : MadEvent → Prop
  | .call a => ∀ g ∈ (madDecode a s).2.given, a.Lawful g.length
  | _ => True

/-- The condition on a call. -/
def MadEvent.clear (data : List UInt8) (s : MadFeed) : MadEvent → Prop
  | .call _ => MadClear data s
  | _ => True

/-- The condition on a call when the stream has ended. -/
def MadEvent.getsOn (s : MadFeed) : MadEvent → Prop
  | .call a => MadGetsOn a s
  | _ => True

/-- The decoder is `k` bytes behind the tag. -/
def MadReads (data : List UInt8) (s : MadFeed) (k : ℕ) : Prop :=
  ∃ q, MadHas data s q ∧ MadAt data s.mad q k s.ended

/-- What is left of the stream; what is still in `streambuf` is moved first. -/
def MadFeed.left (s : MadFeed) : ℕ := 2 * bufUsed s.streambuf + s.mad.kept.length

section Runs

variable {data : List UInt8} {s : MadFeed} {k : ℕ}

theorem MadOpened.reads (h : MadOpened s) : MadReads data s 0 := by
  obtain ⟨hwf, hempty, hmad, harrived, hended⟩ := h
  refine ⟨0, ⟨?_, ?_, ?_, hwf, ?_⟩, .opened hmad rfl rfl⟩
  · rw [harrived]
    exact Nat.zero_le _
  · rw [hended]
    exact fun h => by cases h
  · rw [hempty, harrived]
  · have hnil : s.streambuf.content = [] :=
      List.eq_nil_of_length_eq_zero (by rw [Buffer.Wf.length_content, hempty])
    rw [hnil]
    exact List.nil_prefix

/-- Every event goes on in the stream. -/
theorem madStep_reads (h : MadReads data s k) {e : MadEvent} (hlaw : e.lawful s)
    (hclear : e.clear data s) :
    ∃ k', Runs.watch (madSees (audioOf data)) k ((madMachine data).step s e).2 = some k' ∧
      MadReads data ((madMachine data).step s e).1 k' := by
  obtain ⟨q, hhas, hat⟩ := h
  cases e with
  | fill n =>
    refine ⟨k, ?_⟩
    unfold madMachine
    dsimp only
    split
    · rename_i hroom
      obtain ⟨hcarries, hplace⟩ := hhas.carries.fill hhas.place hroom.1 hroom.2 rfl
      refine ⟨rfl, q, ⟨hroom.2, fun hended => ?_, hplace, hcarries⟩, hat⟩
      have hall := hhas.all hended
      have hle := hroom.2
      show s.arrived + n = data.length
      omega
    · exact ⟨rfl, q, hhas, hat⟩
  | finish =>
    refine ⟨k, ?_⟩
    unfold madMachine
    dsimp only
    split
    · rename_i hall
      refine ⟨rfl, q, ⟨hhas.arrived, fun _ => hall, hhas.place, hhas.carries⟩, ?_⟩
      cases hat with
      | opened hm hq hk => exact .opened hm hq hk
      | tag hchecks hread hnext hk hto => exact .tag hchecks hread hnext hk hto
      | reading hchecks hto hkept hroom => exact .reading hchecks hto hkept hroom
      | guarded hchecks _ hq hkept => exact .guarded hchecks rfl hq hkept
    · exact ⟨rfl, q, hhas, hat⟩
  | call a =>
    obtain ⟨hfine, hnext⟩ := madDecode_next hhas hat hclear hlaw
    refine ⟨k + (madDecode a s).2.used, ?_, hnext⟩
    show (madSees (audioOf data) k (madDecode a s).2).bind _ = _
    unfold madSees
    rw [if_pos hfine]
    rfl

theorem madState_end {e : MadError} (h : madState true e ≠ .complete) : e.again = true := by
  cases e <;> first | exact absurd rfl h | rfl

/-- A call at the end of the stream completes, or leaves less. -/
theorem madDecode_left {a : MadAnswer} (h : MadReads data s k) (hended : s.ended = true)
    (hclear : MadClear data s) (hlaw : ∀ g ∈ (madDecode a s).2.given, a.Lawful g.length)
    (hgets : MadGetsOn a s) :
    (madDecode a s).2.state = .complete ∨ (madDecode a s).1.ended = true ∧
      (∃ k', MadReads data (madDecode a s).1 k') ∧ (madDecode a s).1.left < s.left := by
  obtain ⟨q, hhas, hat⟩ := h
  have hnext := (madDecode_next hhas hat hclear hlaw).next
  by_cases hleft : s.tagLeft = 0
  · rw [madDecode_read hleft] at hlaw hnext ⊢
    have hhas' : MadHas data s.behind q := ⟨hhas.arrived, hhas.all, hhas.place, hhas.carries⟩
    by_cases hstate : (madRead a s.behind).2.state = .complete
    · exact .inl hstate
    · refine .inr ⟨hended, ⟨_, hnext⟩, ?_⟩
      have hinside := (hlaw _ rfl).inside
      have hbytes := moved_le s
      have hmoved : s.moved ≤ bufUsed s.streambuf := Nat.le_trans hbytes (Nat.min_le_left ..)
      have hkept : s.behind.mad.kept.length + s.behind.moved = s.mad.kept.length + s.moved := rfl
      have hlen := given_length s.behind
      have hmore := hgets.more hleft
      have hlast := hgets.last hleft
      show 2 * bufUsed (bufIncReadp s.streambuf s.moved) +
        (Mad.kept ⟨s.behind.given, some a.last, _, _⟩).length <
          2 * bufUsed s.streambuf + s.mad.kept.length
      rw [kept_next, List.length_drop, used_bufIncReadp hhas.carries.wf hmoved]
      cases heos : s.behind.eos with
      | true =>
        have hall : s.moved = bufUsed s.streambuf := ((eos_iff hhas').mp heos).2
        have hfail : madState true a.error ≠ .complete := by
          rw [← heos]
          exact hstate
        have hmany := hlast hall (madState_end hfail)
        rw [heos, if_pos rfl] at hlen
        omega
      | false =>
        have hnot : s.moved ≠ bufUsed s.streambuf := by
          intro hall
          have hyes := (eos_iff hhas').mpr ⟨hended, hall⟩
          exact Bool.false_ne_true (heos.symm.trans hyes)
        rw [heos, if_neg (by decide)] at hlen
        by_cases hzero : s.moved = 0
        · have hsome := hmore hzero (by omega)
          omega
        · omega
  · have hused := hgets.tag hleft
    have hcont := hhas.carries.wf.contRead_pos (Nat.pos_of_ne_zero hused)
    rw [madDecode_skip hleft] at hnext ⊢
    refine .inr ⟨hended, ⟨_, hnext⟩, ?_⟩
    have hbytes : 0 < s.bytes := Nat.lt_min.mpr ⟨Nat.pos_of_ne_zero hused, hcont⟩
    have hle : s.bytes ≤ bufUsed s.streambuf := Nat.min_le_left ..
    have hskip : min s.tagLeft s.bytes ≤ bufUsed s.streambuf :=
      Nat.le_trans (Nat.min_le_right ..) hle
    show 2 * bufUsed (bufIncReadp s.streambuf (min s.tagLeft s.bytes)) + s.mad.kept.length <
      2 * bufUsed s.streambuf + s.mad.kept.length
    rw [used_bufIncReadp hhas.carries.wf hskip]
    omega

/-- Once the stream has ended, calls complete. -/
theorem mad_completes (answers : List MadAnswer) : ∀ {s : MadFeed} {k : ℕ}, MadReads data s k →
    s.ended = true →
    (madMachine data).Along (fun s e => (e.lawful s ∧ e.clear data s) ∧ e.getsOn s) s
      (answers.map .call) → s.left < answers.length →
    ∃ c ∈ ((madMachine data).run s (answers.map .call)).2, c.state = .complete := by
  induction answers with
  | nil => exact fun _ _ _ hmany => absurd hmany (Nat.not_lt_zero _)
  | cons a answers ih =>
    intro s k hreads hended halong hmany
    obtain ⟨⟨⟨hlaw, hclear⟩, hgets⟩, hrest⟩ := halong
    rw [List.map_cons, Runs.Machine.run]
    rcases madDecode_left hreads hended hclear hlaw hgets with hdone | ⟨hended', ⟨k', hreads'⟩, hless⟩
    · exact ⟨_, List.mem_append_left _ (List.mem_singleton_self _), hdone⟩
    · rw [List.length_cons] at hmany
      obtain ⟨c, hc, hstate⟩ := ih hreads' hended' hrest (by omega)
      exact ⟨c, List.mem_append_right _ hc, hstate⟩

end Runs

instance (a : MadAnswer) (n : ℕ) : Decidable (a.Lawful n) :=
  decidable_of_iff ((0 :: a.frames).Pairwise (· < ·) ∧ a.last ≤ n ∧ (∀ f ∈ a.frames, f ≤ a.last) ∧
      (a.error ≠ .buflen → ∀ f ∈ 0 :: a.frames, f < a.last))
    ⟨fun ⟨hadvances, hinside, hafter, hfails⟩ => ⟨hadvances, hinside, hafter, hfails⟩,
      fun h => ⟨h.advances, h.inside, h.after, h.fails⟩⟩

instance (data : List UInt8) (s : MadFeed) : Decidable (MadClear data s) :=
  decidable_of_iff ((s.mad.checktags = 1 → 10 < s.bytes ∨ id3Length data = 0) ∧
      s.mad.kept.length ≤ READBUF_SIZE)
    ⟨fun ⟨htag, hroom⟩ => ⟨htag, hroom⟩, fun h => ⟨h.tag, h.room⟩⟩

instance (a : MadAnswer) (s : MadFeed) : Decidable (MadGetsOn a s) :=
  decidable_of_iff ((s.tagLeft ≠ 0 → bufUsed s.streambuf ≠ 0) ∧
      (s.tagLeft = 0 → s.moved = 0 → bufUsed s.streambuf ≠ 0 → 0 < a.last) ∧
      (s.tagLeft = 0 → s.moved = bufUsed s.streambuf → a.error.again = true →
        MAD_BUFFER_GUARD < s.moved + a.last))
    ⟨fun ⟨htag, hmore, hlast⟩ => ⟨htag, hmore, hlast⟩, fun h => ⟨h.tag, h.more, h.last⟩⟩

namespace MadEvent

instance decidableLawful (s : MadFeed) : (e : MadEvent) → Decidable (e.lawful s)
  | .call a => inferInstanceAs (Decidable (∀ g ∈ (madDecode a s).2.given, a.Lawful g.length))
  | .fill _ => .isTrue trivial
  | .finish => .isTrue trivial

instance decidableClear (data : List UInt8) (s : MadFeed) : (e : MadEvent) → Decidable (e.clear data s)
  | .call _ => inferInstanceAs (Decidable (MadClear data s))
  | .fill _ => .isTrue trivial
  | .finish => .isTrue trivial

instance decidableGetsOn (s : MadFeed) : (e : MadEvent) → Decidable (e.getsOn s)
  | .call a => inferInstanceAs (Decidable (MadGetsOn a s))
  | .fill _ => .isTrue trivial
  | .finish => .isTrue trivial

end MadEvent

/-- A stream that has been opened, with a ring of so many bytes. -/
def openedMad (size : ℕ) : MadFeed := ⟨bufInit ⟨0, fun _ => 0⟩ size, madOpen, 0, false⟩

theorem opened_openedMad {size : ℕ} (h : 0 < size) : MadOpened (openedMad size) :=
  ⟨wf_bufInit _ h, by simp [openedMad, bufInit, bufUsed], rfl, rfl, rfl⟩

/-- A tag of 20 bytes and four bytes behind it. -/
def taggedMp3 : List UInt8 :=
  [73, 68, 51, 4, 0, 0, 0, 0, 0, 10] ++ List.replicate 10 0 ++ [0xff, 0xfb, 0x90, 0x64]

/-- Libmad fails behind `n` bytes. -/
def failsAt (e : MadError) (n : ℕ) : MadAnswer := ⟨[], e, n⟩

/-- When less is left of the stream than of its tag, no call completes. -/
theorem tag_stuck (data : List UInt8) (answers : List MadAnswer) : ∀ {s : MadFeed},
    s.streambuf.Wf → bufUsed s.streambuf < s.tagLeft →
    ∀ c ∈ ((madMachine data).run s (answers.map .call)).2, c.state = .running := by
  induction answers with
  | nil => exact fun _ _ c hc => absurd hc List.not_mem_nil
  | cons a answers ih =>
    intro s hwf hless c hc
    have hbytes : s.bytes ≤ bufUsed s.streambuf := Nat.min_le_left ..
    have hall : min s.tagLeft s.bytes = s.bytes := Nat.min_eq_right (by omega)
    have hskip := madDecode_skip (a := a) (s := s) (by omega)
    rw [hall] at hskip
    rw [List.map_cons, Runs.Machine.run] at hc
    rcases List.mem_append.mp hc with hc | hc
    · have hone : c = (madDecode a s).2 := List.mem_singleton.mp hc
      rw [hone, hskip]
    · refine ih ?_ ?_ c hc
      · show (madDecode a s).1.streambuf.Wf
        rw [hskip]
        exact wf_bufIncReadp hwf (Nat.le_trans hbytes (Nat.le_of_lt hwf.used_lt))
      · show bufUsed (madDecode a s).1.streambuf < (madDecode a s).1.tagLeft
        have hto : (madDecode a s).1.tagLeft = s.tagLeft - s.bytes := by
          rw [hskip]
          unfold MadFeed.tagLeft at hless
          by_cases hfirst : s.mad.checktags = 1
          · show (if (if s.mad.checktags = 1 then 2 else s.mad.checktags) = 0 then 0
              else if (if s.mad.checktags = 1 then 2 else s.mad.checktags) = 1 then _ else _) = _
            rw [if_pos hfirst, if_neg (by decide), if_neg (by decide)]
          · have hzero : s.mad.checktags ≠ 0 := by
              intro hzero
              rw [if_pos hzero] at hless
              exact absurd hless (Nat.not_lt_zero _)
            show (if (if s.mad.checktags = 1 then 2 else s.mad.checktags) = 0 then 0
              else if (if s.mad.checktags = 1 then 2 else s.mad.checktags) = 1 then _ else _) = _
            rw [if_neg hfirst, if_neg hzero, if_neg hfirst]
        rw [hto, hskip]
        show bufUsed (bufIncReadp s.streambuf s.bytes) < _
        rw [used_bufIncReadp hwf hbytes]
        omega

/-- Half a stream of which only the first bytes are the tag. -/
def cutMp3 : List UInt8 := [73, 68, 51, 4, 0, 0, 0, 0, 0, 100] ++ List.replicate 5 0

end SqueezeliteMuse
