/-
SqueezeliteMuse/Deinterleave.lean

What the stream thread appends to `streambuf`.

`watchBody` collects, from what is seen of a stream, the bytes taken from the
connection since the end of the response header (`body`), those of them appended
to `streambuf` (`out`), and what a decoder took out again (`drained`).  It
refuses a `recv` of length 0, a byte of metadata stored at `MAX_HEADER` or
above, and more of a block than is missing.

The invariant is that the thread's `(meta_next, meta_left)` is the place an ICY
stream is at after `body` (`FeedsAt`).

Main result: `stream_thread_icy`.
-/
import SqueezeliteMuse.Lib.Icy
import SqueezeliteMuse.Stream

namespace SqueezeliteMuse

open Icy

/-! ### The specification -/

/-- What has gone through a stream: the interval told; the bytes taken before
the body, and those of them appended to `streambuf`; the same of the body; and
the bytes taken out of `streambuf`. -/
structure BodyWatch where
  metaint : ℕ
  head : List UInt8
  stored : List UInt8
  body : List UInt8
  out : List UInt8
  drained : List UInt8

/-- Nothing has gone through. -/
def BodyWatch.start : BodyWatch := ⟨0, [], [], [], [], []⟩

/-- Read one observation.  What comes in before the request is sent counts with
the header. -/
def watchBody (d : BodyWatch) : StreamObs → Option BodyWatch
  | .recv len => if len ≠ 0 then some d else none
  | .request =>
      some { d with head := d.head ++ d.body, stored := d.stored ++ d.out, body := [], out := [] }
  | .headerByte _ c => some { d with head := d.head ++ [c] }
  | .interval metaint => some { d with metaint := metaint }
  | .metaLength c => some { d with body := d.body ++ [c] }
  | .metaBytes i left bs =>
      if i + bs.length ≤ MAX_HEADER ∧ bs.length ≤ left then some { d with body := d.body ++ bs }
      else none
  | .metaEnd i => if i < MAX_HEADER then some d else none
  | .body bs => some { d with body := d.body ++ bs, out := d.out ++ bs }
  | .drain bs => some { d with drained := d.drained ++ bs }
  | .headerEnd _ | .resp _ | .metadata _ => some d

/-! ### The invariant -/

/-- The link between the stream on the connection `wire` and what has gone
through, when the ICY stream is at the place `p`. -/
structure FeedsAt (wire : List UInt8) (p : Place) (s : Streamer) (d : BodyWatch) : Prop where
  wire_eq : wire = d.head ++ d.body ++ s.wire
  wf : s.streambuf.Wf
  stored_eq : d.stored ++ d.out = d.drained ++ s.streambuf.content
  interval : s.metaInterval = d.metaint
  early : s.state = .sendHeaders ∨ s.state = .recvHeaders ∨ s.state = .streamingWait →
    s.metaInterval = 0
  quiet : s.state = .recvHeaders ∨ s.state = .streamingWait → d.body = []
  scan : Icy.scan d.metaint (.head d.metaint) d.body = (p, d.out)
  block_le : s.metaLeft ≠ 0 → s.headerLen + s.metaLeft ≤ 4080
  polled : s.polling.isSome → 0 < s.space ∧ s.state ≠ .streamingWait
  notFile : s.state ≠ .streamingFile

/-- The stream is where its counters say. -/
structure Feeds (wire : List UInt8) (s : Streamer) (d : BodyWatch) : Prop extends
    FeedsAt wire ⟨s.metaNext, s.metaLeft⟩ s d where
  next_le : s.metaNext ≤ s.metaInterval

variable {wire : List UInt8} {p : Place} {s s' : Streamer} {d : BodyWatch}

/-- A state after the response header and its wait. -/
def Past (state : StreamState) : Prop :=
  state ≠ .sendHeaders ∧ state ≠ .recvHeaders ∧ state ≠ .streamingWait ∧ state ≠ .streamingFile

/-- The stream may move past the header at any time, and the thread leave its wait. -/
theorem FeedsAt.restate (h : FeedsAt wire p s d) {state : StreamState} {code : DisconnectCode}
    {fd : Bool} {polling : Option Bool} {metaNext : ℕ} (hstate : Past state ∨ state = s.state)
    (hpoll : polling = none ∨ polling = s.polling) :
    FeedsAt wire p
      { s with
        state := state, disconnect := code, fd := fd, polling := polling, metaNext := metaNext }
      d where
  wire_eq := h.wire_eq
  wf := h.wf
  stored_eq := h.stored_eq
  interval := h.interval
  early := by
    rcases hstate with ⟨h₁, h₂, h₃, -⟩ | rfl
    · rintro (hs | hs | hs)
      · exact absurd hs h₁
      · exact absurd hs h₂
      · exact absurd hs h₃
    · exact h.early
  quiet := by
    rcases hstate with ⟨-, h₂, h₃, -⟩ | rfl
    · rintro (hs | hs)
      · exact absurd hs h₂
      · exact absurd hs h₃
    · exact h.quiet
  scan := h.scan
  block_le := h.block_le
  polled := by
    intro hp
    rcases hpoll with rfl | rfl
    · simp at hp
    · rcases hstate with ⟨-, -, h₃, -⟩ | rfl
      · exact ⟨(h.polled hp).1, h₃⟩
      · exact h.polled hp
  notFile := by
    rcases hstate with ⟨-, -, -, h₄⟩ | rfl
    · exact h₄
    · exact h.notFile

theorem Feeds.disconnectWith (h : Feeds wire s d) {state : StreamState} {code : DisconnectCode}
    (hstate : Past state) : Feeds wire (s.disconnectWith state code) d :=
  ⟨h.toFeedsAt.restate (.inl hstate) (.inr rfl), h.next_le⟩

theorem past_stopped : Past .stopped := by simp [Past]

theorem past_disconnect : Past .disconnect := by simp [Past]

/-- Reading stays possible while a decoder takes bytes out. -/
theorem space_bufIncReadp {b : Buffer} (h : b.Wf) {n : ℕ} (hn : n ≤ bufUsed b)
    (hpos : 0 < min (bufSpace b) (bufContWrite b)) :
    0 < min (bufSpace (bufIncReadp b n)) (bufContWrite (bufIncReadp b n)) := by
  have hle : n ≤ b.size := Nat.le_trans hn (Nat.le_of_lt h.used_lt)
  have hwf := wf_bufIncReadp h hle
  have hused := used_bufIncReadp h hn
  have hsum := h.used_add_space
  have hsum' := hwf.used_add_space
  have hsize : (bufIncReadp b n).size = b.size := rfl
  have hcont := hwf.contWrite_pos
  omega

/-! ### The branches of the thread -/

/-- Bytes appended to the body, in a place where they are audio. -/
theorem FeedsAt.append {p' : Place} (h : FeedsAt wire p s d) {bs : List UInt8}
    (hwire : s.wire = bs ++ s.wire.drop bs.length) (hlen : bs.length ≤ s.space)
    (hpoll : s.polling = none) (hstate : s.state ≠ .recvHeaders ∧ s.state ≠ .streamingWait)
    (hscan : Icy.scan d.metaint p bs = (p', bs)) :
    FeedsAt wire p' (s.append bs) { d with body := d.body ++ bs, out := d.out ++ bs } where
  wire_eq := by
    simp only [Streamer.append, List.append_assoc]
    rw [← hwire, ← List.append_assoc]
    exact h.wire_eq
  wf := wf_bufAppend h.wf hlen
  stored_eq := by
    simp only [Streamer.append, content_bufAppend h.wf hlen, ← List.append_assoc]
    rw [h.stored_eq]
  interval := h.interval
  early := h.early
  quiet := by
    rintro (hs | hs)
    · exact absurd hs hstate.1
    · exact absurd hs hstate.2
  scan := by simp only [scan_append, h.scan, hscan]
  block_le := h.block_le
  polled := by simp [Streamer.append, hpoll]
  notFile := h.notFile

/-- A `recv` that asks for some byte is accepted. -/
theorem watchBody_recv {len : ℕ} (h : len ≠ 0) : watchBody d (.recv len) = some d := if_pos h

/-- Bytes of the body fit, and none of them lies behind the next length byte. -/
theorem bodySpace_le (s : Streamer) :
    s.bodySpace ≤ s.space ∧ (s.metaInterval ≠ 0 → s.bodySpace ≤ s.metaNext) := by
  unfold Streamer.bodySpace
  split <;> omega

theorem recvBody_feeds (h : Feeds wire s d) (hpoll : s.polling = none) (hspace : 0 < s.space)
    (hstate : s.state ≠ .recvHeaders ∧ s.state ≠ .streamingWait)
    (hmeta : ¬ (s.metaInterval ≠ 0 ∧ s.metaNext = 0)) (r : Incoming) :
    ∃ d', Runs.watch watchBody d (s.recvBody r).2 = some d' ∧ Feeds wire (s.recvBody r).1 d' := by
  have hpos : s.bodySpace ≠ 0 := by
    unfold Streamer.bodySpace
    split <;> omega
  apply Streamer.received_watch (R := Feeds wire) (watchBody_recv hpos) h
    (h.disconnectWith past_disconnect) (h.disconnectWith past_disconnect)
  intro bs _ hr
  obtain ⟨hwire, hlen⟩ := recvBytes_eq hr
  obtain ⟨hle, hnext⟩ := bodySpace_le s
  have hscan : Icy.scan d.metaint ⟨s.metaNext, s.metaLeft⟩ bs =
      (⟨if s.metaInterval ≠ 0 then s.metaNext - bs.length else s.metaNext, s.metaLeft⟩, bs) := by
    by_cases h0 : s.metaInterval = 0
    · rw [← h.interval, h0, scan_zero]
      rfl
    · rw [if_pos h0]
      exact scan_run (by rwa [← h.interval]) _ _ (Nat.le_trans hlen (hnext h0))
  have happ := h.toFeedsAt.append hwire (Nat.le_trans hlen hle) hpoll hstate hscan
  refine ⟨_, rfl, happ.restate ?_ (.inr rfl), ?_⟩
  · split
    · exact .inl (by simp [Past])
    · exact .inr rfl
  · have hbound := h.next_le
    show (if s.metaInterval ≠ 0 then s.metaNext - bs.length else s.metaNext) ≤ s.metaInterval
    split <;> omega

/-- Bytes of a length or of a block: taken, and not appended. -/
theorem FeedsAt.take {p' : Place} (h : FeedsAt wire p s d) {bs : List UInt8}
    {header : ℕ → UInt8} {headerLen metaLeft : ℕ} (hwire : s.wire = bs ++ s.wire.drop bs.length)
    (hstate : s.state ≠ .recvHeaders ∧ s.state ≠ .streamingWait)
    (hscan : Icy.scan d.metaint p bs = (p', []))
    (hblock : metaLeft ≠ 0 → headerLen + metaLeft ≤ 4080) :
    FeedsAt wire p'
      { s with
        wire := s.wire.drop bs.length, header := header, headerLen := headerLen,
        metaLeft := metaLeft }
      { d with body := d.body ++ bs } where
  wire_eq := by
    simp only [List.append_assoc]
    rw [← hwire, ← List.append_assoc]
    exact h.wire_eq
  wf := h.wf
  stored_eq := h.stored_eq
  interval := h.interval
  early := h.early
  quiet := by
    rintro (hs | hs)
    · exact absurd hs hstate.1
    · exact absurd hs hstate.2
  scan := by simp only [scan_append, h.scan, hscan, List.append_nil]
  block_le := hblock
  polled := h.polled
  notFile := h.notFile

/-- The place in or behind a block of which `left` bytes are missing. -/
def inBlock (n left : ℕ) : Place := if left = 0 then .head n else ⟨0, left⟩

theorem recvMetaEnd_feeds (h : FeedsAt wire (inBlock s.metaInterval s.metaLeft) s d)
    (hnext : s.metaNext = 0) (hlen : s.headerLen ≤ 4080) :
    ∃ d', Runs.watch watchBody d s.recvMetaEnd.2 = some d' ∧ Feeds wire s.recvMetaEnd.1 d' := by
  have hmax : s.headerLen < MAX_HEADER := by
    unfold MAX_HEADER
    omega
  by_cases h0 : s.metaLeft = 0
  · -- the block is complete: the next run of audio begins
    have hobs : watchBody d (.metaEnd s.headerLen) = some d := if_pos hmax
    have hat : FeedsAt wire ⟨s.metaInterval, s.metaLeft⟩ s d := by
      rw [inBlock, if_pos h0] at h
      rwa [h0]
    rw [Streamer.recvMetaEnd, if_pos h0]
    refine ⟨d, by simp [hobs], ?_, ?_⟩
    · split
      · exact { hat with }
      · exact { hat with }
    · split <;> exact Nat.le_refl _
  · rw [inBlock, if_neg h0] at h
    rw [Streamer.recvMetaEnd, if_neg h0]
    exact ⟨d, rfl, by rwa [hnext], by rw [hnext]; exact Nat.zero_le _⟩

theorem recvMetaBlock_feeds (h : FeedsAt wire (inBlock s.metaInterval s.metaLeft) s d)
    (hn : s.metaInterval ≠ 0) (hnext : s.metaNext = 0)
    (hstate : s.state ≠ .recvHeaders ∧ s.state ≠ .streamingWait)
    (hlen : s.metaLeft = 0 → s.headerLen ≤ 4080) (r : Incoming) :
    ∃ d', Runs.watch watchBody d (s.recvMetaBlock r).2 = some d' ∧
      Feeds wire (s.recvMetaBlock r).1 d' := by
  by_cases h0 : s.metaLeft = 0
  · simp only [Streamer.recvMetaBlock, h0, ne_eq, not_true, if_false]
    exact recvMetaEnd_feeds h hnext (hlen h0)
  · have hfeeds : Feeds wire s d := by
      rw [inBlock, if_neg h0] at h
      exact ⟨by rwa [hnext], by omega⟩
    simp only [Streamer.recvMetaBlock, h0, ne_eq, not_false_eq_true, if_true]
    apply Streamer.received_watch (R := Feeds wire) (watchBody_recv h0) hfeeds
      (hfeeds.disconnectWith past_stopped) (hfeeds.disconnectWith past_stopped)
    intro bs hne hr
    obtain ⟨hwire, hle⟩ := recvBytes_eq hr
    have hblock := h.block_le h0
    have hobs : watchBody d (.metaBytes s.headerLen s.metaLeft bs) =
        some { d with body := d.body ++ bs } := by
      apply if_pos
      unfold MAX_HEADER
      omega
    have hscan : Icy.scan d.metaint (inBlock s.metaInterval s.metaLeft) bs =
        (inBlock s.metaInterval (s.metaLeft - bs.length), []) := by
      rw [inBlock, if_neg h0, h.interval]
      exact scan_block (by rwa [← h.interval]) _ hne hle
    have htake : FeedsAt wire (inBlock s.metaInterval (s.metaLeft - bs.length)) (s.storeMeta bs)
        { d with body := d.body ++ bs } :=
      h.take hwire hstate hscan (by omega)
    obtain ⟨d', hwatch, hfeeds'⟩ := recvMetaEnd_feeds (s := s.storeMeta bs) htake hnext
      (show s.headerLen + bs.length ≤ 4080 by omega)
    refine ⟨d', ?_, hfeeds'⟩
    simp only [Streamer.metaBytes, Runs.watch_cons, hobs, Option.bind_some]
    exact hwatch

theorem recvMeta_feeds (h : Feeds wire s d) (hn : s.metaInterval ≠ 0) (hnext : s.metaNext = 0)
    (hstate : s.state ≠ .recvHeaders ∧ s.state ≠ .streamingWait) (r r' : Incoming) :
    ∃ d', Runs.watch watchBody d (s.recvMeta r r').2 = some d' ∧
      Feeds wire (s.recvMeta r r').1 d' := by
  by_cases h0 : s.metaLeft = 0
  · simp only [Streamer.recvMeta, h0, if_true]
    apply Streamer.received_watch (R := Feeds wire) (watchBody_recv (by decide)) h
      (h.disconnectWith past_stopped) (h.disconnectWith past_stopped)
    intro bs hne hr
    obtain ⟨hwire, hle⟩ := recvBytes_eq hr
    -- one byte was asked for
    obtain ⟨c, rfl⟩ : ∃ c, bs = [c] := by
      match bs, hne, hle with
      | [c], _, _ => exact ⟨c, rfl⟩
    have hscan : Icy.scan d.metaint ⟨s.metaNext, s.metaLeft⟩ [c] =
        (inBlock s.metaInterval (16 * c.toNat), []) := by
      rw [hnext, h0, h.interval]
      exact scan_length (by rwa [← h.interval]) c
    have hc := c.toNat_lt
    have htake : FeedsAt wire (inBlock s.metaInterval (16 * c.toNat)) (s.startMeta c)
        { d with body := d.body ++ [c] } :=
      h.toFeedsAt.take hwire hstate hscan (by omega)
    exact recvMetaBlock_feeds (s := s.startMeta c) htake hn hnext hstate
      (fun _ => Nat.zero_le _) r'
  · simp only [Streamer.recvMeta, h0, if_false]
    refine recvMetaBlock_feeds ?_ hn hnext hstate (fun hz => absurd hz h0) r'
    rw [inBlock, if_neg h0, ← hnext]
    exact h.toFeedsAt

/-- A byte of the response header, stored. -/
theorem storeHeader_feeds (h : Feeds wire s d) (hstate : s.state = .recvHeaders) {c : UInt8}
    (hwire : s.wire = c :: s.wire.drop 1) :
    Feeds wire (s.storeHeader c) { d with head := d.head ++ [c] } := by
  have hbody := h.quiet (.inl hstate)
  have hat : ∀ header headerLen,
      Feeds wire { s with wire := s.wire.drop 1, header := header, headerLen := headerLen }
        { d with head := d.head ++ [c] } := by
    intro header headerLen
    have hleft : s.metaLeft = 0 := by
      have hscan := h.scan
      rw [hbody] at hscan
      exact (congrArg (fun q => q.1.left) hscan).symm
    refine ⟨{ h.toFeedsAt with wire_eq := ?_, block_le := ?_ }, h.next_le⟩
    · have heq := h.wire_eq
      rw [hbody, List.append_nil, hwire] at heq
      simp only [hbody, List.append_nil, List.append_assoc]
      exact heq
    · exact fun hl => absurd hleft hl
  simp only [Streamer.storeHeader]
  split
  · exact (hat _ _).disconnectWith past_disconnect
  · exact hat _ _

theorem recvHeader_feeds (h : Feeds wire s d) (hstate : s.state = .recvHeaders)
    (hpoll : s.polling = none) (r : Incoming) :
    ∃ d', Runs.watch watchBody d (s.recvHeader r).2 = some d' ∧
      Feeds wire (s.recvHeader r).1 d' := by
  apply Streamer.received_watch (R := Feeds wire) (watchBody_recv (by decide)) h
    (h.disconnectWith past_stopped) (h.disconnectWith past_stopped)
  intro bs hne hr
  obtain ⟨hwire, hle⟩ := recvBytes_eq hr
  obtain ⟨c, rfl⟩ : ∃ c, bs = [c] := by
    match bs, hne, hle with
    | [c], _, _ => exact ⟨c, rfl⟩
  have hs := storeHeader_feeds h hstate hwire
  have hzero : (s.storeHeader c).metaInterval = 0 := by
    have hz := h.early (.inr (.inl hstate))
    simp only [Streamer.storeHeader]
    split <;> exact hz
  have hpoll' : (s.storeHeader c).polling = none := by
    simp only [Streamer.storeHeader]
    split <;> exact hpoll
  have hbody := h.quiet (.inl hstate)
  refine ⟨{ d with head := d.head ++ [c] }, ?_, ?_⟩
  · show Runs.watch watchBody d (s.headerByte c).2 = _
    unfold Streamer.headerByte
    split
    · split <;> rfl
    · rfl
  · show Feeds wire (s.headerByte c).1 _
    unfold Streamer.headerByte
    split
    · split
      · -- the body begins, or waits for `cont`; nothing of it has been taken
        refine ⟨{ hs.toFeedsAt with early := ?_, quiet := ?_, polled := ?_, notFile := ?_ },
          hs.next_le⟩
        · exact fun _ => hzero
        · exact fun _ => hbody
        · simp [Streamer.endHeader, hpoll']
        · simp only [Streamer.endHeader]
          split <;> decide
      · exact ⟨{ hs.toFeedsAt with }, hs.next_le⟩
    · exact ⟨{ hs.toFeedsAt with }, hs.next_le⟩

/-- The request is sent, or could not be. -/
theorem sendHeader_feeds (h : Feeds wire s d) (hstate : s.state = .sendHeaders) (sent : Bool) :
    ∃ d', Runs.watch watchBody d (s.sendHeader sent).2 = some d' ∧
      Feeds wire (s.sendHeader sent).1 d' := by
  have hzero := h.early (.inl hstate)
  have hint := h.interval
  have hscan := h.scan
  rw [← hint, hzero, scan_zero] at hscan
  have hleft : s.metaLeft = 0 := (congrArg (fun q => q.1.left) hscan).symm
  cases sent with
  | false =>
      have hat : FeedsAt wire _ { s with state := .disconnect, disconnect := .localDisconnect } d :=
        h.toFeedsAt.restate (.inl past_disconnect) (.inr rfl)
      exact ⟨d, rfl, { hat with block_le := fun hl => absurd hleft hl }, h.next_le⟩
  | true =>
      -- what came in before counts with the header
      have hplace : Place.head 0 = ⟨s.metaNext, s.metaLeft⟩ := congrArg Prod.fst hscan
      simp only [Streamer.sendHeader, if_true]
      refine ⟨_, rfl, { h.toFeedsAt with
        wire_eq := ?_, stored_eq := ?_, early := ?_, quiet := ?_, scan := ?_,
        block_le := ?_, polled := ?_, notFile := ?_ }, h.next_le⟩
      · simpa using h.wire_eq
      · simpa using h.stored_eq
      · exact fun _ => hzero
      · exact fun _ => rfl
      · rw [← hint, hzero, scan_nil, hplace]
      · exact fun hl => absurd hleft hl
      · exact fun hp => ⟨(h.polled hp).1, StreamState.noConfusion⟩
      · exact StreamState.noConfusion

/-- The section after `poll`. -/
theorem afterPoll_feeds (h : Feeds wire s d) (p : Streamer.Poll) :
    ∃ d', Runs.watch watchBody d (s.afterPoll p).2 = some d' ∧
      Feeds wire (s.afterPoll p).1 d' := by
  rcases hpoll : s.polling with - | out
  · exact ⟨d, by simp [Streamer.afterPoll, hpoll], by simpa [Streamer.afterPoll, hpoll] using h⟩
  obtain ⟨hspace, hwait⟩ := h.polled (by simp [hpoll])
  have h' : Feeds wire { s with polling := none } d :=
    ⟨h.toFeedsAt.restate (.inr rfl) (.inl rfl), h.next_le⟩
  simp only [Streamer.afterPoll, hpoll]
  split
  · exact ⟨d, rfl, h'⟩
  split
  · rename_i hsend
    exact sendHeader_feeds h' hsend.2 p.sent
  split
  swap
  · exact ⟨d, rfl, h'⟩
  split
  · rename_i hstate
    exact recvHeader_feeds h' hstate rfl p.first
  rename_i hrecv
  split
  · rename_i hmeta
    exact recvMeta_feeds h' hmeta.1 hmeta.2 ⟨hrecv, hwait⟩ p.first p.second
  · rename_i hmeta
    exact recvBody_feeds h' rfl hspace ⟨hrecv, hwait⟩ hmeta p.first

/-! ### The controller and the decoder -/

theorem processCont_feeds (h : Feeds wire s d) (metaint : ℕ) :
    ∃ d', Runs.watch watchBody d (s.processCont metaint).2 = some d' ∧
      Feeds wire (s.processCont metaint).1 d' := by
  simp only [Streamer.processCont]
  split
  · split
    · -- the interval is told before any byte of the body is taken
      rename_i hstate
      have hzero := h.early (.inr (.inr hstate))
      have hbody := h.quiet (.inr hstate)
      have hscan := h.scan
      rw [← h.interval, hzero, hbody, scan_nil] at hscan
      have hleft : s.metaLeft = 0 := (congrArg (fun q => q.1.left) hscan).symm
      have hout : [] = d.out := congrArg Prod.snd hscan
      refine ⟨_, rfl, { h.toFeedsAt with
        interval := rfl, early := ?_, quiet := ?_, scan := ?_, polled := ?_, notFile := ?_ },
        Nat.le_refl _⟩
      · simp
      · simp
      · rw [hbody, scan_nil, hleft, ← hout]
        rfl
      · exact fun hp => ⟨(h.polled hp).1, StreamState.noConfusion⟩
      · exact StreamState.noConfusion
    · exact ⟨d, rfl, { h.toFeedsAt with }, h.next_le⟩
  · exact ⟨d, rfl, h⟩

theorem update_feeds (h : Feeds wire s d) :
    ∃ d', Runs.watch watchBody d s.update.2 = some d' ∧ Feeds wire s.update.1 d' := by
  have hstop : Feeds wire s.settle d := by
    unfold Streamer.settle
    split
    · exact ⟨h.toFeedsAt.restate (.inl past_stopped) (.inr rfl), h.next_le⟩
    · exact h
  refine ⟨d, ?_, { hstop.toFeedsAt with }, hstop.next_le⟩
  -- what is sent does not count here
  unfold Streamer.update
  cases s.settle.respDue <;> cases s.metaSend <;> rfl

theorem drain_feeds (h : Feeds wire s d) (n : ℕ) :
    ∃ d', Runs.watch watchBody d (s.drain n).2 = some d' ∧ Feeds wire (s.drain n).1 d' := by
  by_cases hn : n ≤ bufUsed s.streambuf
  · simp only [Streamer.drain, hn, if_true]
    refine ⟨_, rfl, { h.toFeedsAt with wf := ?_, stored_eq := ?_, polled := ?_ }, h.next_le⟩
    · exact wf_bufIncReadp h.wf (Nat.le_trans hn (Nat.le_of_lt h.wf.used_lt))
    · rw [content_bufIncReadp h.wf hn, List.append_assoc, List.take_append_drop]
      exact h.stored_eq
    · exact fun hp => ⟨space_bufIncReadp h.wf hn (h.polled hp).1, (h.polled hp).2⟩
  · simp only [Streamer.drain, hn, if_false]
    exact ⟨d, rfl, h⟩

/-! ### Runs -/

/-- Every event on the same stream keeps the link. -/
theorem streamStep_feeds (h : Feeds wire s d) {e : StreamEvent} (he : e.SameStream) :
    ∃ d', Runs.watch watchBody d (streamStep s e).2 = some d' ∧
      Feeds wire (streamStep s e).1 d' := by
  cases e with
  | sock | sockUnreachable | file => exact absurd he id
  | top file =>
      simp only [streamStep, Streamer.top]
      split
      · exact ⟨d, rfl, h⟩
      · rename_i hidle
        have hnot := h.notFile
        simp only [hnot, if_false]
        have hspace : 0 < s.space := by
          have : ¬ s.space = 0 := fun h0 => hidle (.inr (.inl h0))
          omega
        have hwait : s.state ≠ .streamingWait := by
          intro hw
          exact hidle (.inr (.inr (by rw [hw]; rfl)))
        exact ⟨d, rfl, { h.toFeedsAt with polled := fun _ => ⟨hspace, hwait⟩ }, h.next_le⟩
  | poll p => exact afterPoll_feeds h p
  | pollTimeout => exact ⟨d, rfl, h.toFeedsAt.restate (.inr rfl) (.inl rfl), h.next_le⟩
  | close => exact ⟨d, rfl, h.toFeedsAt.restate (.inl past_stopped) (.inr rfl), h.next_le⟩
  | cont metaint => exact processCont_feeds h metaint
  | update => exact update_feeds h
  | drain n => exact drain_feeds h n

/-- A new stream.  The thread may be anywhere, also between its two sections. -/
theorem sock_feeds (s : Streamer) (hwf : s.streambuf.Wf) (hsize : 1 < s.streambuf.size)
    (header : List UInt8) (threshold : ℕ) (autostart : ℤ) (wire : List UInt8) :
    Feeds wire (s.sock header threshold autostart wire) .start where
  wire_eq := rfl
  wf := wf_bufFlush hwf
  stored_eq := (content_bufFlush s.streambuf).symm
  interval := rfl
  early := fun _ => rfl
  quiet := fun _ => rfl
  scan := rfl
  block_le := fun hl => absurd rfl hl
  polled := by
    have hflush := wf_bufFlush hwf
    have hcont := hflush.contWrite_pos
    have hsum := hflush.used_add_space
    have hused : bufUsed (bufFlush s.streambuf) = 0 := by simp [bufUsed, bufFlush]
    have hsz : (bufFlush s.streambuf).size = s.streambuf.size := rfl
    have hspace : 0 < min (bufSpace (bufFlush s.streambuf)) (bufContWrite (bufFlush s.streambuf)) := by
      omega
    exact fun _ => ⟨hspace, StreamState.noConfusion⟩
  notFile := StreamState.noConfusion
  next_le := Nat.le_refl 0

end SqueezeliteMuse
