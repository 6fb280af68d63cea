/-
SqueezeliteMuse/MetaDelivery.lean

What the controller sends of the response header and of the metadata.

`stream.header` and `stream.header_len` hold three things in turn: the response
header until it is sent, a metadata block while it comes in, and a complete
block until it is sent.  Nothing in the thread waits for the controller, so the
length byte of a block (an empty one too) clears `header_len` under whatever is
still to be sent.

`watchDelivery` is what the two sides agree on: RESP carries the response
header, META a complete block that was not sent before.

Main result: `meta_delivered`: both are kept in every run in which no length
byte is read before its turn (`orderly`).
-/
import SqueezeliteMuse.Stream

namespace SqueezeliteMuse

/-! ### The specification -/

/-- The response header and whether it is complete; the metadata block coming
in and its length; the complete block to be sent. -/
structure Delivery where
  hdr : List UInt8
  done : Bool
  need : ℕ
  block : List UInt8
  pending : Option (List UInt8)

/-- A stream before its request. -/
def Delivery.start : Delivery := ⟨[], false, 0, [], none⟩

/-- Read one observation. -/
def watchDelivery (d : Delivery) : StreamObs → Option Delivery
  | .headerByte _ c => if d.done then none else some { d with hdr := d.hdr ++ [c] }
  | .headerEnd _ => some { d with done := true }
  | .metaLength c => some { d with need := 16 * c.toNat, block := [] }
  | .metaBytes _ _ bs => some { d with block := d.block ++ bs }
  | .metaEnd _ =>
      if d.block.length = d.need then
        some (if d.block = [] then d else { d with pending := some d.block })
      else none
  | .resp bs => if d.done ∧ bs = d.hdr then some d else none
  | .metadata bs => if d.pending = some bs then some { d with pending := none } else none
  | .recv _ | .request | .interval _ | .body _ | .drain _ => some d

/-! ### The condition -/

/-- The section after `poll` is about to read the length of a metadata block. -/
def lengthDue (s : Streamer) (p : Streamer.Poll) : Bool :=
  s.polling.isSome && s.fd && (p.pollin || p.pollhup) && s.state != .sendHeaders &&
    s.state != .recvHeaders && s.metaInterval != 0 && s.metaNext == 0 && s.metaLeft == 0

/-- The block of length `c` is not empty and comes in whole, together with its length. -/
def comesWhole (s : Streamer) (p : Streamer.Poll) (c : UInt8) : Bool :=
  c != 0 &&
    match recvBytes (s.wire.drop 1) (16 * c.toNat) p.second with
    | .bytes bs => bs.length == 16 * c.toNat
    | _ => false

theorem comesWhole_iff {s : Streamer} {p : Streamer.Poll} {c : UInt8} :
    comesWhole s p c = true ↔ c ≠ 0 ∧
      ∃ bs, recvBytes (s.wire.drop 1) (16 * c.toNat) p.second = .bytes bs ∧
        bs.length = 16 * c.toNat := by
  unfold comesWhole
  generalize recvBytes (s.wire.drop 1) (16 * c.toNat) p.second = r
  cases r <;> simp

/-- No length byte is read before the response header is sent, nor while a block
is still to be sent, unless the block it starts takes its place at once. -/
def orderly (s : Streamer) : StreamEvent → Bool
  | .poll p =>
      !lengthDue s p ||
        match recvBytes s.wire 1 p.first with
        | .bytes (c :: _) => s.sentHeaders && (!s.metaSend || comesWhole s p c)
        | _ => true
  | _ => true

/-! ### The invariant -/

/-- The link between a stream and what is agreed on. -/
structure Delivers (s : Streamer) (d : Delivery) : Prop where
  early : s.state = .sendHeaders ∨ s.state = .recvHeaders →
    s.metaInterval = 0 ∧ s.sentHeaders = false ∧ d.done = false
  sending : s.state = .sendHeaders → d.hdr = []
  receiving : s.state = .recvHeaders → peek s.header s.headerLen = d.hdr
  due : s.state = .streamingHttp ∨ s.state = .streamingWait ∨ s.state = .streamingBuffering →
    d.done = true
  unsent : s.sentHeaders = false → s.metaLeft = 0 ∧ s.metaSend = false ∧
    (d.done = true → peek s.header s.headerLen = d.hdr)
  partway : s.metaLeft ≠ 0 → peek s.header s.headerLen = d.block ∧
    d.need = s.headerLen + s.metaLeft ∧ s.metaSend = false
  pending : d.pending = if s.metaSend then some (peek s.header s.headerLen) else none

variable {s : Streamer} {d : Delivery}

/-- The state may change to one in which no header is due, or stays due. -/
theorem Delivers.restate (h : Delivers s d) {state : StreamState}
    (hstate : state = .stopped ∨ state = .disconnect ∨ state = s.state ∨
      (state = .streamingHttp ∨ state = .streamingBuffering) ∧
        (s.state = .streamingBuffering ∨ s.state = .streamingWait)) :
    Delivers { s with state := state } d where
  early := by
    rcases hstate with rfl | rfl | rfl | ⟨rfl | rfl, -⟩
    · simp
    · simp
    · exact h.early
    · simp
    · simp
  sending := by
    rcases hstate with rfl | rfl | rfl | ⟨rfl | rfl, -⟩
    · simp
    · simp
    · exact h.sending
    · simp
    · simp
  receiving := by
    rcases hstate with rfl | rfl | rfl | ⟨rfl | rfl, -⟩
    · simp
    · simp
    · exact h.receiving
    · simp
    · simp
  due := by
    rcases hstate with rfl | rfl | rfl | ⟨-, hold⟩
    · simp
    · simp
    · exact h.due
    · exact fun _ => h.due (hold.elim (fun hb => .inr (.inr hb)) (fun hw => .inr (.inl hw)))
  unsent := h.unsent
  partway := h.partway
  pending := h.pending

theorem Delivers.disconnectWith (h : Delivers s d) {state : StreamState} {code : DisconnectCode}
    (hstate : state = .stopped ∨ state = .disconnect) :
    Delivers (s.disconnectWith state code) d := by
  have hs : Delivers { s with state := state } d := h.restate (hstate.imp_right .inl)
  exact { hs with }

/-! ### The branches of the thread -/

theorem recvBody_delivers (h : Delivers s d) (r : Incoming) :
    ∃ d', Runs.watch watchDelivery d (s.recvBody r).2 = some d' ∧
      Delivers (s.recvBody r).1 d' := by
  apply Streamer.received_watch (R := Delivers) rfl h (h.disconnectWith (.inr rfl))
    (h.disconnectWith (.inr rfl))
  intro bs _ _
  have hstate : Delivers { s with
      state := if s.state = .streamingBuffering ∧ s.bytes + bs.length > s.threshold
        then .streamingHttp else s.state } d := by
    apply h.restate
    split
    · rename_i hb
      exact .inr (.inr (.inr ⟨.inl rfl, .inl hb.1⟩))
    · exact .inr (.inr (.inl rfl))
  exact ⟨d, rfl, { hstate with }⟩

/-- A metadata block coming in: what is there of it, and what is missing. -/
structure InBlock (s : Streamer) (d : Delivery) : Prop where
  early : s.state ≠ .sendHeaders ∧ s.state ≠ .recvHeaders
  due : s.state = .streamingHttp ∨ s.state = .streamingWait ∨ s.state = .streamingBuffering →
    d.done = true
  sent : s.sentHeaders = true
  block : peek s.header s.headerLen = d.block
  need : d.need = s.headerLen + s.metaLeft

/-- A block of which something is missing, with nothing else to be sent. -/
theorem InBlock.delivers (h : InBlock s d) (hsend : s.metaSend = false)
    (hpend : d.pending = none) : Delivers s d where
  early := by
    rintro (hs | hs)
    · exact absurd hs h.early.1
    · exact absurd hs h.early.2
  sending := fun hs => absurd hs h.early.1
  receiving := fun hs => absurd hs h.early.2
  due := h.due
  unsent := by simp [h.sent]
  partway := fun _ => ⟨h.block, h.need, hsend⟩
  pending := by simp [hsend, hpend]

/-- The end of the branch.  A block that is complete and not empty is left to be
sent; otherwise nothing was to be sent before. -/
theorem recvMetaEnd_delivers (h : InBlock s d)
    (hfree : s.metaLeft = 0 ∧ s.headerLen ≠ 0 ∨ s.metaSend = false ∧ d.pending = none) :
    ∃ d', Runs.watch watchDelivery d s.recvMetaEnd.2 = some d' ∧
      Delivers s.recvMetaEnd.1 d' := by
  have hlen : d.block.length = s.headerLen := by rw [← h.block, length_peek]
  by_cases h0 : s.metaLeft = 0
  · have hneed : d.block.length = d.need := by
      rw [hlen, h.need, h0, Nat.add_zero]
    have hobs : watchDelivery d (.metaEnd s.headerLen) =
        some (if d.block = [] then d else { d with pending := some d.block }) := if_pos hneed
    rw [Streamer.recvMetaEnd, if_pos h0]
    refine ⟨_, by simp only [Runs.watch_cons, hobs, Option.bind_some]; rfl, ?_⟩
    by_cases hempty : s.headerLen = 0
    · -- an empty block
      obtain ⟨hsend, hpend⟩ : s.metaSend = false ∧ d.pending = none :=
        hfree.resolve_left fun hl => hl.2 hempty
      have hnil : d.block = [] := List.length_eq_zero_iff.mp (hlen.trans hempty)
      rw [if_pos hnil]
      split
      · rename_i hne
        exact absurd hempty hne
      · exact { h.delivers hsend hpend with }
    · have hnil : d.block ≠ [] := by
        intro hn
        rw [hn] at hlen
        exact hempty hlen.symm
      rw [if_neg hnil]
      split
      swap
      · rename_i hne
        exact absurd hempty hne
      · refine ⟨?_, fun hs => absurd hs h.early.1, fun hs => absurd hs h.early.2, h.due, ?_, ?_, ?_⟩
        · rintro (hs | hs)
          · exact absurd hs h.early.1
          · exact absurd hs h.early.2
        · simp [h.sent]
        · exact fun hl => absurd h0 hl
        · simp [peek_write_of_le, h.block]
  · obtain ⟨hsend, hpend⟩ : s.metaSend = false ∧ d.pending = none :=
      hfree.resolve_left fun hl => h0 hl.1
    rw [Streamer.recvMetaEnd, if_neg h0]
    exact ⟨d, rfl, h.delivers hsend hpend⟩

/-- Bytes of a block. -/
theorem metaBytes_delivers (h : InBlock s d) {bs : List UInt8} (hne : bs ≠ [])
    (hle : bs.length ≤ s.metaLeft)
    (hfree : bs.length = s.metaLeft ∨ s.metaSend = false ∧ d.pending = none) :
    ∃ d', Runs.watch watchDelivery d (s.metaBytes bs).2 = some d' ∧
      Delivers (s.metaBytes bs).1 d' := by
  have hpos := List.length_pos_of_ne_nil hne
  have hstore : InBlock (s.storeMeta bs) { d with block := d.block ++ bs } := by
    refine ⟨h.early, h.due, h.sent, ?_, ?_⟩
    · show peek (Ring.write s.header s.headerLen bs) (s.headerLen + bs.length) = _
      rw [peek_write, h.block]
    · show d.need = s.headerLen + bs.length + (s.metaLeft - bs.length)
      rw [h.need]
      omega
  have hfree' : (s.storeMeta bs).metaLeft = 0 ∧ (s.storeMeta bs).headerLen ≠ 0 ∨
      (s.storeMeta bs).metaSend = false ∧ d.pending = none := by
    refine hfree.imp_left fun hlen => ?_
    show s.metaLeft - bs.length = 0 ∧ s.headerLen + bs.length ≠ 0
    omega
  obtain ⟨d', hwatch, hdel⟩ := recvMetaEnd_delivers hstore hfree'
  exact ⟨d', hwatch, hdel⟩

theorem recvMetaBlock_delivers (h : InBlock s d) (r : Incoming)
    (hfree : (s.metaLeft ≠ 0 ∧ ∃ bs, recvBytes s.wire s.metaLeft r = .bytes bs ∧
        bs.length = s.metaLeft) ∨ s.metaSend = false ∧ d.pending = none) :
    ∃ d', Runs.watch watchDelivery d (s.recvMetaBlock r).2 = some d' ∧
      Delivers (s.recvMetaBlock r).1 d' := by
  by_cases h0 : s.metaLeft = 0
  · rw [Streamer.recvMetaBlock, if_neg (not_not.mpr h0)]
    exact recvMetaEnd_delivers h (.inr (hfree.resolve_left fun hl => hl.1 h0))
  rw [Streamer.recvMetaBlock, if_pos h0]
  rcases hfree with ⟨-, bs, hr, hlen⟩ | hfree
  · -- the whole block is there: it takes the place of what was to be sent
    have hne : bs ≠ [] := by
      rintro rfl
      exact h0 hlen.symm
    obtain ⟨d', hwatch, hdel⟩ := metaBytes_delivers h hne (Nat.le_of_eq hlen) (.inl hlen)
    obtain ⟨b, bs', rfl⟩ := List.exists_cons_of_ne_nil hne
    simp only [Streamer.received, hr]
    exact ⟨d', hwatch, hdel⟩
  · have hdel := h.delivers hfree.1 hfree.2
    apply Streamer.received_watch (R := Delivers) rfl hdel (hdel.disconnectWith (.inl rfl))
      (hdel.disconnectWith (.inl rfl))
    intro bs hne hr
    exact metaBytes_delivers h hne (recvBytes_eq hr).2 (.inr hfree)

theorem recvMeta_delivers (h : Delivers s d) (hn : s.metaInterval ≠ 0) (r r' : Incoming)
    (hturn : s.metaLeft = 0 → ∀ c bs, recvBytes s.wire 1 r = .bytes (c :: bs) →
      s.sentHeaders = true ∧ (s.metaSend = false ∨ c ≠ 0 ∧
        ∃ bs, recvBytes (s.wire.drop 1) (16 * c.toNat) r' = .bytes bs ∧
          bs.length = 16 * c.toNat)) :
    ∃ d', Runs.watch watchDelivery d (s.recvMeta r r').2 = some d' ∧
      Delivers (s.recvMeta r r').1 d' := by
  have hstate : s.state ≠ .sendHeaders ∧ s.state ≠ .recvHeaders :=
    ⟨fun hs => hn (h.early (.inl hs)).1, fun hs => hn (h.early (.inr hs)).1⟩
  by_cases h0 : s.metaLeft = 0
  · rw [Streamer.recvMeta, if_pos h0]
    apply Streamer.received_watch (R := Delivers) rfl h (h.disconnectWith (.inl rfl))
      (h.disconnectWith (.inl rfl))
    intro bs hne hr
    obtain ⟨c, bs', rfl⟩ := List.exists_cons_of_ne_nil hne
    obtain ⟨hsent, hfree⟩ := hturn h0 c bs' hr
    have hstart : InBlock (s.startMeta c) { d with need := 16 * c.toNat, block := [] } :=
      ⟨hstate, h.due, hsent, rfl, (Nat.zero_add _).symm⟩
    refine recvMetaBlock_delivers hstart r' ?_
    rcases hfree with hsend | ⟨hc, hwhole⟩
    · refine .inr ⟨hsend, ?_⟩
      have hp := h.pending
      rwa [if_neg (by simp [hsend])] at hp
    · refine .inl ⟨?_, hwhole⟩
      show 16 * c.toNat ≠ 0
      have hpos : c.toNat ≠ 0 := fun hz => hc (UInt8.toNat_inj.mp hz)
      omega
  · -- a block that has begun goes on
    have hsent : s.sentHeaders = true := by
      by_contra hc
      exact h0 (h.unsent (by simpa using hc)).1
    obtain ⟨hblock, hneed, hsend⟩ := h.partway h0
    have hpend : d.pending = none := by
      have hp := h.pending
      rwa [if_neg (by simp [hsend])] at hp
    rw [Streamer.recvMeta, if_neg h0]
    exact recvMetaBlock_delivers ⟨hstate, h.due, hsent, hblock, hneed⟩ r' (.inr ⟨hsend, hpend⟩)

/-- A byte of the response header, stored. -/
theorem storeHeader_delivers (h : Delivers s d) (hstate : s.state = .recvHeaders) (c : UInt8) :
    Delivers (s.storeHeader c) { d with hdr := d.hdr ++ [c] } ∧
      peek (s.storeHeader c).header (s.storeHeader c).headerLen = d.hdr ++ [c] ∧
      (s.storeHeader c).sentHeaders = false := by
  obtain ⟨hzero, hsent, hdone⟩ := h.early (.inr hstate)
  obtain ⟨hleft, hsend, -⟩ := h.unsent hsent
  have hpeek : peek (Ring.write s.header s.headerLen [c]) (s.headerLen + 1) = d.hdr ++ [c] := by
    rw [← h.receiving hstate]
    exact peek_write s.header s.headerLen [c]
  have hs : Delivers { s with
      wire := s.wire.drop 1
      header := Ring.write s.header s.headerLen [c]
      headerLen := s.headerLen + 1 } { d with hdr := d.hdr ++ [c] } := by
    refine ⟨fun _ => ⟨hzero, hsent, hdone⟩, ?_, fun _ => hpeek, h.due, ?_, ?_, ?_⟩
    · intro hs
      exact absurd (hs.symm.trans hstate) (by decide)
    · exact fun _ => ⟨hleft, hsend, fun _ => hpeek⟩
    · exact fun hl => absurd hleft hl
    · have hp := h.pending
      rw [if_neg (by simp [hsend])] at hp
      simp [hsend, hp]
  simp only [Streamer.storeHeader]
  split
  · exact ⟨hs.disconnectWith (.inr rfl), hpeek, hsent⟩
  · exact ⟨hs, hpeek, hsent⟩

theorem recvHeader_delivers (h : Delivers s d) (hstate : s.state = .recvHeaders) (r : Incoming) :
    ∃ d', Runs.watch watchDelivery d (s.recvHeader r).2 = some d' ∧
      Delivers (s.recvHeader r).1 d' := by
  apply Streamer.received_watch (R := Delivers) rfl h (h.disconnectWith (.inl rfl))
    (h.disconnectWith (.inl rfl))
  intro bs hne _
  obtain ⟨c, bs, rfl⟩ := List.exists_cons_of_ne_nil hne
  obtain ⟨hs, hpeek, hsent⟩ := storeHeader_delivers h hstate c
  have hobs : watchDelivery d (.headerByte s.headerLen c) = some { d with hdr := d.hdr ++ [c] } := by
    simp [watchDelivery, (h.early (.inr hstate)).2.2]
  show ∃ d', Runs.watch watchDelivery d (s.headerByte c).2 = some d' ∧
    Delivers (s.headerByte c).1 d'
  unfold Streamer.headerByte
  split
  · split
    · -- the header is complete, and stays in the buffer until it is sent
      refine ⟨{ d with hdr := d.hdr ++ [c], done := true }, ?_, ?_⟩
      · simp only [Runs.watch_cons, hobs, Option.bind_some]
        rfl
      · have hstate' : (s.storeHeader c).endHeader.state = .streamingWait ∨
            (s.storeHeader c).endHeader.state = .streamingBuffering := by
          simp only [Streamer.endHeader]
          split
          · exact .inl rfl
          · exact .inr rfl
        have hkeep : peek (s.storeHeader c).endHeader.header (s.storeHeader c).endHeader.headerLen =
            peek (s.storeHeader c).header (s.storeHeader c).headerLen :=
          peek_write_of_le (Nat.le_refl _) [0]
        obtain ⟨hleft, hsend, -⟩ := hs.unsent hsent
        refine ⟨?_, ?_, ?_, fun _ => rfl, ?_, ?_, ?_⟩
        · rcases hstate' with hw | hb
          · simp [hw]
          · simp [hb]
        · rcases hstate' with hw | hb
          · simp [hw]
          · simp [hb]
        · rcases hstate' with hw | hb
          · simp [hw]
          · simp [hb]
        · exact fun _ => ⟨hleft, hsend, fun _ => hkeep.trans hpeek⟩
        · exact fun hl => absurd hleft hl
        · have hp := hs.pending
          rw [if_neg (by simp [hsend])] at hp
          rw [if_neg (by simp [Streamer.endHeader, hsend])]
          exact hp
    · refine ⟨{ d with hdr := d.hdr ++ [c] }, ?_, { hs with }⟩
      simp [hobs]
  · refine ⟨{ d with hdr := d.hdr ++ [c] }, ?_, { hs with }⟩
    simp [hobs]

/-- The request is sent, or could not be. -/
theorem sendHeader_delivers (h : Delivers s d) (hstate : s.state = .sendHeaders) (sent : Bool) :
    ∃ d', Runs.watch watchDelivery d (s.sendHeader sent).2 = some d' ∧
      Delivers (s.sendHeader sent).1 d' := by
  obtain ⟨hzero, hsent, hdone⟩ := h.early (.inl hstate)
  obtain ⟨hleft, hsend, -⟩ := h.unsent hsent
  have hempty := h.sending hstate
  have hpend : d.pending = none := by
    have hp := h.pending
    rwa [if_neg (by simp [hsend])] at hp
  cases sent with
  | false =>
      refine ⟨d, rfl, ?_⟩
      simp only [Streamer.sendHeader, Bool.false_eq_true, if_false]
      refine ⟨by simp, by simp, by simp, by simp, ?_, ?_, ?_⟩
      · exact fun _ => ⟨hleft, hsend, fun hd => absurd hd (by simp [hdone])⟩
      · exact fun hl => absurd hleft hl
      · simp [hsend, hpend]
  | true =>
      refine ⟨d, rfl, ?_⟩
      simp only [Streamer.sendHeader, if_true]
      refine ⟨?_, by simp, ?_, by simp, ?_, ?_, ?_⟩
      · exact fun _ => ⟨hzero, hsent, hdone⟩
      · exact fun _ => hempty.symm
      · exact fun _ => ⟨hleft, hsend, fun hd => absurd hd (by simp [hdone])⟩
      · exact fun hl => absurd hleft hl
      · simp [hsend, hpend]

/-- The section after `poll`, when no length byte is read before its turn. -/
theorem afterPoll_delivers (h : Delivers s d) (p : Streamer.Poll)
    (hturn : orderly s (.poll p) = true) :
    ∃ d', Runs.watch watchDelivery d (s.afterPoll p).2 = some d' ∧
      Delivers (s.afterPoll p).1 d' := by
  rcases hpoll : s.polling with - | out
  · exact ⟨d, by simp [Streamer.afterPoll, hpoll], by simpa [Streamer.afterPoll, hpoll] using h⟩
  have h' : Delivers { s with polling := none } d := { h with }
  simp only [Streamer.afterPoll, hpoll]
  split
  · exact ⟨d, rfl, h'⟩
  rename_i hfd
  split
  · rename_i hsend
    exact sendHeader_delivers h' hsend.2 p.sent
  split
  swap
  · exact ⟨d, rfl, h'⟩
  rename_i hin
  split
  · rename_i hstate
    exact recvHeader_delivers h' hstate p.first
  rename_i hrecv
  split
  swap
  · exact recvBody_delivers h' p.first
  rename_i hmeta
  have hsend : s.state ≠ .sendHeaders := fun hs => hmeta.1 (h.early (.inl hs)).1
  refine recvMeta_delivers h' hmeta.1 p.first p.second ?_
  intro hleft c bs hr
  -- this is where the order of the run comes in
  have hdue : lengthDue s p = true := by
    simp only [lengthDue, hpoll, Option.isSome_some, Bool.true_and, Bool.and_eq_true, bne_iff_ne,
      beq_iff_eq]
    exact ⟨⟨⟨⟨⟨⟨by simpa using hfd, hin⟩, hsend⟩, hrecv⟩, hmeta.1⟩, hmeta.2⟩, hleft⟩
  have hr' : recvBytes s.wire 1 p.first = .bytes (c :: bs) := hr
  simp only [orderly, hdue, hr', Bool.not_true, Bool.false_or, Bool.and_eq_true] at hturn
  refine ⟨hturn.1, ?_⟩
  rcases Bool.or_eq_true_iff.mp hturn.2 with hs | hwhole
  · exact .inl (by simpa using hs)
  · exact .inr (comesWhole_iff.mp hwhole)

/-! ### The controller -/

theorem processCont_delivers (h : Delivers s d) (metaint : ℕ) :
    ∃ d', Runs.watch watchDelivery d (s.processCont metaint).2 = some d' ∧
      Delivers (s.processCont metaint).1 d' := by
  simp only [Streamer.processCont]
  split
  · split
    · rename_i hwait
      have hs : Delivers { s with state := .streamingBuffering } d :=
        h.restate (.inr (.inr (.inr ⟨.inr rfl, .inr hwait⟩)))
      exact ⟨d, rfl, { hs with early := by simp }⟩
    · exact ⟨d, rfl, { h with }⟩
  · exact ⟨d, rfl, h⟩

/-- An update pass sends what is agreed on. -/
theorem update_delivers (h : Delivers s d) :
    ∃ d', Runs.watch watchDelivery d s.update.2 = some d' ∧ Delivers s.update.1 d' := by
  have hset : Delivers s.settle d := by
    unfold Streamer.settle
    split
    · exact h.restate (.inl rfl)
    · exact h
  have hkeep : s.settle.sentHeaders = s.sentHeaders ∧ s.settle.metaSend = s.metaSend ∧
      s.settle.metaLeft = s.metaLeft ∧ s.settle.header = s.header ∧
      s.settle.headerLen = s.headerLen := by
    unfold Streamer.settle
    split <;> exact ⟨rfl, rfl, rfl, rfl, rfl⟩
  obtain ⟨hsent, hsend, -⟩ := hkeep
  have hresp : s.settle.respDue = true → d.done = true ∧ peek s.header s.headerLen = d.hdr ∧
      s.metaSend = false := by
    intro hdue
    simp only [Streamer.respDue, Bool.and_eq_true, Bool.not_eq_true', Bool.or_eq_true,
      decide_eq_true_eq] at hdue
    have hdone : d.done = true := by
      apply hset.due
      rcases hdue.2 with (hs | hs) | hs
      · exact .inl hs
      · exact .inr (.inl hs)
      · exact .inr (.inr hs)
    obtain ⟨-, hfree, hhdr⟩ := h.unsent (hsent ▸ hdue.1)
    exact ⟨hdone, hhdr hdone, hfree⟩
  refine ⟨{ d with pending := none }, ?_, ?_⟩
  · simp only [Streamer.update]
    have hpend := h.pending
    by_cases hm : s.metaSend = true
    · -- a block is due, and so no header
      have hno : s.settle.respDue = false := by
        by_contra hc
        have := (hresp (by simpa using hc)).2.2
        simp [hm] at this
      rw [if_pos hm] at hpend
      simp [hno, hm, watchDelivery, hpend]
    · rw [if_neg hm] at hpend
      have hd : { d with pending := none } = d := by rw [← hpend]
      by_cases hdue : s.settle.respDue = true
      · obtain ⟨hdone, hhdr, -⟩ := hresp hdue
        have hobs : watchDelivery d (.resp (peek s.header s.headerLen)) = some d :=
          if_pos ⟨hdone, hhdr⟩
        rw [hd]
        simp [hdue, hm, hobs]
      · rw [hd]
        simp [hdue, hm]
  · have hnone : ∀ {hdr done need block},
        (⟨hdr, done, need, block, none⟩ : Delivery).pending = none := rfl
    unfold Streamer.update
    refine { hset with early := ?_, unsent := ?_, partway := ?_, pending := ?_ }
    · intro hs
      obtain ⟨hzero, hfalse, hdone⟩ := hset.early hs
      have hno : s.settle.respDue = false := by
        rcases hs with hs | hs
        · simp [Streamer.respDue, show s.settle.state = .sendHeaders from hs]
        · simp [Streamer.respDue, show s.settle.state = .recvHeaders from hs]
      exact ⟨hzero, by simp [← hsent, hfalse, hno], hdone⟩
    · intro hs
      have hfalse : s.settle.sentHeaders = false := by
        rw [hsent]
        exact (Bool.or_eq_false_iff.mp hs).1
      obtain ⟨hleft, -, hhdr⟩ := hset.unsent hfalse
      exact ⟨hleft, rfl, hhdr⟩
    · intro hl
      obtain ⟨hblock, hneed, -⟩ := hset.partway hl
      exact ⟨hblock, hneed, rfl⟩
    · rfl

/-! ### Runs -/

/-- Every event on the same stream keeps the link, when no length byte is read
before its turn. -/
theorem streamStep_delivers (h : Delivers s d) {e : StreamEvent} (he : e.SameStream)
    (hturn : orderly s e = true) :
    ∃ d', Runs.watch watchDelivery d (streamStep s e).2 = some d' ∧
      Delivers (streamStep s e).1 d' := by
  cases e with
  | sock | sockUnreachable | file => exact absurd he id
  | top file =>
      simp only [streamStep, Streamer.top]
      split
      · exact ⟨d, rfl, h⟩
      split
      · split
        · exact ⟨d, rfl, h.disconnectWith (.inr rfl)⟩
        · exact ⟨d, rfl, { h with }⟩
        · exact ⟨d, rfl, h.disconnectWith (.inr rfl)⟩
      · exact ⟨d, rfl, { h with }⟩
  | poll p => exact afterPoll_delivers h p hturn
  | pollTimeout => exact ⟨d, rfl, { h with }⟩
  | close =>
      have hs : Delivers { s with state := .stopped } d := h.restate (.inl rfl)
      exact ⟨d, rfl, { hs with }⟩
  | cont metaint => exact processCont_delivers h metaint
  | update => exact update_delivers h
  | drain n =>
      simp only [streamStep, Streamer.drain]
      split
      · exact ⟨d, rfl, { h with }⟩
      · exact ⟨d, rfl, h⟩

theorem sock_delivers (s : Streamer) (header : List UInt8) (threshold : ℕ) (autostart : ℤ)
    (wire : List UInt8) : Delivers (s.sock header threshold autostart wire) .start where
  early := fun _ => ⟨rfl, rfl, rfl⟩
  sending := fun _ => rfl
  receiving := by simp [Streamer.sock]
  due := by simp [Streamer.sock]
  unsent := fun _ => ⟨rfl, rfl, fun hd => absurd hd (by decide)⟩
  partway := fun hl => absurd rfl hl
  pending := rfl

/-- What is to be delivered in the run of a stream: every RESP packet carries the
complete response header and every META packet a complete metadata block, once;
and a block that is complete and not empty stays as it is, with `meta_send` set,
until it is sent or another takes its place. -/
def MetaDelivered (s₀ : Streamer) (evs : List StreamEvent) : Prop :=
  ∃ d, Runs.watch watchDelivery .start (streamMachine.run s₀ evs).2 = some d ∧
    ∀ b, d.pending = some b → (streamMachine.run s₀ evs).1.metaSend = true ∧
      peek (streamMachine.run s₀ evs).1.header (streamMachine.run s₀ evs).1.headerLen = b

/-- The header and the metadata are delivered in every run of a stream, from
`stream_sock` on, in which no length byte is read before its turn. -/
theorem meta_delivered (s₀ : Streamer) (header : List UInt8) (threshold : ℕ) (autostart : ℤ)
    (wire : List UInt8) (evs : List StreamEvent)
    (horder : streamMachine.Along (fun s e => e.SameStream ∧ orderly s e = true)
      (s₀.sock header threshold autostart wire) evs) :
    MetaDelivered (s₀.sock header threshold autostart wire) evs := by
  obtain ⟨d, hwatch, hdel⟩ := streamMachine.run_watched (δ := watchDelivery) (R := Delivers)
    (P := fun s e => e.SameStream ∧ orderly s e = true)
    (fun s d e h he => streamStep_delivers h he.1 he.2)
    (sock_delivers s₀ header threshold autostart wire) horder
  refine ⟨d, hwatch, ?_⟩
  intro b hb
  have hpend := hdel.pending
  rw [hb] at hpend
  split at hpend
  · rename_i hsend
    exact ⟨hsend, (Option.some.inj hpend).symm⟩
  · cases hpend

/-- A header of five bytes and a block of 16, each sent in its turn. -/
theorem meta_delivered_run :
    MetaDelivered ((streamInit ⟨0, fun _ => 0⟩ 16 fun _ => 0).sock [71] 0 2
        ([72, 13, 10, 13, 10] ++ 9 :: 1 :: List.replicate 16 7))
      (List.flatten (List.replicate 6 (turn 0)) ++ [.update, .cont 1] ++ turn 0 ++ turn 9 ++
        turn 9 ++ [.update]) :=
  meta_delivered _ _ _ _ _ _ (by decide)

/-- An empty block comes in while another is still to be sent: `header_len` is
cleared, and META carries nothing. -/
theorem meta_lost :
    ¬ MetaDelivered ((streamInit ⟨0, fun _ => 0⟩ 16 fun _ => 0).sock [71] 0 2
        ([72, 13, 10, 13, 10] ++ 9 :: 1 :: (List.replicate 16 7 ++ [9, 0])))
      (List.flatten (List.replicate 6 (turn 0)) ++ [.update, .cont 1] ++ turn 0 ++ turn 15 ++
        turn 0 ++ turn 0 ++ [.update]) := by
  rintro ⟨d, hwatch, -⟩
  have hnone : Runs.watch watchDelivery .start (streamMachine.run
      ((streamInit ⟨0, fun _ => 0⟩ 16 fun _ => 0).sock [71] 0 2
        ([72, 13, 10, 13, 10] ++ 9 :: 1 :: (List.replicate 16 7 ++ [9, 0])))
      (List.flatten (List.replicate 6 (turn 0)) ++ [.update, .cont 1] ++ turn 0 ++ turn 15 ++
        turn 0 ++ turn 0 ++ [.update])).2 = none := by
    decide
  rw [hnone] at hwatch
  cases hwatch

end SqueezeliteMuse
