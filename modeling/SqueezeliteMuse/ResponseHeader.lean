/-
SqueezeliteMuse/ResponseHeader.lean

How the header of a response is received.

The thread reads the header byte by byte and counts the end-of-line characters in
a row in the static `endtok`; at the fourth the body begins.  The first byte of a
response is not counted, and sets `endtok` back to 0: so what an earlier response
left in it does not matter, and so a header that begins with its end is read on.

A header that fills `stream.header` is too long, and the connection is closed; the
byte that fills it is then looked at all the same.  If it is the fourth, the NUL
is put behind the buffer and the stream moves on with `fd` at -1.

Main result: `received_iff`: the reception is right in every run if and only if the
response neither begins with four end-of-line characters nor has the first four in
a row end with byte `MAX_HEADER`.
-/
import SqueezeliteMuse.Lib.Trailing
import SqueezeliteMuse.Stream

namespace SqueezeliteMuse

open Trailing

namespace Streamer

/-! ### What the reception should be -/

/-- `'\r'` and `'\n'` -/
def eol (c : UInt8) : Bool := c = 13 || c = 10

/-- STREAMING_WAIT, STREAMING_BUFFERING, STREAMING_FILE, STREAMING_HTTP -/
def streaming : StreamState → Bool
  | .streamingWait | .streamingBuffering | .streamingFile | .streamingHttp => true
  | _ => false

/-- STOPPED, DISCONNECT -/
def ended : StreamState → Bool
  | .stopped | .disconnect => true
  | _ => false

/-- The bytes of the header taken so far, and whether the stream has moved on. -/
structure HeaderWatch where
  got : List UInt8
  moved : Bool
  deriving DecidableEq

/-- Read one observation; a byte or a NUL stored behind `stream.header` is refused. -/
def watchHeader (d : HeaderWatch) : StreamObs → Option HeaderWatch
  | .headerByte i c => if i < MAX_HEADER then some { d with got := d.got ++ [c] } else none
  | .headerEnd i => if i < MAX_HEADER then some { d with moved := true } else none
  | _ => some d

/-- The stream is where the bytes of the response that were taken have it: it has moved on exactly
if they end with four end-of-line characters in a row, for the first time. -/
structure Received (wire : List UInt8) (s : Streamer) (d : HeaderWatch) : Prop where
  taken : d.got <+: wire
  closed : d.moved = true → Closed eol 4 d.got
  waiting : d.moved = false → Open eol 4 d.got
  receiving : s.state = .recvHeaders → d.moved = false
  streams : streaming s.state → d.moved = true ∧ s.fd = true
  tooLong : MAX_HEADER ≤ d.got.length → ended s.state ∧ s.fd = false
  moves : ∀ e i, .headerEnd i ∈ (streamStep s e).2 → streaming (streamStep s e).1.state

/-- In every run of the stream that begins here the reception is right. -/
def Receives (s : Streamer) : Prop :=
  ∀ es : List StreamEvent, (∀ e ∈ es, e.SameStream) →
    ∃ d, Runs.watch watchHeader ⟨[], false⟩ (streamMachine.run s es).2 = some d ∧
      Received s.wire (streamMachine.run s es).1 d

/-- The request has just been sent, from a thread that found room in `streambuf`. -/
structure Entering (s : Streamer) : Prop where
  state : s.state = .recvHeaders
  headerLen : s.headerLen = 0
  fd : s.fd = true
  room : 0 < s.space

/-- The response does not begin with its end, and its end is not at the one place where the header
is found too long and complete at once. -/
def HeaderFits (wire : List UInt8) : Prop :=
  ¬4 ≤ trailing eol (wire.take 4) ∧
    ¬(MAX_HEADER ≤ wire.length ∧ Closed eol 4 (wire.take MAX_HEADER))

/-! ### What else the stream does -/

/-- The observation has nothing to do with a response header. -/
def Quiet : StreamObs → Prop
  | .headerByte .. | .headerEnd _ => False
  | _ => True

theorem watch_quiet {log : List StreamObs} (h : ∀ o ∈ log, Quiet o) (d : HeaderWatch) :
    Runs.watch watchHeader d log = some d := by
  apply Runs.watch_ignored
  intro o ho a
  have hquiet := h o ho
  cases o with
  | headerByte | headerEnd => exact absurd hquiet id
  | _ => rfl

variable {s : Streamer}

theorem quiet_received {len : ℕ} {r : Incoming} {failed closed : Streamer}
    {take : List UInt8 → Streamer × List StreamObs} (h : ∀ bs, ∀ o ∈ (take bs).2, Quiet o) :
    ∀ o ∈ (s.received len r failed closed take).2, Quiet o := by
  unfold received
  split
  · exact List.forall_mem_singleton.mpr trivial
  · exact List.forall_mem_singleton.mpr trivial
  · exact List.forall_mem_singleton.mpr trivial
  · exact List.forall_mem_cons.mpr ⟨trivial, h _⟩

theorem received_keeps {P : Streamer → Prop} {len : ℕ} {r : Incoming} {failed closed : Streamer}
    {take : List UInt8 → Streamer × List StreamObs} (hs : P s) (hfailed : P failed)
    (hclosed : P closed) (htake : ∀ bs, P (take bs).1) :
    P (s.received len r failed closed take).1 := by
  unfold received
  split
  · exact hs
  · exact hfailed
  · exact hclosed
  · exact htake _

theorem quiet_recvMetaEnd (s : Streamer) : ∀ o ∈ s.recvMetaEnd.2, Quiet o := by
  unfold recvMetaEnd
  split
  · exact List.forall_mem_singleton.mpr trivial
  · exact fun _ h => absurd h List.not_mem_nil

theorem quiet_recvMetaBlock (s : Streamer) (r : Incoming) :
    ∀ o ∈ (s.recvMetaBlock r).2, Quiet o := by
  unfold recvMetaBlock
  split
  · exact quiet_received fun bs =>
      List.forall_mem_cons.mpr ⟨trivial, quiet_recvMetaEnd (s.storeMeta bs)⟩
  · exact quiet_recvMetaEnd s

theorem quiet_recvMeta (s : Streamer) (r r' : Incoming) : ∀ o ∈ (s.recvMeta r r').2, Quiet o := by
  unfold recvMeta
  split
  · exact quiet_received fun bs =>
      List.forall_mem_cons.mpr ⟨trivial, quiet_recvMetaBlock (s.startMeta (bs.headD 0)) r'⟩
  · exact quiet_recvMetaBlock s r'

theorem quiet_recvBody (s : Streamer) (r : Incoming) : ∀ o ∈ (s.recvBody r).2, Quiet o :=
  quiet_received fun _ => List.forall_mem_singleton.mpr trivial

theorem quiet_top (s : Streamer) (file : Incoming) : ∀ o ∈ (s.top file).2, Quiet o := by
  unfold top
  split
  · exact fun _ h => absurd h List.not_mem_nil
  split
  · split
    · exact List.forall_mem_singleton.mpr trivial
    · exact List.forall_mem_cons.mpr ⟨trivial, List.forall_mem_singleton.mpr trivial⟩
    · exact List.forall_mem_singleton.mpr trivial
  · exact fun _ h => absurd h List.not_mem_nil

theorem quiet_sendHeader (s : Streamer) (sent : Bool) : ∀ o ∈ (s.sendHeader sent).2, Quiet o := by
  cases sent
  · exact fun _ h => absurd h List.not_mem_nil
  · exact List.forall_mem_singleton.mpr trivial

theorem quiet_afterPoll (hstate : s.state ≠ .recvHeaders) (p : Poll) :
    ∀ o ∈ (s.afterPoll p).2, Quiet o := by
  rcases hpoll : s.polling with - | out
  · simp [afterPoll, hpoll]
  simp only [afterPoll, hpoll, hstate, if_false]
  split
  · exact fun _ h => absurd h List.not_mem_nil
  split
  · exact quiet_sendHeader _ p.sent
  split
  · split
    · exact quiet_recvMeta _ p.first p.second
    · exact quiet_recvBody _ p.first
  · exact fun _ h => absurd h List.not_mem_nil

theorem quiet_update (s : Streamer) : ∀ o ∈ s.update.2, Quiet o := by
  unfold update
  cases s.settle.respDue <;> cases s.metaSend <;> simp [Quiet]

theorem quiet_processCont (s : Streamer) (metaint : ℕ) :
    ∀ o ∈ (s.processCont metaint).2, Quiet o := by
  unfold processCont
  split
  · dsimp only
    split
    · exact List.forall_mem_singleton.mpr trivial
    · exact fun _ h => absurd h List.not_mem_nil
  · exact fun _ h => absurd h List.not_mem_nil

theorem quiet_drain (s : Streamer) (n : ℕ) : ∀ o ∈ (s.drain n).2, Quiet o := by
  unfold drain
  split
  · exact List.forall_mem_singleton.mpr trivial
  · exact fun _ h => absurd h List.not_mem_nil

/-- Only the section after `poll` has to do with a response header, while it is received. -/
theorem quiet_streamStep {e : StreamEvent}
    (h : s.state ≠ .recvHeaders ∨ ∀ p, e ≠ .poll p) : ∀ o ∈ (streamStep s e).2, Quiet o := by
  cases e with
  | top file => exact quiet_top s file
  | poll p => exact quiet_afterPoll (h.resolve_right fun hp => hp p rfl) p
  | cont metaint => exact quiet_processCont s metaint
  | update => exact quiet_update s
  | drain n => exact quiet_drain s n
  | pollTimeout | sock | sockUnreachable | file | close =>
      exact fun _ h => absurd h List.not_mem_nil

/-! ### The end of a header -/

theorem streaming_endHeader (s : Streamer) : streaming s.endHeader.state := by
  unfold endHeader
  cases s.contWait <;> rfl

theorem moves_headerByte {c : UInt8} {i : ℕ} (h : .headerEnd i ∈ (s.headerByte c).2) :
    streaming (s.headerByte c).1.state := by
  unfold headerByte at h ⊢
  split at h
  · split at h
    · rename_i heol hend
      rw [if_pos heol, if_pos hend]
      exact streaming_endHeader _
    · simp at h
  · simp at h

/-- The section after `poll`, while the header is received. -/
theorem afterPoll_receiving {out : Bool} (hstate : s.state = .recvHeaders)
    (hpoll : s.polling = some out) (p : Poll) :
    s.afterPoll p =
      if s.fd = true ∧ (p.pollin || p.pollhup) then { s with polling := none }.recvHeader p.first
      else ({ s with polling := none }, []) := by
  have hsend : ¬((p.pollout && out) = true ∧ s.state = .sendHeaders) := by
    rw [hstate]
    simp
  unfold afterPoll
  rw [hpoll]
  dsimp only
  by_cases hfd : s.fd = false
  · rw [if_pos hfd, if_neg (by simp [hfd])]
  · rw [if_neg hfd, if_neg hsend]
    by_cases hin : p.pollin || p.pollhup
    · rw [if_pos hin, if_pos hstate, if_pos ⟨eq_true_of_ne_false hfd, hin⟩]
    · rw [if_neg hin, if_neg fun h => hin h.2]

/-- When a header is found complete the stream moves on. -/
theorem moves_streamStep (s : Streamer) (e : StreamEvent) (i : ℕ)
    (h : .headerEnd i ∈ (streamStep s e).2) : streaming (streamStep s e).1.state := by
  by_cases hquiet : s.state ≠ .recvHeaders ∨ ∀ p, e ≠ .poll p
  · exact absurd (quiet_streamStep hquiet _ h) id
  rw [not_or, not_not] at hquiet
  obtain ⟨hstate, hpoll⟩ := hquiet
  cases e with
  | poll p =>
      rcases hpolling : s.polling with - | out
      · simp [streamStep, afterPoll, hpolling] at h
      rw [streamStep, afterPoll_receiving hstate hpolling] at h ⊢
      split at h
      · rename_i hin
        rw [if_pos hin]
        unfold recvHeader received at h ⊢
        split at h
        · simp at h
        · simp at h
        · simp at h
        · exact moves_headerByte (List.mem_of_ne_of_mem (by simp) h)
      · exact absurd h List.not_mem_nil
  | _ => exact absurd (fun p => StreamEvent.noConfusion) hpoll

/-! ### After the header -/

/-- The header has been received, or will not be. -/
structure Settled (s : Streamer) (moved : Bool) : Prop where
  state : ended s.state ∨ streaming s.state ∧ moved = true ∧ s.fd = true
  closed : ended s.state → s.fd = false

namespace Settled

variable {moved : Bool}

theorem ofEnded (hstate : ended s.state) (hfd : s.fd = false) : Settled s moved :=
  ⟨.inl hstate, fun _ => hfd⟩

theorem congr (h : Settled s moved) {s' : Streamer} (hstate : s'.state = s.state)
    (hfd : s'.fd = s.fd) : Settled s' moved := by
  refine ⟨?_, ?_⟩
  · rw [hstate, hfd]
    exact h.state
  · rw [hstate, hfd]
    exact h.closed

theorem notReceiving (h : Settled s moved) : s.state ≠ .recvHeaders ∧ s.state ≠ .sendHeaders := by
  constructor
  · intro hs
    rcases h.state with hended | ⟨hstream, -⟩
    · rw [hs] at hended
      cases hended
    · rw [hs] at hstream
      cases hstream
  · intro hs
    rcases h.state with hended | ⟨hstream, -⟩
    · rw [hs] at hended
      cases hended
    · rw [hs] at hstream
      cases hstream

theorem recvMetaEnd (h : Settled s moved) : Settled s.recvMetaEnd.1 moved := by
  unfold Streamer.recvMetaEnd
  split
  · apply h.congr
    · dsimp only
      split <;> rfl
    · dsimp only
      split <;> rfl
  · exact h

theorem recvMetaBlock (h : Settled s moved) (r : Incoming) :
    Settled (s.recvMetaBlock r).1 moved := by
  unfold Streamer.recvMetaBlock
  split
  · apply received_keeps (P := fun s => Settled s moved) h (ofEnded rfl rfl) (ofEnded rfl rfl)
    intro bs
    have hstored : Settled (s.storeMeta bs) moved := h.congr rfl rfl
    exact hstored.recvMetaEnd
  · exact h.recvMetaEnd

theorem recvMeta (h : Settled s moved) (r r' : Incoming) : Settled (s.recvMeta r r').1 moved := by
  unfold Streamer.recvMeta
  split
  · apply received_keeps (P := fun s => Settled s moved) h (ofEnded rfl rfl) (ofEnded rfl rfl)
    intro bs
    have hstarted : Settled (s.startMeta (bs.headD 0)) moved := h.congr rfl rfl
    exact hstarted.recvMetaBlock r'
  · exact h.recvMetaBlock r'

theorem recvBody (h : Settled s moved) (r : Incoming) : Settled (s.recvBody r).1 moved := by
  apply received_keeps (P := fun s => Settled s moved) h (ofEnded rfl rfl) (ofEnded rfl rfl)
  intro bs
  unfold bodyBytes
  dsimp only
  split
  · rename_i hbuffering
    have hopen : moved = true ∧ s.fd = true := by
      rcases h.state with hended | ⟨-, hrest⟩
      · rw [hbuffering.1] at hended
        cases hended
      · exact hrest
    exact ⟨.inr ⟨rfl, hopen⟩, fun hended => by cases hended⟩
  · exact h.congr rfl rfl

theorem top (h : Settled s moved) (file : Incoming) : Settled (s.top file).1 moved := by
  unfold Streamer.top
  split
  · exact h
  split
  · split
    · exact ofEnded rfl rfl
    · exact h.congr rfl rfl
    · exact ofEnded rfl rfl
  · exact h.congr rfl rfl

theorem afterPoll (h : Settled s moved) (p : Poll) : Settled (s.afterPoll p).1 moved := by
  obtain ⟨hrecv, hsend⟩ := h.notReceiving
  have h' : Settled { s with polling := none } moved := h.congr rfl rfl
  unfold Streamer.afterPoll
  split
  · exact h
  · simp only [hrecv, hsend, and_false, if_false]
    split
    · exact h'
    split
    · split
      · exact h'.recvMeta p.first p.second
      · exact h'.recvBody p.first
    · exact h'

theorem processCont (h : Settled s moved) (metaint : ℕ) :
    Settled (s.processCont metaint).1 moved := by
  unfold Streamer.processCont
  split
  · dsimp only
    split
    · rename_i hwait
      have hopen : moved = true ∧ s.fd = true := by
        rcases h.state with hended | ⟨-, hrest⟩
        · rw [hwait] at hended
          cases hended
        · exact hrest
      exact ⟨.inr ⟨rfl, hopen⟩, fun hended => by cases hended⟩
    · exact h.congr rfl rfl
  · exact h

theorem update (h : Settled s moved) : Settled s.update.1 moved := by
  have hsettle : Settled s.settle moved := by
    unfold settle
    split
    · rename_i hstate
      exact ofEnded rfl (h.closed (by rw [hstate]; rfl))
    · exact h
  exact hsettle.congr rfl rfl

theorem drain (h : Settled s moved) (n : ℕ) : Settled (s.drain n).1 moved := by
  unfold Streamer.drain
  split
  · exact h.congr rfl rfl
  · exact h

/-- Whatever else happens to the stream, its header is done with. -/
theorem streamStep (h : Settled s moved) {e : StreamEvent} (he : e.SameStream) :
    Settled (streamStep s e).1 moved := by
  cases e with
  | sock | sockUnreachable | file => exact absurd he id
  | top file => exact h.top file
  | poll p => exact h.afterPoll p
  | pollTimeout => exact h.congr rfl rfl
  | close => exact ofEnded rfl rfl
  | cont metaint => exact h.processCont metaint
  | update => exact h.update
  | drain n => exact h.drain n

end Settled

/-! ### A byte of the header -/

/-- The header is being received, and `got` of it is there. -/
structure Receiving (wire got : List UInt8) (s : Streamer) : Prop where
  state : s.state = .recvHeaders
  fd : s.fd = true
  wire_eq : wire = got ++ s.wire
  headerLen : s.headerLen = got.length
  endtok : got ≠ [] → s.endtok = trailing eol got.tail
  short : got.length < MAX_HEADER

variable {wire got : List UInt8} {c : UInt8}

theorem Receiving.congr (h : Receiving wire got s) {s' : Streamer} (hstate : s'.state = s.state)
    (hfd : s'.fd = s.fd) (hwire : s'.wire = s.wire) (hlen : s'.headerLen = s.headerLen)
    (htok : s'.endtok = s.endtok) : Receiving wire got s' where
  state := hstate.trans h.state
  fd := hfd.trans h.fd
  wire_eq := by rw [hwire, ← h.wire_eq]
  headerLen := hlen.trans h.headerLen
  endtok := fun hne => htok.trans (h.endtok hne)
  short := h.short

/-- What the counter is after another byte. -/
theorem Receiving.endtok_concat (h : Receiving wire got s) (c : UInt8) :
    trailing eol (got ++ [c]).tail = if got ≠ [] ∧ eol c then s.endtok + 1 else 0 := by
  rcases got with - | ⟨g, rest⟩
  · rfl
  · rw [h.endtok (List.cons_ne_nil g rest), List.cons_append, List.tail_cons, List.tail_cons,
      trailing_concat]
    simp

/-- A byte ends the header exactly if the first byte aside four end-of-line characters are there
in a row. -/
theorem Receiving.headerByte_eq (h : Receiving wire got s) (c : UInt8) :
    s.headerByte c =
      if trailing eol (got ++ [c]).tail = 4 then
        ((s.storeHeader c).endHeader, [.headerByte got.length c, .headerEnd (got.length + 1)])
      else
        ({ s.storeHeader c with endtok := trailing eol (got ++ [c]).tail },
          [.headerByte got.length c]) := by
  have hlen : (s.storeHeader c).headerLen = got.length + 1 := by
    rw [← h.headerLen]
    unfold storeHeader
    dsimp only
    split <;> rfl
  have htok : (s.storeHeader c).endtok = s.endtok := by
    unfold storeHeader
    dsimp only
    split <;> rfl
  have hfirst : got.length + 1 > 1 ↔ got ≠ [] := by
    rw [ne_eq, ← List.length_eq_zero_iff]
    omega
  have heol : (c = 13 ∨ c = 10) ↔ eol c := by simp [eol]
  have hcond : ((s.storeHeader c).headerLen > 1 ∧ (c = 13 ∨ c = 10)) ↔ (got ≠ [] ∧ eol c) := by
    rw [hlen, hfirst, heol]
  unfold headerByte
  rw [h.endtok_concat, htok, hlen, h.headerLen]
  by_cases hcount : got ≠ [] ∧ eol c
  · rw [if_pos (by rw [← hlen]; exact hcond.mpr hcount), if_pos hcount]
  · rw [if_neg (by rw [← hlen]; exact mt hcond.mp hcount), if_neg hcount, if_neg (by decide)]

/-- The byte before the last of the buffer leaves the connection open. -/
theorem Receiving.store (h : Receiving wire got s) (hwire : s.wire = c :: s.wire.drop 1)
    (hshort : (got ++ [c]).length < MAX_HEADER) (t : ℕ)
    (ht : t = trailing eol (got ++ [c]).tail) :
    Receiving wire (got ++ [c]) { s.storeHeader c with endtok := t } := by
  rw [List.length_append, List.length_singleton] at hshort
  have hroom : ¬s.headerLen + 1 > MAX_HEADER - 1 := by
    rw [h.headerLen]
    omega
  unfold storeHeader
  dsimp only
  rw [if_neg hroom]
  refine ⟨h.state, h.fd, ?_, ?_, fun _ => ht, ?_⟩
  · rw [List.append_assoc, List.singleton_append]
    dsimp only
    rw [← hwire]
    exact h.wire_eq
  · rw [List.length_append, List.length_singleton, ← h.headerLen]
  · rw [List.length_append, List.length_singleton]
    exact hshort

/-- The byte that fills the buffer closes the connection. -/
theorem Receiving.full (h : Receiving wire got s) (c : UInt8)
    (hfull : ¬(got ++ [c]).length < MAX_HEADER) :
    s.storeHeader c = { s with
      wire := s.wire.drop 1
      header := Ring.write s.header s.headerLen [c]
      headerLen := s.headerLen + 1
      state := .disconnect
      disconnect := .localDisconnect
      fd := false } := by
  rw [List.length_append, List.length_singleton] at hfull
  have hlong : s.headerLen + 1 > MAX_HEADER - 1 := by
    rw [h.headerLen]
    omega
  unfold storeHeader
  dsimp only
  rw [if_pos hlong]
  rfl

/-- Where the header does not begin with its end, the first byte does not matter. -/
theorem ends_tail {got : List UInt8} (hfits : HeaderFits wire) (hgot : got <+: wire) :
    4 ≤ trailing eol got ↔ 4 ≤ trailing eol got.tail := by
  apply trailing_tail
  intro hfour
  apply hfits.1
  have hlen : 4 ≤ got.length := by
    have hle := trailing_le eol (got.take 4)
    rw [List.length_take] at hle
    omega
  obtain ⟨rest, rfl⟩ := hgot
  rwa [List.take_append_of_le_length hlen]

/-! ### Runs in which the reception is right -/

/-- The stream and the bytes of its header. -/
inductive HeaderLink (wire : List UInt8) (s : Streamer) (d : HeaderWatch) : Prop
  | receiving (h : Receiving wire d.got s) (hopen : Open eol 4 d.got) (hmoved : d.moved = false)
  | settled (h : Settled s d.moved) (taken : d.got <+: wire)
      (closed : d.moved = true → Closed eol 4 d.got ∧ d.got.length < MAX_HEADER)
      (waiting : d.moved = false → Open eol 4 d.got)

theorem HeaderLink.received {d : HeaderWatch} (h : HeaderLink wire s d) : Received wire s d := by
  cases h with
  | receiving h hopen hmoved =>
      refine ⟨⟨s.wire, h.wire_eq.symm⟩, ?_, fun _ => hopen, fun _ => hmoved, ?_, ?_,
        moves_streamStep s⟩
      · intro hm
        rw [hm] at hmoved
        cases hmoved
      · intro hstream
        rw [h.state] at hstream
        cases hstream
      · intro hlong
        exact absurd h.short (Nat.not_lt.mpr hlong)
  | settled h taken closed waiting =>
      refine ⟨taken, fun hm => (closed hm).1, waiting, ?_, ?_, ?_, moves_streamStep s⟩
      · intro hstate
        exact absurd hstate h.notReceiving.1
      · intro hstream
        rcases h.state with hended | ⟨-, hrest⟩
        · cases hs : s.state <;> rw [hs] at hstream hended <;> cases hstream <;> cases hended
        · exact hrest
      · intro hlong
        rcases h.state with hended | ⟨-, hm, -⟩
        · exact ⟨hended, h.closed hended⟩
        · exact absurd (closed hm).2 (Nat.not_lt.mpr hlong)

theorem headerByte_links (hfits : HeaderFits wire) (h : Receiving wire got s)
    (hopen : Open eol 4 got) (hwire : s.wire = c :: s.wire.drop 1) :
    ∃ d, Runs.watch watchHeader ⟨got, false⟩ (s.headerByte c).2 = some d ∧
      HeaderLink wire (s.headerByte c).1 d := by
  have htaken : got ++ [c] <+: wire := by
    refine ⟨s.wire.drop 1, ?_⟩
    rw [List.append_assoc, List.singleton_append, ← hwire]
    exact h.wire_eq.symm
  have hends := ends_tail hfits htaken
  obtain ⟨hstays, hcloses⟩ := hopen.concat (x := c)
  have hlen : (got ++ [c]).length = got.length + 1 := by simp
  rw [h.headerByte_eq]
  split
  · rename_i hfour
    have hclosed : Closed eol 4 (got ++ [c]) :=
      hcloses.mpr (hends.mpr (Nat.le_of_eq hfour.symm))
    -- it is not the byte that fills the buffer
    have hshort : (got ++ [c]).length < MAX_HEADER := by
      rcases Nat.lt_or_ge (got ++ [c]).length MAX_HEADER with hlt | hge
      · exact hlt
      · have hmax : (got ++ [c]).length = MAX_HEADER := by
          have := h.short
          omega
        refine absurd ⟨?_, ?_⟩ hfits.2
        · rw [← hmax]
          exact htaken.length_le
        · rw [← hmax, ← List.prefix_iff_eq_take.mp htaken]
          exact hclosed
    refine ⟨⟨got ++ [c], true⟩, ?_, .settled ?_ htaken (fun _ => ⟨hclosed, hshort⟩) ?_⟩
    · rw [hlen] at hshort
      simp only [Runs.watch_cons, watchHeader, h.short, hshort, if_true, Option.bind_some,
        Runs.watch_nil]
    · have hstore := h.store hwire hshort _ rfl
      have hmove := streaming_endHeader (s.storeHeader c)
      refine ⟨.inr ⟨hmove, rfl, hstore.fd⟩, fun hended => ?_⟩
      cases hs : (s.storeHeader c).endHeader.state <;> rw [hs] at hmove hended <;>
        cases hmove <;> cases hended
    · intro hm
      cases hm
  · rename_i hfour
    have hopen' : Open eol 4 (got ++ [c]) := by
      apply hstays.mpr
      have hlt := hopen.lt
      have hnot : ¬4 ≤ trailing eol (got ++ [c]) := by
        intro hbig
        have htail := hends.mp hbig
        have hle := trailing_concat_le eol got c
        have hdrop := trailing_tail_le eol (got ++ [c])
        omega
      omega
    refine ⟨⟨got ++ [c], false⟩, ?_, ?_⟩
    · simp only [Runs.watch_cons, watchHeader, h.short, if_true, Option.bind_some, Runs.watch_nil]
    · by_cases hshort : (got ++ [c]).length < MAX_HEADER
      · exact .receiving (h.store hwire hshort _ rfl) hopen' rfl
      · refine .settled ?_ htaken (fun hm => by cases hm) fun _ => hopen'
        rw [h.full c hshort]
        exact Settled.ofEnded rfl rfl

theorem recvHeader_links (hfits : HeaderFits wire) (h : Receiving wire got s)
    (hopen : Open eol 4 got) (r : Incoming) :
    ∃ d, Runs.watch watchHeader ⟨got, false⟩ (s.recvHeader r).2 = some d ∧
      HeaderLink wire (s.recvHeader r).1 d := by
  have hend (code : DisconnectCode) :
      HeaderLink wire (s.disconnectWith .stopped code) ⟨got, false⟩ :=
    .settled (Settled.ofEnded rfl rfl) ⟨s.wire, h.wire_eq.symm⟩ (fun hm => by cases hm)
      fun _ => hopen
  apply Streamer.received_watch (R := HeaderLink wire) rfl (.receiving h hopen rfl)
    (hend .localDisconnect) (hend .localDisconnect)
  intro bs hne hr
  obtain ⟨hwire, hle⟩ := recvBytes_eq hr
  obtain ⟨c, rfl⟩ : ∃ c, bs = [c] := by
    match bs, hne, hle with
    | [c], _, _ => exact ⟨c, rfl⟩
  exact headerByte_links hfits h hopen hwire

/-- Every event on the same stream keeps the link. -/
theorem streamStep_headers {d : HeaderWatch} (hfits : HeaderFits wire) (h : HeaderLink wire s d)
    {e : StreamEvent} (he : e.SameStream) :
    ∃ d', Runs.watch watchHeader d (streamStep s e).2 = some d' ∧
      HeaderLink wire (streamStep s e).1 d' := by
  cases h with
  | settled h taken closed waiting =>
      refine ⟨d, watch_quiet (quiet_streamStep (.inl h.notReceiving.1)) d, ?_⟩
      exact .settled (h.streamStep he) taken closed waiting
  | receiving h hopen hmoved =>
      obtain ⟨got, moved⟩ := d
      obtain rfl : moved = false := hmoved
      by_cases hpoll : ∀ p, e ≠ .poll p
      · refine ⟨⟨got, false⟩, watch_quiet (quiet_streamStep (.inr hpoll)) _, ?_⟩
        have hsame {s' : Streamer} (hr : Receiving wire got s') : HeaderLink wire s' ⟨got, false⟩ :=
          .receiving hr hopen rfl
        cases e with
        | sock | sockUnreachable | file => exact absurd he id
        | poll p => exact absurd rfl (hpoll p)
        | top file =>
            apply hsame
            show Receiving wire got (s.top file).1
            unfold top
            split
            · exact h
            · rw [if_neg (by rw [h.state]; decide)]
              exact h.congr rfl rfl rfl rfl rfl
        | pollTimeout => exact hsame (h.congr rfl rfl rfl rfl rfl)
        | close =>
            exact .settled (Settled.ofEnded rfl rfl) ⟨s.wire, h.wire_eq.symm⟩
              (fun hm => by cases hm) fun _ => hopen
        | cont metaint =>
            apply hsame
            show Receiving wire got (s.processCont metaint).1
            unfold processCont
            split
            · dsimp only
              rw [if_neg (by rw [h.state]; decide)]
              exact h.congr rfl rfl rfl rfl rfl
            · exact h
        | update =>
            apply hsame
            have hsettle : s.settle = s := if_neg (by rw [h.state]; decide)
            show Receiving wire got s.update.1
            unfold update
            rw [hsettle]
            exact h.congr rfl rfl rfl rfl rfl
        | drain n =>
            apply hsame
            show Receiving wire got (s.drain n).1
            unfold drain
            split
            · exact h.congr rfl rfl rfl rfl rfl
            · exact h
      · obtain ⟨p, rfl⟩ : ∃ p, e = .poll p := by
          by_contra hnone
          exact hpoll fun p hp => hnone ⟨p, hp⟩
        rw [streamStep]
        rcases hpolling : s.polling with - | out
        · refine ⟨⟨got, false⟩, ?_, ?_⟩
          · simp [afterPoll, hpolling]
          · simp only [afterPoll, hpolling]
            exact .receiving h hopen rfl
        rw [afterPoll_receiving h.state hpolling]
        have h' : Receiving wire got { s with polling := none } := h.congr rfl rfl rfl rfl rfl
        split
        · exact recvHeader_links hfits h' hopen p.first
        · exact ⟨⟨got, false⟩, rfl, .receiving h' hopen rfl⟩

theorem Entering.receiving (h : Entering s) : Receiving s.wire [] s where
  state := h.state
  fd := h.fd
  wire_eq := rfl
  headerLen := h.headerLen
  endtok := fun hne => absurd rfl hne
  short := by decide

/-- A response that fits is received right, whatever else happens. -/
theorem receives_of_fits (h : Entering s) (hfits : HeaderFits s.wire) : Receives s := by
  intro es hsame
  obtain ⟨d, hwatch, hlink⟩ := streamMachine.run_watched (δ := watchHeader)
    (R := HeaderLink s.wire) (P := fun _ e => e.SameStream)
    (fun s' d e hl he => streamStep_headers hfits hl he)
    (HeaderLink.receiving (d := ⟨[], false⟩) h.receiving (open_nil (by decide)) rfl)
    (streamMachine.along_of_forall hsame _)
  exact ⟨d, hwatch, hlink.received⟩

/-! ### Runs in which it is not -/

/-- So many turns of the thread, each of which finds a byte. -/
def turns : ℕ → List StreamEvent
  | 0 => []
  | n + 1 => turns n ++ turn 0

theorem sameStream_turns (n : ℕ) : ∀ e ∈ turns n, e.SameStream := by
  induction n with
  | zero => exact fun _ h => absurd h List.not_mem_nil
  | succ n ih =>
      intro e he
      rcases List.mem_append.mp he with he | he
      · exact ih e he
      · rw [turn, List.mem_pair] at he
        rcases he with rfl | rfl <;> exact trivial

/-- A turn takes a byte of the header. -/
theorem run_turn {rest : List UInt8} (h : Receiving wire got s) (hroom : 0 < s.space)
    (hwire : s.wire = c :: rest) :
    streamMachine.run s (turn 0) = (({ s with polling := none }.headerByte c).1,
      .recv 1 :: ({ s with polling := none }.headerByte c).2) := by
  have htop : s.top .wouldBlock = ({ s with polling := some false }, []) := by
    unfold top
    have hgoes : ¬(s.fd = false ∨ s.space = 0 ∨ s.state.idle = true) := by
      rw [h.fd, h.state]
      simp only [Bool.true_eq_false, false_or, StreamState.idle, Bool.false_eq_true, or_false]
      omega
    rw [if_neg hgoes, if_neg (by rw [h.state]; decide), h.state]
    rfl
  have hrecv : recvBytes s.wire 1 (.data 0) = .bytes [c] := by
    rw [hwire]
    rfl
  have hpoll : { s with polling := some false }.afterPoll
      ⟨true, true, false, true, .data 0, .data 0⟩ =
        (({ s with polling := none }.headerByte c).1,
          .recv 1 :: ({ s with polling := none }.headerByte c).2) := by
    rw [afterPoll_receiving (s := { s with polling := some false }) h.state rfl,
      if_pos ⟨h.fd, rfl⟩]
    unfold recvHeader received
    dsimp only
    rw [hrecv]
    rfl
  simp only [turn, Runs.Machine.run, streamMachine, streamStep, htop, hpoll, List.nil_append,
    List.append_nil]

/-- Turns take the header byte by byte, as long as nothing ends it. -/
theorem run_turns (h : Entering s) (n : ℕ) (hn : n ≤ s.wire.length) (hmax : n < MAX_HEADER)
    (hopen : ∀ k ≤ n, trailing eol (s.wire.take k).tail < 4) :
    Receiving s.wire (s.wire.take n) (streamMachine.run s (turns n)).1 ∧
      0 < (streamMachine.run s (turns n)).1.space ∧
      Runs.watch watchHeader ⟨[], false⟩ (streamMachine.run s (turns n)).2 =
        some ⟨s.wire.take n, false⟩ := by
  induction n with
  | zero => exact ⟨h.receiving, h.room, rfl⟩
  | succ n ih =>
      obtain ⟨hrecv, hroom, hwatch⟩ := ih (by omega) (by omega) fun k hk => hopen k (by omega)
      generalize hr : streamMachine.run s (turns n) = r at hrecv hroom hwatch
      have hdrop : r.1.wire = s.wire[n] :: s.wire.drop (n + 1) := by
        have heq := hrecv.wire_eq
        nth_rewrite 1 [← List.take_append_drop n s.wire] at heq
        rw [← List.append_cancel_left heq, List.drop_eq_getElem_cons]
      have htake : s.wire.take n ++ [s.wire[n]] = s.wire.take (n + 1) := by
        rw [List.take_append_getElem]
      have hne : trailing eol (s.wire.take n ++ [s.wire[n]]).tail ≠ 4 := by
        rw [htake]
        exact Nat.ne_of_lt (hopen (n + 1) (Nat.le_refl _))
      have hshort : (s.wire.take n ++ [s.wire[n]]).length < MAX_HEADER := by
        rw [htake, List.length_take]
        omega
      have h' : Receiving s.wire (s.wire.take n) { r.1 with polling := none } :=
        hrecv.congr rfl rfl rfl rfl rfl
      have hbyte := h'.headerByte_eq s.wire[n]
      rw [if_neg hne] at hbyte
      rw [turns, Runs.Machine.run_append, hr, run_turn hrecv hroom hdrop, hbyte]
      refine ⟨?_, ?_, ?_⟩
      · rw [← htake]
        refine h'.store ?_ hshort _ rfl
        show r.1.wire = _ :: r.1.wire.drop 1
        rw [hdrop]
        rfl
      · have hspace : ∀ (t : Streamer) (c : UInt8), (t.storeHeader c).space = t.space := by
          intro t c
          unfold storeHeader
          dsimp only
          split <;> rfl
        exact Nat.lt_of_lt_of_eq hroom (hspace { r.1 with polling := none } s.wire[n]).symm
      · rw [Runs.watch_append, hwatch, Option.bind_some]
        simp only [Runs.watch_cons, watchHeader, h'.short, if_true, Option.bind_some,
          Runs.watch_nil, htake]

/-- A response that does not fit is received wrong when it comes in byte by byte. -/
theorem fits_of_receives (h : Entering s) (hall : Receives s) : HeaderFits s.wire := by
  have hfirst : ¬4 ≤ trailing eol (s.wire.take 4) := by
    intro hfour
    have hlen : 4 ≤ s.wire.length := by
      have hle := trailing_le eol (s.wire.take 4)
      rw [List.length_take] at hle
      omega
    have hopen : ∀ k ≤ 4, trailing eol (s.wire.take k).tail < 4 := by
      intro k hk
      have hle := trailing_le eol (s.wire.take k).tail
      rw [List.length_tail, List.length_take] at hle
      omega
    obtain ⟨-, -, hwatch⟩ := run_turns h 4 hlen (by decide) hopen
    obtain ⟨d, hd, hreceived⟩ := hall (turns 4) (sameStream_turns 4)
    obtain rfl := Option.some.inj (hwatch.symm.trans hd)
    exact absurd (hreceived.waiting rfl).lt (Nat.not_lt.mpr hfour)
  refine ⟨hfirst, ?_⟩
  rintro ⟨hlen, hclosed⟩
  have hsize : (s.wire.take MAX_HEADER).length = MAX_HEADER := by
    rw [List.length_take]
    omega
  have hbefore : ∀ k < MAX_HEADER, trailing eol (s.wire.take k) < 4 := by
    intro k hk
    have hlt := hclosed.first k (by rw [hsize]; exact hk)
    rwa [List.take_take, Nat.min_eq_left (Nat.le_of_lt hk)] at hlt
  obtain ⟨m, hm⟩ : ∃ m, m + 1 = MAX_HEADER := ⟨4095, rfl⟩
  have hmax : m < s.wire.length := by omega
  obtain ⟨hrecv, hroom, hwatch⟩ := run_turns h m (Nat.le_of_lt hmax) (by omega)
    fun k hk => Nat.lt_of_le_of_lt (trailing_tail_le eol _) (hbefore k (by omega))
  generalize hr : streamMachine.run s (turns m) = r at hrecv hroom hwatch
  have htake : s.wire.take m ++ [s.wire[m]] = s.wire.take MAX_HEADER := by
    rw [List.take_append_getElem, hm]
  have hdrop : r.1.wire = s.wire[m] :: s.wire.drop MAX_HEADER := by
    have heq := hrecv.wire_eq
    nth_rewrite 1 [← List.take_append_drop m s.wire] at heq
    rw [← List.append_cancel_left heq, List.drop_eq_getElem_cons hmax, hm]
  have hfour : trailing eol (s.wire.take MAX_HEADER).tail = 4 := by
    have hlast := hbefore m (by omega)
    have hup := trailing_concat_le eol (s.wire.take m) s.wire[m]
    rw [htake] at hup
    have hle := trailing_tail_le eol (s.wire.take MAX_HEADER)
    have hfirst' : ¬4 ≤ trailing eol ((s.wire.take MAX_HEADER).take 4) := by
      rw [List.take_take]
      exact hfirst
    have hge := (trailing_tail hfirst').mp hclosed.ends
    omega
  have h' : Receiving s.wire (s.wire.take m) { r.1 with polling := none } :=
    hrecv.congr rfl rfl rfl rfl rfl
  have hbyte := h'.headerByte_eq s.wire[m]
  rw [if_pos (by rw [htake]; exact hfour)] at hbyte
  obtain ⟨d, hd, -⟩ := hall (turns (m + 1)) (sameStream_turns (m + 1))
  -- the NUL is stored behind the buffer
  rw [turns, Runs.Machine.run_append, hr, run_turn hrecv hroom hdrop, hbyte, Runs.watch_append,
    hwatch, Option.bind_some] at hd
  have hlast := congrArg List.length htake
  rw [List.length_append, List.length_singleton, hsize] at hlast
  rw [hlast] at hd
  simp [watchHeader] at hd

/-- **The header of a response is received right in every run exactly if** it does not begin with
four end-of-line characters, and its end is not found with the byte that fills the buffer. -/
theorem received_iff (h : Entering s) : Receives s ↔ HeaderFits s.wire :=
  ⟨fits_of_receives h, receives_of_fits h⟩

/-- The thread has sent the request, and finds room in `streambuf`. -/
theorem entering_sendHeader (hfd : s.fd = true) (hroom : 0 < s.space) :
    Entering (s.sendHeader true).1 :=
  ⟨rfl, rfl, hfd, hroom⟩

/-- A stream whose request has been sent, with this response to come. -/
def requested (wire : List UInt8) : Streamer :=
  (((streamInit ⟨0, fun _ => 0⟩ 16 fun _ => 0).sock [71] 0 2 wire).sendHeader true).1

theorem entering_requested (wire : List UInt8) : Entering (requested wire) := by
  apply entering_sendHeader rfl
  have hspace : ∀ s : Streamer, s.streambuf = bufFlush (bufInit ⟨0, fun _ => 0⟩ 16) →
      0 < s.space := by
    intro s hs
    rw [space, hs]
    decide
  exact hspace _ rfl

/-- A short response is received right. -/
theorem received_short : Receives (requested [72, 13, 10, 13, 10, 1, 2]) :=
  (received_iff (entering_requested _)).mpr
    ⟨by show ¬4 ≤ trailing eol [72, 13, 10, 13]; decide, fun h => absurd h.1 (by decide)⟩

/-- A response of `MAX_HEADER` bytes, the last four of which end it. -/
def fullResponse : List UInt8 := List.replicate 4092 97 ++ [13] ++ [10] ++ [13] ++ [10]

/-- It is found too long and complete with its last byte: the NUL is stored behind the buffer, and
the stream moves on with its connection closed. -/
theorem not_received : ¬∀ s, Entering s → Receives s := by
  intro hall
  have hfits := fits_of_receives (entering_requested fullResponse) (hall _ (entering_requested _))
  have hsize : fullResponse.length = MAX_HEADER := by
    simp only [fullResponse, List.length_append, List.length_replicate, List.length_singleton]
    rfl
  have hplain : ∀ x ∈ List.replicate 4092 (97 : UInt8), ¬eol x := by
    intro x hx
    rw [List.eq_of_mem_replicate hx]
    decide
  have hzero : trailing eol (List.replicate 4092 (97 : UInt8)) = 0 := trailing_eq_zero hplain
  refine hfits.2 ⟨Nat.le_of_eq hsize.symm, ?_⟩
  show Closed eol 4 (fullResponse.take MAX_HEADER)
  rw [← hsize, List.take_length, fullResponse]
  -- one end-of-line character after the other
  have hopen := open_of_forall_not (n := 4) (by decide) hplain
  have hopen₁ := (hopen.concat (x := 13)).1.mpr (by rw [trailing_concat, hzero]; decide)
  have hopen₂ := (hopen₁.concat (x := 10)).1.mpr (by
    rw [trailing_concat, trailing_concat, hzero]
    decide)
  have hopen₃ := (hopen₂.concat (x := 13)).1.mpr (by
    rw [trailing_concat, trailing_concat, trailing_concat, hzero]
    decide)
  exact (hopen₃.concat (x := 10)).2.mpr (by
    rw [trailing_concat, trailing_concat, trailing_concat, trailing_concat, hzero]
    decide)

end Streamer

end SqueezeliteMuse
