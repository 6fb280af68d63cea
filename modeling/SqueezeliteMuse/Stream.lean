/-
SqueezeliteMuse/Stream.lean

The stream of stream.c: the thread that reads a connection into `streambuf`,
and the parts of the controller (slimproto.c) that open and close a stream, tell
it the metadata interval, and copy what it has put into `stream.header`.

The thread takes the mutex twice in each turn of its loop, around the checks at
the top and around the reading after `poll`, and lets go of it between the two.
These two sections are two events (`top`, `poll`), so that anything can happen
in between; `polling` says that the thread is between them, and whether it
asked for `POLLOUT`.  Every other event is one section of the controller or of
the decoder that empties `streambuf`.

What an observer sees is the bytes the thread takes from the connection, with
what it takes them for, and what the controller sends.
-/
import SqueezeliteMuse.Lib.Runs
import SqueezeliteMuse.Buffer
import SqueezeliteMuse.Socket
import Mathlib.Data.Int.Notation

namespace SqueezeliteMuse

/-- `MAX_HEADER`: do not reduce as icy-meta max is 4080. -/
def MAX_HEADER : ℕ := 4096

/-- `stream_state`, in the order of the source. -/
inductive StreamState
  | stopped | disconnect | streamingWait | streamingBuffering | streamingFile | streamingHttp
  | sendHeaders | recvHeaders
  deriving DecidableEq, Repr

/-- `state <= STREAMING_WAIT`: the thread has nothing to read. -/
def StreamState.idle : StreamState → Bool
  | .stopped | .disconnect | .streamingWait => true
  | _ => false

/-- `disconnect_code` -/
inductive DisconnectCode
  | ok | localDisconnect | remoteDisconnect | unreachable | timeout
  deriving DecidableEq, Repr

/-- `struct streamstate`, with what stands around it: the static `endtok`, the
socket (whether it is open, and the bytes still to come), where the thread is,
`streambuf`, and the controller's `autostart`. -/
structure Streamer where
  state : StreamState
  disconnect : DisconnectCode
  header : ℕ → UInt8
  headerLen : ℕ
  sentHeaders : Bool
  contWait : Bool
  bytes : ℕ
  threshold : ℕ
  metaInterval : ℕ
  metaNext : ℕ
  metaLeft : ℕ
  metaSend : Bool
  endtok : ℕ
  fd : Bool
  wire : List UInt8
  polling : Option Bool
  streambuf : Buffer
  autostart : ℤ

/-- What can be seen of a stream. -/
inductive StreamObs
  /-- a call of `recv`, asking for `len` bytes -/
  | recv (len : ℕ)
  /-- the request has been sent -/
  | request
  /-- a byte of the response header, stored at `header[i]` -/
  | headerByte (i : ℕ) (c : UInt8)
  /-- the response header of `i` bytes is complete -/
  | headerEnd (i : ℕ)
  /-- the interval told by `cont` -/
  | interval (metaint : ℕ)
  | metaLength (c : UInt8)
  /-- bytes of a metadata block, stored at `header[i]`, when `left` were missing -/
  | metaBytes (i left : ℕ) (bs : List UInt8)
  /-- the metadata block of `i` bytes is complete -/
  | metaEnd (i : ℕ)
  /-- bytes appended to `streambuf` -/
  | body (bs : List UInt8)
  /-- bytes taken out of `streambuf` -/
  | drain (bs : List UInt8)
  /-- a RESP packet -/
  | resp (bs : List UInt8)
  /-- a META packet -/
  | metadata (bs : List UInt8)
  deriving DecidableEq, Repr

namespace Streamer

/-! ### The thread -/

/-- `_disconnect` -/
def disconnectWith (s : Streamer) (state : StreamState) (code : DisconnectCode) : Streamer :=
  { s with state := state, disconnect := code, fd := false }

/-- `min(_buf_space(streambuf), _buf_cont_write(streambuf))` -/
def space (s : Streamer) : ℕ := min (bufSpace s.streambuf) (bufContWrite s.streambuf)

/-- Bytes read at `writep`, and `_buf_inc_writep`. -/
def append (s : Streamer) (bs : List UInt8) : Streamer :=
  { s with
    wire := s.wire.drop bs.length
    streambuf := bufIncWritep (bufStore s.streambuf bs) bs.length
    bytes := s.bytes + bs.length }

/-- The section at the top of the loop: idle, read a file, or go on to `poll`. -/
def top (s : Streamer) (file : Incoming) : Streamer × List StreamObs :=
  if s.fd = false ∨ s.space = 0 ∨ s.state.idle then (s, [])
  else if s.state = .streamingFile then
    match recvBytes s.wire s.space file with
    | .bytes [] => (s.disconnectWith .disconnect .ok, [.recv s.space])
    | .bytes bs => (s.append bs, [.recv s.space, .body bs])
    | _ => (s.disconnectWith .disconnect .remoteDisconnect, [.recv s.space])
  else ({ s with polling := some (s.state = .sendHeaders) }, [])

/-- `send_header`, and what follows it; `sent` says whether all could be written. -/
def sendHeader (s : Streamer) (sent : Bool) : Streamer × List StreamObs :=
  if sent then ({ s with state := .recvHeaders, headerLen := 0 }, [.request])
  else ({ s with disconnect := .localDisconnect, state := .disconnect, headerLen := 0 }, [])

/-- A call of `recv` for `len` bytes: nothing happens when it would block, and
`take` says what becomes of the bytes it returns. -/
def received (s : Streamer) (len : ℕ) (r : Incoming) (failed closed : Streamer)
    (take : List UInt8 → Streamer × List StreamObs) : Streamer × List StreamObs :=
  match recvBytes s.wire len r with
  | .wouldBlock => (s, [.recv len])
  | .error => (failed, [.recv len])
  | .bytes [] => (closed, [.recv len])
  | .bytes bs => ((take bs).1, .recv len :: (take bs).2)

/-- A byte of the response header, stored at `header + header_len`; a header that
is too long closes the connection. -/
def storeHeader (s : Streamer) (c : UInt8) : Streamer :=
  let s₁ := { s with
    wire := s.wire.drop 1
    header := Ring.write s.header s.headerLen [c]
    headerLen := s.headerLen + 1 }
  if s.headerLen + 1 > MAX_HEADER - 1 then s₁.disconnectWith .disconnect .localDisconnect else s₁

/-- The end of the response header: the body begins, or waits for `cont`. -/
def endHeader (s : Streamer) : Streamer :=
  { s with
    endtok := s.endtok + 1
    header := Ring.write s.header s.headerLen [0]
    state := if s.contWait then .streamingWait else .streamingBuffering }

/-- What becomes of a byte of the response header: the fourth end-of-line
character in a row ends it. -/
def headerByte (s : Streamer) (c : UInt8) : Streamer × List StreamObs :=
  if (s.storeHeader c).headerLen > 1 ∧ (c = 13 ∨ c = 10) then
    if (s.storeHeader c).endtok + 1 = 4 then
      ((s.storeHeader c).endHeader,
        [.headerByte s.headerLen c, .headerEnd (s.storeHeader c).headerLen])
    else
      ({ s.storeHeader c with endtok := (s.storeHeader c).endtok + 1 },
        [.headerByte s.headerLen c])
  else ({ s.storeHeader c with endtok := 0 }, [.headerByte s.headerLen c])

/-- Get response headers, one byte at a time to catch end of header. -/
def recvHeader (s : Streamer) (r : Incoming) : Streamer × List StreamObs :=
  s.received 1 r (s.disconnectWith .stopped .localDisconnect)
    (s.disconnectWith .stopped .localDisconnect) fun bs => s.headerByte (bs.headD 0)

/-- The end of the metadata branch: a block that is complete is left to be sent. -/
def recvMetaEnd (s : Streamer) : Streamer × List StreamObs :=
  if s.metaLeft = 0 then
    let s₁ := if s.headerLen ≠ 0 then
        { s with header := Ring.write s.header s.headerLen [0], metaSend := true }
      else s
    ({ s₁ with metaNext := s.metaInterval }, [.metaEnd s.headerLen])
  else (s, [])

/-- Bytes of a metadata block, stored at `header + header_len`. -/
def storeMeta (s : Streamer) (bs : List UInt8) : Streamer :=
  { s with
    wire := s.wire.drop bs.length
    header := Ring.write s.header s.headerLen bs
    headerLen := s.headerLen + bs.length
    metaLeft := s.metaLeft - bs.length }

/-- What becomes of bytes of a metadata block. -/
def metaBytes (s : Streamer) (bs : List UInt8) : Streamer × List StreamObs :=
  ((s.storeMeta bs).recvMetaEnd.1,
    .metaBytes s.headerLen s.metaLeft bs :: (s.storeMeta bs).recvMetaEnd.2)

/-- The middle of the metadata branch: receive what is left of the block. -/
def recvMetaBlock (s : Streamer) (r : Incoming) : Streamer × List StreamObs :=
  if s.metaLeft ≠ 0 then
    s.received s.metaLeft r (s.disconnectWith .stopped .localDisconnect)
      (s.disconnectWith .stopped .localDisconnect) s.metaBytes
  else s.recvMetaEnd

/-- The length of a metadata block; `header_len` counts what is received of it. -/
def startMeta (s : Streamer) (c : UInt8) : Streamer :=
  { s with
    wire := s.wire.drop 1
    headerLen := 0
    metaLeft := 16 * c.toNat }

/-- What becomes of the length of a metadata block. -/
def metaLength (s : Streamer) (c : UInt8) (r : Incoming) : Streamer × List StreamObs :=
  (((s.startMeta c).recvMetaBlock r).1, .metaLength c :: ((s.startMeta c).recvMetaBlock r).2)

/-- Receive icy meta data: first its length, unless a block has begun. -/
def recvMeta (s : Streamer) (r r' : Incoming) : Streamer × List StreamObs :=
  if s.metaLeft = 0 then
    s.received 1 r (s.disconnectWith .stopped .localDisconnect)
      (s.disconnectWith .stopped .localDisconnect) fun bs => s.metaLength (bs.headD 0) r'
  else s.recvMetaBlock r'

/-- How many bytes of the body may be read. -/
def bodySpace (s : Streamer) : ℕ :=
  if s.metaInterval ≠ 0 then min s.space s.metaNext else s.space

/-- Bytes of the body. -/
def bodyBytes (s : Streamer) (bs : List UInt8) : Streamer × List StreamObs :=
  ({ s.append bs with
      metaNext := if s.metaInterval ≠ 0 then s.metaNext - bs.length else s.metaNext
      state := if s.state = .streamingBuffering ∧ s.bytes + bs.length > s.threshold
        then .streamingHttp else s.state },
    [.body bs])

/-- Stream body into streambuf. -/
def recvBody (s : Streamer) (r : Incoming) : Streamer × List StreamObs :=
  s.received s.bodySpace r (s.disconnectWith .disconnect .remoteDisconnect)
    (s.disconnectWith .disconnect .ok) s.bodyBytes

/-- What `poll` returned, what became of a `send`, and what the one or two calls
of `recv` find. -/
structure Poll where
  pollin : Bool
  pollout : Bool
  pollhup : Bool
  sent : Bool
  first : Incoming
  second : Incoming

/-- The section after `poll`. -/
def afterPoll (s : Streamer) (p : Poll) : Streamer × List StreamObs :=
  match s.polling with
  | none => (s, [])
  | some out =>
      let s := { s with polling := none }
      if s.fd = false then (s, [])
      else if (p.pollout && out) ∧ s.state = .sendHeaders then s.sendHeader p.sent
      else if p.pollin || p.pollhup then
        if s.state = .recvHeaders then s.recvHeader p.first
        else if s.metaInterval ≠ 0 ∧ s.metaNext = 0 then s.recvMeta p.first p.second
        else s.recvBody p.first
      else (s, [])

/-! ### The controller -/

/-- `stream_sock` on a connection that could be made, called by `process_strm`. -/
def sock (s : Streamer) (header : List UInt8) (threshold : ℕ) (autostart : ℤ)
    (wire : List UInt8) : Streamer :=
  { s with
    streambuf := bufFlush s.streambuf
    fd := true
    wire := wire
    state := .sendHeaders
    contWait := autostart ≥ 2
    autostart := autostart
    metaInterval := 0
    metaNext := 0
    metaLeft := 0
    metaSend := false
    headerLen := header.length
    header := Ring.write (Ring.write s.header 0 header) header.length [0]
    sentHeaders := false
    bytes := 0
    threshold := threshold }

/-- `stream_sock` on a connection that could not be made. -/
def sockUnreachable (s : Streamer) (autostart : ℤ) : Streamer :=
  { s with autostart := autostart, state := .disconnect, disconnect := .unreachable }

/-- `stream_file`, called by `process_strm`; `file` is what can be read, if it can be opened. -/
def file (s : Streamer) (header : List UInt8) (threshold : ℕ) (autostart : ℤ)
    (file : Option (List UInt8)) : Streamer :=
  { s with
    streambuf := bufFlush s.streambuf
    headerLen := header.length
    header := Ring.write (Ring.write s.header 0 header) header.length [0]
    fd := file.isSome
    wire := file.getD []
    state := if file.isSome then .streamingFile else .disconnect
    contWait := false
    autostart := autostart - 2
    metaInterval := 0
    metaNext := 0
    metaLeft := 0
    metaSend := false
    sentHeaders := false
    bytes := 0
    threshold := threshold }

/-- `stream_disconnect` -/
def close (s : Streamer) : Streamer := { s with fd := false, state := .stopped }

/-- `process_cont` -/
def processCont (s : Streamer) (metaint : ℕ) : Streamer × List StreamObs :=
  if s.autostart > 1 then
    let s₁ := { s with autostart := s.autostart - 2 }
    if s₁.state = .streamingWait then
      ({ s₁ with state := .streamingBuffering, metaInterval := metaint, metaNext := metaint },
        [.interval metaint])
    else (s₁, [])
  else (s, [])

/-- A response header is due. -/
def respDue (s : Streamer) : Bool :=
  !s.sentHeaders &&
    (s.state = .streamingHttp || s.state = .streamingWait || s.state = .streamingBuffering)

/-- The controller takes note of a stream that has ended. -/
def settle (s : Streamer) : Streamer :=
  if s.state = .disconnect then { s with state := .stopped } else s

/-- The stream section of an update pass of `slimproto_run`.  RESP and META are
sent after the mutex is released, from one local buffer: what both of them carry
is `header_len` bytes of `stream.header` as the section found them. -/
def update (s : Streamer) : Streamer × List StreamObs :=
  ({ s.settle with sentHeaders := s.sentHeaders || s.settle.respDue, metaSend := false },
    (if s.settle.respDue then [.resp (peek s.header s.headerLen)] else []) ++
      if s.metaSend then [.metadata (peek s.header s.headerLen)] else [])

/-- A decoder done with `n` bytes of `streambuf`; it never takes more than there are. -/
def drain (s : Streamer) (n : ℕ) : Streamer × List StreamObs :=
  if n ≤ bufUsed s.streambuf then
    ({ s with streambuf := bufIncReadp s.streambuf n }, [.drain (s.streambuf.content.take n)])
  else (s, [])

end Streamer

/-- `stream_init`; `header` is what `malloc` leaves in `stream.header`. -/
def streamInit (blk : Block) (size : ℕ) (header : ℕ → UInt8) : Streamer where
  state := .stopped
  disconnect := .ok
  header := Ring.write header 0 [0]
  headerLen := 0
  sentHeaders := false
  contWait := false
  bytes := 0
  threshold := 0
  metaInterval := 0
  metaNext := 0
  metaLeft := 0
  metaSend := false
  endtok := 0
  fd := false
  wire := []
  polling := none
  streambuf := bufInit blk size
  autostart := 0

/-! ### Runs -/

/-- One section of the thread, of the controller, or of the decoder. -/
inductive StreamEvent
  | top (file : Incoming)
  | poll (p : Streamer.Poll)
  | pollTimeout
  | sock (header : List UInt8) (threshold : ℕ) (autostart : ℤ) (wire : List UInt8)
  | sockUnreachable (autostart : ℤ)
  | file (header : List UInt8) (threshold : ℕ) (autostart : ℤ) (file : Option (List UInt8))
  | close
  | cont (metaint : ℕ)
  | update
  | drain (n : ℕ)

/-- One event. -/
def streamStep (s : Streamer) : StreamEvent → Streamer × List StreamObs
  | .top file => s.top file
  | .poll p => s.afterPoll p
  | .pollTimeout => ({ s with polling := none }, [])
  | .sock header threshold autostart wire => (s.sock header threshold autostart wire, [])
  | .sockUnreachable autostart => (s.sockUnreachable autostart, [])
  | .file header threshold autostart file => (s.file header threshold autostart file, [])
  | .close => (s.close, [])
  | .cont metaint => s.processCont metaint
  | .update => s.update
  | .drain n => s.drain n

/-- The stream with everything around it. -/
def streamMachine : Runs.Machine Streamer StreamEvent StreamObs := ⟨streamStep⟩

/-- One turn of the thread in which `recv` finds at most `k + 1` bytes. -/
def turn (k : ℕ) : List StreamEvent :=
  [.top .wouldBlock, .poll ⟨true, true, false, true, .data k, .data k⟩]

/-- The event does not open another stream. -/
def StreamEvent.SameStream : StreamEvent → Prop
  | .sock .. | .sockUnreachable .. | .file .. => False
  | _ => True

/-- A call of `recv` keeps a link with an observer that does not mind the call,
if closing the connection and taking the bytes do. -/
theorem Streamer.received_watch {α : Type*} {δ : α → StreamObs → Option α} {a : α}
    {R : Streamer → α → Prop} {s failed closed : Streamer} {len : ℕ} {r : Incoming}
    {take : List UInt8 → Streamer × List StreamObs} (hobs : δ a (.recv len) = some a)
    (hs : R s a) (hfailed : R failed a) (hclosed : R closed a)
    (htake : ∀ bs, bs ≠ [] → recvBytes s.wire len r = .bytes bs →
      ∃ a', Runs.watch δ a (take bs).2 = some a' ∧ R (take bs).1 a') :
    ∃ a', Runs.watch δ a (s.received len r failed closed take).2 = some a' ∧
      R (s.received len r failed closed take).1 a' := by
  have hcall : Runs.watch δ a [.recv len] = some a := by simp [hobs]
  rcases hr : recvBytes s.wire len r with bs | - | -
  · rcases bs with - | ⟨b, bs⟩
    · simp only [Streamer.received, hr]
      exact ⟨a, hcall, hclosed⟩
    · obtain ⟨a', hwatch, hR⟩ := htake (b :: bs) (List.cons_ne_nil b bs) hr
      simp only [Streamer.received, hr, Runs.watch_cons, hobs, Option.bind_some]
      exact ⟨a', hwatch, hR⟩
  · simp only [Streamer.received, hr]
    exact ⟨a, hcall, hs⟩
  · simp only [Streamer.received, hr]
    exact ⟨a, hcall, hfailed⟩

instance : DecidablePred StreamEvent.SameStream
  | .sock .. | .sockUnreachable .. | .file .. => .isFalse id
  | .top _ | .poll _ | .pollTimeout | .close | .cont _ | .update | .drain _ => .isTrue trivial

end SqueezeliteMuse
