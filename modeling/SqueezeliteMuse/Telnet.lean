/-
SqueezeliteMuse/Telnet.lean

The telnet of the console: the library libtelnet.c as telnet.c uses it.

A chunk that was received is read byte by byte, and data is handed out in pieces of the chunk: from
`start` to the byte that is read.  `feed` reads the same bytes and hands out each at once; it knows
nothing of chunks.

Main results: how a stream is cut into chunks makes no difference (`recv_chunks`), and when a piece
is handed out that ends before it begins (`overrun_iff`).
-/
import SqueezeliteMuse.Lib.Runs

namespace SqueezeliteMuse.Telnet

/-! ### The source -/

/-- `TELNET_WILL` and its like -/
inductive Cmd
  | WILL | WONT | DO | DONT
  deriving DecidableEq

def IAC : UInt8 := 255
def SB : UInt8 := 250
def SE : UInt8 := 240

/-- The byte of a command. -/
def Cmd.byte : Cmd → UInt8
  | DONT => 254
  | DO => 253
  | WONT => 252
  | WILL => 251

def TELOPT_BINARY : UInt8 := 0
def TELOPT_TTYPE : UInt8 := 24
def TELOPT_COMPRESS : UInt8 := 85

/-- `Q_NO` and its like -/
inductive Q
  | NO | YES | WANTNO | WANTYES | WANTNO_OP | WANTYES_OP
  deriving DecidableEq

/-- `telnet_error_t` -/
inductive Error
  | overflow | nomem | protocol
  deriving DecidableEq

/-- `telnet_event_t`, where `overrun` is data with an end before its begin, and `other` are the
events of subnegotiations that the console does not know. -/
inductive Event
  | data (bytes : List UInt8)
  | overrun
  | send (bytes : List UInt8)
  | iac (cmd : UInt8)
  | negotiate (cmd : Cmd) (telopt : UInt8)
  | subnegotiation (telopt : UInt8) (buffer : List UInt8)
  | ttypeIs (name : List UInt8)
  | ttypeSend
  | warning (err : Error)
  | other (kind : ℕ)
  deriving DecidableEq

/-- `telnet_telopt_t` -/
structure Telopt where
  telopt : UInt8
  us : Cmd
  him : Cmd

/-- The table of the caller up to its end marker, which blocks can be allocated, and what ZMP, MSSP
and ENVIRON make of their buffers: which events, and if the value is not 0. -/
structure Config where
  telopts : Option (List Telopt)
  alloc : ℕ → Bool
  other : UInt8 → List UInt8 → List ℕ × Bool

/-- `telnet_rfc1143_t` -/
structure Rfc1143 where
  telopt : UInt8
  us : Q
  him : Q
  deriving DecidableEq

/-- `enum telnet_state_t`, where `negotiate` are those of the four commands -/
inductive State
  | data | eol | iac | negotiate (cmd : Cmd) | sb | sbData | sbDataIac
  deriving DecidableEq

/-- `TELNET_FLAG_PROXY` and its like -/
structure Flags where
  proxy : Bool
  nvtEol : Bool
  transmitBinary : Bool
  receiveBinary : Bool
  deriving DecidableEq

/-- `telnet_t`, with the `buffer_pos` bytes of its buffer and the `q_cnt` entries of its queue -/
structure TelnetT where
  q : List Rfc1143
  qSize : ℕ
  buffer : List UInt8
  bufferSize : ℕ
  state : State
  flags : Flags
  sbTelopt : UInt8
  deriving DecidableEq

/-- `telnet_init` -/
def init (flags : Flags) : TelnetT := ⟨[], 0, [], 0, .data, flags, 0⟩

/-- `_check_telopt` -/
def checkTelopt (cfg : Config) (telopt : UInt8) (us : Bool) : Bool :=
  match cfg.telopts with
  | none => false
  | some telopts =>
      match telopts.find? (·.telopt = telopt) with
      | none => false
      | some t => if us then t.us = .WILL else t.him = .DO

/-- `_get_rfc1143` -/
def getRfc1143 (t : TelnetT) (telopt : UInt8) : Rfc1143 :=
  (t.q.find? (·.telopt = telopt)).getD ⟨telopt, .NO, .NO⟩

/-- The first entry of an option is written. -/
def store (e : Rfc1143) : List Rfc1143 → List Rfc1143
  | [] => []
  | d :: q => if d.telopt = e.telopt then e :: q else d :: store e q

/-- `_set_rfc1143` -/
def setRfc1143 (cfg : Config) (t : TelnetT) (telopt : UInt8) (us him : Q) : TelnetT × List Event :=
  if t.q.any (·.telopt = telopt) then
    let t := { t with q := store ⟨telopt, us, him⟩ t.q }
    if telopt ≠ TELOPT_BINARY then (t, [])
    else
      ({ t with flags :=
          { t.flags with transmitBinary := us = .YES, receiveBinary := him = .YES } }, [])
  else if t.q.length < t.qSize then ({ t with q := t.q ++ [⟨telopt, us, him⟩] }, [])
  else if cfg.alloc (2 * (t.qSize + 4)) then
    ({ t with q := t.q ++ [⟨telopt, us, him⟩], qSize := t.qSize + 4 }, [])
  else (t, [.warning .nomem])

/-- What is done in a state of an option: the state that is set, the command that is sent, and the
events behind. -/
structure Answer where
  set : Option Q
  send : Option Cmd
  events : List Cmd
  error : Bool

/-- Nothing is done. -/
def Answer.nothing : Answer := ⟨none, none, [], false⟩

/-- `TELNET_STATE_WILL` of `_negotiate`: the remote end offers, `supported` by `_check_telopt`. -/
def onWill (supported : Bool) : Q → Answer
  | .NO =>
      if supported then ⟨some .YES, some .DO, [.WILL], false⟩ else ⟨none, some .DONT, [], false⟩
  | .YES => .nothing
  | .WANTNO => ⟨some .NO, none, [.WONT], true⟩
  | .WANTNO_OP => ⟨some .YES, none, [.WILL], true⟩
  | .WANTYES => ⟨some .YES, none, [.WILL], false⟩
  | .WANTYES_OP => ⟨some .WANTNO, some .DONT, [.WILL], false⟩

/-- `TELNET_STATE_WONT` of `_negotiate`; in `Q_WANTNO_OP` nothing is sent. -/
def onWont : Q → Answer
  | .NO => .nothing
  | .YES => ⟨some .NO, some .DONT, [.WONT], false⟩
  | .WANTNO => ⟨some .NO, none, [.WONT], false⟩
  | .WANTNO_OP => ⟨some .WANTYES, none, [.DO], false⟩
  | .WANTYES => ⟨some .NO, none, [], false⟩
  | .WANTYES_OP => ⟨some .NO, none, [], false⟩

/-- `TELNET_STATE_DO` of `_negotiate` -/
def onDo (supported : Bool) : Q → Answer
  | .NO =>
      if supported then ⟨some .YES, some .WILL, [.DO], false⟩ else ⟨none, some .WONT, [], false⟩
  | .YES => .nothing
  | .WANTNO => ⟨some .NO, none, [.DONT], true⟩
  | .WANTNO_OP => ⟨some .YES, none, [.DO], true⟩
  | .WANTYES => ⟨some .YES, none, [.DO], false⟩
  | .WANTYES_OP => ⟨some .WANTNO, some .WONT, [.DO], false⟩

/-- `TELNET_STATE_DONT` of `_negotiate` -/
def onDont : Q → Answer
  | .NO => .nothing
  | .YES => ⟨some .NO, some .WONT, [.DONT], false⟩
  | .WANTNO => ⟨some .NO, none, [.WONT], false⟩
  | .WANTNO_OP => ⟨some .WANTYES, some .WILL, [.WILL], false⟩
  | .WANTYES => ⟨some .NO, none, [], false⟩
  | .WANTYES_OP => ⟨some .NO, none, [], false⟩

/-- `_send_negotiate` -/
def sendNegotiate (cmd : Cmd) (telopt : UInt8) : Event := .send [IAC, cmd.byte, telopt]

/-- The state is set for us or for him, then comes what is sent, and then the events. -/
def answer (cfg : Config) (t : TelnetT) (telopt : UInt8) (us : Bool) (a : Answer) :
    TelnetT × List Event :=
  let q := getRfc1143 t telopt
  let r := match a.set with
    | none => (t, [])
    | some new => if us then setRfc1143 cfg t telopt new q.him else setRfc1143 cfg t telopt q.us new
  (r.1, r.2 ++ (a.send.map (sendNegotiate · telopt)).toList ++ a.events.map (.negotiate · telopt) ++
    if a.error then [.warning .protocol] else [])

/-- `_negotiate`, for a command that was received -/
def negotiate (cfg : Config) (t : TelnetT) (cmd : Cmd) (telopt : UInt8) : TelnetT × List Event :=
  if t.flags.proxy then (t, [.negotiate cmd telopt])
  else
    let q := getRfc1143 t telopt
    match cmd with
    | .WILL => answer cfg t telopt false (onWill (checkTelopt cfg telopt false) q.him)
    | .WONT => answer cfg t telopt false (onWont q.him)
    | .DO => answer cfg t telopt true (onDo (checkTelopt cfg telopt true) q.us)
    | .DONT => answer cfg t telopt true (onDont q.us)

/-- `telnet_iac` -/
def telnetIac (cmd : UInt8) : Event := .send [IAC, cmd]

/-- What is left of a buffer is sent, if there is any. -/
def flush (held : List UInt8) : List Event := if held = [] then [] else [.send held]

/-- The loop of `telnet_send`, where `held` are the bytes from `l` on. -/
def sendFrom (held : List UInt8) : List UInt8 → List Event
  | [] => flush held
  | b :: bs =>
      if b = IAC then flush held ++ telnetIac IAC :: sendFrom [] bs else sendFrom (held ++ [b]) bs

/-- `telnet_send` -/
def telnetSend (bs : List UInt8) : List Event := sendFrom [] bs

/-- The loop of `telnet_send_text`. -/
def sendTextFrom (t : TelnetT) (held : List UInt8) : List UInt8 → List Event
  | [] => flush held
  | b :: bs =>
      if b = IAC then flush held ++ telnetIac IAC :: sendTextFrom t [] bs
      else if t.flags.transmitBinary = false ∧ (b = 13 ∨ b = 10) then
        flush held ++ (if b = 13 then .send [13, 0] else .send [13, 10]) :: sendTextFrom t [] bs
      else sendTextFrom t (held ++ [b]) bs

/-- `telnet_send_text` -/
def telnetSendText (t : TelnetT) (bs : List UInt8) : List Event := sendTextFrom t [] bs

/-- `telnet_subnegotiation` -/
def telnetSubnegotiation (telopt : UInt8) (bs : List UInt8) : List Event :=
  .send [IAC, SB, telopt] :: telnetSend bs ++ [.send [IAC, SE]]

/-- `_buffer_sizes` from an entry on -/
def bufferSizes : List ℕ := [0, 512, 2048, 8192, 16384]

/-- `_buffer_byte` -/
def bufferByte (cfg : Config) (t : TelnetT) (byte : UInt8) : Except Error TelnetT :=
  if t.buffer.length = t.bufferSize then
    match bufferSizes.dropWhile (· ≠ t.bufferSize) with
    | _ :: next :: _ =>
        if cfg.alloc next then
          .ok { t with buffer := t.buffer ++ [byte], bufferSize := next }
        else .error .nomem
    | _ => .error .overflow
  else .ok { t with buffer := t.buffer ++ [byte] }

/-- `_ttype_telnet` -/
def ttypeTelnet (cfg : Config) (buffer : List UInt8) : List Event :=
  match buffer with
  | [] => [.warning .protocol]
  | c :: rest =>
      if c = 0 then if cfg.alloc buffer.length then [.ttypeIs rest] else [.warning .nomem]
      else if c = 1 then [.ttypeSend]
      else [.warning .protocol]

/-- `_subnegotiate`: the events, and if the value is not 0 -/
def subnegotiate (cfg : Config) (t : TelnetT) : List Event × Bool :=
  if t.sbTelopt = TELOPT_TTYPE then
    (.subnegotiation t.sbTelopt t.buffer :: ttypeTelnet cfg t.buffer, false)
  else
    let r := cfg.other t.sbTelopt t.buffer
    (.subnegotiation t.sbTelopt t.buffer :: r.1.map .other, r.2)

/-- The data from `start` on that was not handed out. -/
def pending (buffer : List UInt8) (start i : ℕ) : List Event :=
  if i = start then []
  else if start < i then [.data ((buffer.take i).drop start)]
  else [.overrun]

/-- What the loop of `_process` does after a byte: it goes on with the next, or the rest of the
buffer is received anew. -/
inductive Next
  | go (t : TelnetT) (start : ℕ) (events : List Event)
  | restart (t : TelnetT) (events : List Event)

/-- `TELNET_STATE_IAC` of `_process`; `start` is set unless the command goes on. -/
def iacByte (t : TelnetT) (byte : UInt8) : TelnetT × List Event :=
  if byte = SB then ({ t with state := .sb }, [])
  else if byte = Cmd.WILL.byte then ({ t with state := .negotiate .WILL }, [])
  else if byte = Cmd.WONT.byte then ({ t with state := .negotiate .WONT }, [])
  else if byte = Cmd.DO.byte then ({ t with state := .negotiate .DO }, [])
  else if byte = Cmd.DONT.byte then ({ t with state := .negotiate .DONT }, [])
  else if byte = IAC then ({ t with state := .data }, [.data [byte]])
  else ({ t with state := .data }, [.iac byte])

/-- The body of the loop of `_process`. -/
def processByte (cfg : Config) (buffer : List UInt8) (i : ℕ) (byte : UInt8) (t : TelnetT)
    (start : ℕ) : Next :=
  match t.state with
  | .data =>
      if byte = IAC then .go { t with state := .iac } start (pending buffer start i)
      else if byte = 13 ∧ t.flags.nvtEol ∧ ¬ t.flags.receiveBinary then
        .go { t with state := .eol } start (pending buffer start i)
      else .go t start []
  | .eol =>
      .go { t with state := .data } (if byte = 0 then i + 1 else i)
        (if byte ≠ 10 then [.data [13]] else [])
  | .iac =>
      let r := iacByte t byte
      .go r.1 (if r.1.state = .data then i + 1 else start) r.2
  | .negotiate cmd =>
      let r := negotiate cfg t cmd byte
      .go { r.1 with state := .data } (i + 1) r.2
  | .sb => .go { t with sbTelopt := byte, buffer := [], state := .sbData } start []
  | .sbData =>
      if byte = IAC then .go { t with state := .sbDataIac } start []
      else if t.sbTelopt = TELOPT_COMPRESS ∧ byte = Cmd.WILL.byte then
        .go { t with state := .data } (i + 2) []
      else
        match bufferByte cfg t byte with
        | .ok t => .go t start []
        | .error e => .go { t with state := .data } (i + 1) [.warning e]
  | .sbDataIac =>
      if byte = SE then
        let r := subnegotiate cfg t
        if r.2 then .restart { t with state := .data } r.1
        else .go { t with state := .data } (i + 1) r.1
      else if byte = IAC then
        match bufferByte cfg t IAC with
        | .ok t => .go { t with state := .sbData } start []
        | .error e => .go { t with state := .data } (i + 1) [.warning e]
      else
        let r := subnegotiate cfg t
        if r.2 then .restart { t with state := .iac } (.warning .protocol :: r.1)
        else
          -- the nested call of `_process` for this byte has nothing left to pass through
          let s := iacByte { t with state := .iac } byte
          .go s.1 (i + 1) (.warning .protocol :: r.1 ++ s.2)

/-- `_process`, from the byte `i` of the buffer on -/
def process (cfg : Config) (buffer : List UInt8) :
    List UInt8 → ℕ → ℕ → TelnetT → TelnetT × List Event
  | [], i, start, t => (t, if t.state = .data then pending buffer start i else [])
  | byte :: rest, i, start, t =>
      match processByte cfg buffer i byte t start with
      | .go t start events =>
          let r := process cfg buffer rest (i + 1) start t
          (r.1, events ++ r.2)
      | .restart t events =>
          let r := process cfg rest rest 0 0 t
          (r.1, events ++ r.2)

/-- `telnet_recv` -/
def telnetRecv (cfg : Config) (t : TelnetT) (buffer : List UInt8) : TelnetT × List Event :=
  process cfg buffer buffer 0 0 t

/-! ### A reader of bytes -/

/-- What comes of a stream: a byte of data, or another event. -/
abbrev Item : Type := UInt8 ⊕ Event

/-- The items of some events; data is the same in one piece or in many. -/
def view (events : List Event) : List Item :=
  events.flatMap fun
    | .data bytes => bytes.map .inl
    | e => [.inr e]

/-- `skip` is set when the data begins behind the next byte. -/
structure Reader where
  t : TelnetT
  skip : Bool

/-- A byte that ends data, or is data itself. -/
def feedData (t : TelnetT) (byte : UInt8) (item ended : List Item) : Reader × List Item :=
  if byte = IAC then (⟨{ t with state := .iac }, false⟩, ended)
  else if byte = 13 ∧ t.flags.nvtEol ∧ ¬ t.flags.receiveBinary then
    (⟨{ t with state := .eol }, false⟩, ended)
  else (⟨t, false⟩, item)

/-- A byte is read. -/
def feed (cfg : Config) (d : Reader) (byte : UInt8) : Reader × List Item :=
  let t := d.t
  match t.state with
  | .data =>
      if d.skip then feedData t byte [] [.inr .overrun] else feedData t byte [.inl byte] []
  | .eol =>
      (⟨{ t with state := .data }, false⟩,
        (if byte ≠ 10 then [.inl 13] else []) ++ if byte = 0 then [] else [.inl byte])
  | .iac =>
      let r := iacByte t byte
      (⟨r.1, false⟩, view r.2)
  | .negotiate cmd =>
      let r := negotiate cfg t cmd byte
      (⟨{ r.1 with state := .data }, false⟩, view r.2)
  | .sb => (⟨{ t with sbTelopt := byte, buffer := [], state := .sbData }, false⟩, [])
  | .sbData =>
      if byte = IAC then (⟨{ t with state := .sbDataIac }, false⟩, [])
      else if t.sbTelopt = TELOPT_COMPRESS ∧ byte = Cmd.WILL.byte then
        (⟨{ t with state := .data }, true⟩, [])
      else
        match bufferByte cfg t byte with
        | .ok t => (⟨t, false⟩, [])
        | .error e => (⟨{ t with state := .data }, false⟩, [.inr (.warning e)])
  | .sbDataIac =>
      if byte = SE then
        (⟨{ t with state := .data }, false⟩, view (subnegotiate cfg t).1)
      else if byte = IAC then
        match bufferByte cfg t IAC with
        | .ok t => (⟨{ t with state := .sbData }, false⟩, [])
        | .error e => (⟨{ t with state := .data }, false⟩, [.inr (.warning e)])
      else
        let r := subnegotiate cfg t
        if r.2 then
          (⟨{ t with state := .iac }, false⟩, .inr (.warning .protocol) :: view r.1)
        else
          let s := iacByte { t with state := .iac } byte
          (⟨s.1, false⟩, .inr (.warning .protocol) :: view r.1 ++ view s.2)

/-- The reader as a machine. -/
def reader (cfg : Config) : Runs.Machine Reader UInt8 Item := ⟨feed cfg⟩

/-- What the end of a chunk makes of the data that has not begun. -/
def chunkEnd (d : Reader) : List Item := if d.skip then [.inr .overrun] else []

/-! ### Data in pieces -/

variable {cfg : Config} {t : TelnetT} {start : ℕ}

@[simp] theorem view_nil : view [] = [] := rfl

@[simp] theorem view_append (es es' : List Event) : view (es ++ es') = view es ++ view es' :=
  List.flatMap_append

@[simp] theorem view_data (bytes : List UInt8) (es : List Event) :
    view (.data bytes :: es) = bytes.map .inl ++ view es := rfl

@[simp] theorem view_warning (e : Error) (es : List Event) :
    view (.warning e :: es) = .inr (.warning e) :: view es := rfl

/-- The bytes that were read but not handed out. -/
def held (done : List UInt8) (start : ℕ) (t : TelnetT) : List Item :=
  if t.state = .data then (done.drop start).map .inl else []

/-- The data begins behind the byte that comes next. -/
def skips (done : List UInt8) (start : ℕ) (t : TelnetT) : Bool :=
  t.state = .data ∧ start = done.length + 1

theorem view_pending (done rest : List UInt8) (hstart : start ≤ done.length + 1) :
    view (pending (done ++ rest) start done.length) =
      if start = done.length + 1 then [.inr .overrun] else (done.drop start).map .inl := by
  rw [pending]
  by_cases hend : done.length = start
  · rw [if_pos hend, if_neg (by omega), List.drop_of_length_le (by omega)]
    rfl
  · rw [if_neg hend]
    by_cases hlt : start < done.length
    · rw [if_pos hlt, if_neg (by omega), List.take_left, view_data, view_nil, List.append_nil]
    · rw [if_neg hlt, if_pos (by omega)]
      rfl

/-- What the loop and the reader do with a byte is the same, but for what the loop still holds. -/
def Agrees (done : List UInt8) (byte : UInt8) (start : ℕ) (t : TelnetT) :
    Next → Reader × List Item → Prop
  | .go t' start' events, d =>
      d.1 = ⟨t', skips (done ++ [byte]) start' t'⟩ ∧
        view events ++ held (done ++ [byte]) start' t' = held done start t ++ d.2 ∧
        (t'.state = .data → start' ≤ done.length + 2)
  | .restart t' events, d => d.1 = ⟨t', false⟩ ∧ view events = held done start t ++ d.2

/-- Nothing is held, and the next data does not begin later than with the next byte. -/
theorem agrees_go {done : List UInt8} {byte : UInt8} {t' : TelnetT} {events : List Event}
    {start' : ℕ} (hstate : t.state ≠ .data) (hstart : t'.state = .data → start' = done.length + 1) :
    Agrees done byte start t (.go t' start' events) (⟨t', false⟩, view events) := by
  have hskips : skips (done ++ [byte]) start' t' = false := by
    simp only [skips, List.length_append, List.length_singleton, decide_eq_false_iff_not]
    rintro ⟨hdata, hfar⟩
    rw [hstart hdata] at hfar
    omega
  have hheld : held (done ++ [byte]) start' t' = [] := by
    rw [held]
    split
    case isTrue hdata =>
      rw [hstart hdata, List.drop_of_length_le (by simp)]
      rfl
    case isFalse => rfl
  have hbefore : held done start t = [] := if_neg hstate
  refine ⟨by rw [hskips], by rw [hheld, hbefore, List.append_nil]; rfl, fun hdata => ?_⟩
  rw [hstart hdata]
  omega

theorem bufferByte_state {byte : UInt8} {t' : TelnetT} (h : bufferByte cfg t byte = .ok t') :
    t'.state = t.state := by
  rw [bufferByte] at h
  split at h
  · split at h
    · split at h
      · cases h
        rfl
      · cases h
    · cases h
  · cases h
    rfl

theorem agrees_data {done rest : List UInt8} {byte : UInt8} (hstate : t.state = .data)
    (hstart : start ≤ done.length + 1) :
    Agrees done byte start t (processByte cfg (done ++ byte :: rest) done.length byte t start)
      (feed cfg ⟨t, skips done start t⟩ byte) := by
  have hpending := view_pending done (byte :: rest) hstart
  have hheld : held done start t = (done.drop start).map .inl := if_pos hstate
  have hskips : skips done start t = decide (start = done.length + 1) := by simp [skips, hstate]
  have hended (t' : TelnetT) (hne : t'.state ≠ .data) :
      Agrees done byte start t (.go t' start (pending (done ++ byte :: rest) start done.length))
        (⟨t', false⟩, if start = done.length + 1 then [.inr .overrun] else []) := by
    refine ⟨?_, ?_, fun hdata => absurd hdata hne⟩
    · simp [skips, hne]
    · have hafter : held (done ++ [byte]) start t' = [] := if_neg hne
      rw [hpending, hafter, hheld, List.append_nil]
      by_cases hfar : start = done.length + 1
      · rw [if_pos hfar, if_pos hfar, List.drop_of_length_le (by omega)]
        rfl
      · rw [if_neg hfar, if_neg hfar, List.append_nil]
  have hbefore (hfar : start = done.length + 1) : held done start t = [] := by
    rw [hheld, List.drop_of_length_le (by omega)]
    rfl
  simp only [processByte, feed, hstate, hskips, feedData]
  by_cases hiac : byte = IAC
  · rw [if_pos hiac, if_pos hiac, if_pos hiac]
    have hsplit := hended { t with state := .iac } (by simp)
    by_cases hfar : start = done.length + 1
    · simpa [hfar] using hsplit
    · simpa [hfar] using hsplit
  · rw [if_neg hiac, if_neg hiac, if_neg hiac]
    by_cases heol : byte = 13 ∧ t.flags.nvtEol ∧ ¬ t.flags.receiveBinary
    · rw [if_pos heol, if_pos heol, if_pos heol]
      have hsplit := hended { t with state := .eol } (by simp)
      by_cases hfar : start = done.length + 1
      · simpa [hfar] using hsplit
      · simpa [hfar] using hsplit
    · rw [if_neg heol, if_neg heol, if_neg heol]
      have hnext : held (done ++ [byte]) start t = ((done ++ [byte]).drop start).map .inl :=
        if_pos hstate
      have hnoskip : skips (done ++ [byte]) start t = false := by
        simp only [skips, List.length_append, List.length_singleton, decide_eq_false_iff_not]
        omega
      by_cases hfar : start = done.length + 1
      · refine ⟨by rw [hnoskip]; simp [hfar], ?_, fun _ => by omega⟩
        rw [hnext, hbefore hfar, List.drop_of_length_le (by simp [hfar])]
        simp [hfar]
      · refine ⟨by rw [hnoskip]; simp [hfar], ?_, fun _ => by omega⟩
        rw [hnext, hheld, List.drop_append_of_le_length (by omega)]
        simp [hfar]

/-- The loop does what the reader does. -/
theorem agrees (done rest : List UInt8) (byte : UInt8)
    (hstart : t.state = .data → start ≤ done.length + 1) :
    Agrees done byte start t (processByte cfg (done ++ byte :: rest) done.length byte t start)
      (feed cfg ⟨t, skips done start t⟩ byte) := by
  cases hstate : t.state with
  | data => exact agrees_data hstate (hstart hstate)
  | eol =>
    simp only [processByte, feed, hstate]
    have hbefore : held done start t = [] := if_neg (by simp [hstate])
    have hview : view (if byte ≠ 10 then [.data [13]] else []) =
        if byte ≠ 10 then [.inl 13] else [] := by split <;> rfl
    refine ⟨?_, ?_, fun _ => by split <;> omega⟩
    · have hskips : skips (done ++ [byte]) (if byte = 0 then done.length + 1 else done.length)
          { t with state := .data } = false := by
        simp only [skips, List.length_append, List.length_singleton, true_and,
          decide_eq_false_iff_not]
        split <;> omega
      rw [hskips]
    · rw [hview, hbefore, List.nil_append]
      congr 1
      rw [held, if_pos rfl]
      split
      · rw [List.drop_of_length_le (by simp)]
        rfl
      · rw [List.drop_append_of_le_length (Nat.le_refl _), List.drop_length]
        rfl
  | iac =>
    simp only [processByte, feed, hstate]
    exact agrees_go (by simp [hstate]) fun hdata => if_pos hdata
  | negotiate cmd =>
    simp only [processByte, feed, hstate]
    exact agrees_go (by simp [hstate]) fun _ => rfl
  | sb =>
    simp only [processByte, feed, hstate]
    exact agrees_go (by simp [hstate]) (by simp)
  | sbData =>
    simp only [processByte, feed, hstate]
    split
    · exact agrees_go (by simp [hstate]) (by simp)
    · split
      · -- the data begins behind the byte that comes next
        have hbefore : held done start t = [] := if_neg (by simp [hstate])
        refine ⟨by simp [skips], ?_, fun _ => Nat.le_refl _⟩
        rw [hbefore, held, if_pos rfl, List.drop_of_length_le (by simp)]
        rfl
      · cases hbuffer : bufferByte cfg t byte with
        | ok t' =>
          have hsame := bufferByte_state hbuffer
          exact agrees_go (by simp [hstate]) (by simp [hsame, hstate])
        | error e => exact agrees_go (by simp [hstate]) fun _ => rfl
  | sbDataIac =>
    simp only [processByte, feed, hstate]
    split
    · split
      · exact ⟨rfl, by simp [held, hstate]⟩
      · exact agrees_go (by simp [hstate]) fun _ => rfl
    · split
      · cases hbuffer : bufferByte cfg t IAC with
        | ok t' => exact agrees_go (by simp [hstate]) (by simp)
        | error e => exact agrees_go (by simp [hstate]) fun _ => rfl
      · split
        · exact ⟨rfl, by simp [held, hstate]⟩
        · have hgo := @agrees_go t start done byte (iacByte { t with state := .iac } byte).1
            (.warning .protocol :: (subnegotiate cfg t).1 ++
              (iacByte { t with state := .iac } byte).2) (done.length + 1) (by simp [hstate])
            fun _ => rfl
          rwa [List.cons_append, view_warning, view_append] at hgo

/-- The rest of a chunk gives what is held, what the reader makes of it, and its end. -/
theorem process_view (rest : List UInt8) : ∀ (done : List UInt8) (start : ℕ) (t : TelnetT),
    (t.state = .data → start ≤ done.length + 1) →
      (process cfg (done ++ rest) rest done.length start t).1 =
          ((reader cfg).run ⟨t, skips done start t⟩ rest).1.t ∧
        view (process cfg (done ++ rest) rest done.length start t).2 = held done start t ++
          ((reader cfg).run ⟨t, skips done start t⟩ rest).2 ++
          chunkEnd ((reader cfg).run ⟨t, skips done start t⟩ rest).1 := by
  induction rest with
  | nil =>
    intro done start t hstart
    refine ⟨rfl, ?_⟩
    rw [process]
    by_cases hdata : t.state = .data
    · rw [if_pos hdata, view_pending done [] (hstart hdata)]
      by_cases hfar : start = done.length + 1
      · have hheld : held done start t = [] := by
          rw [held, if_pos hdata, List.drop_of_length_le (by omega)]
          rfl
        rw [if_pos hfar, hheld]
        simp [hfar, Runs.Machine.run, chunkEnd, skips, hdata]
      · simp [hfar, held, hdata, Runs.Machine.run, chunkEnd, skips]
    · simp [hdata, held, Runs.Machine.run, chunkEnd, skips]
  | cons byte rest ih =>
    intro done start t hstart
    have hstep := @agrees cfg t start done rest byte hstart
    have hlen : (done ++ [byte]).length = done.length + 1 := by simp
    have hsplit : done ++ byte :: rest = (done ++ [byte]) ++ rest := by simp
    have hrun : (reader cfg).run ⟨t, skips done start t⟩ (byte :: rest) =
        (((reader cfg).run (feed cfg ⟨t, skips done start t⟩ byte).1 rest).1,
          (feed cfg ⟨t, skips done start t⟩ byte).2 ++
            ((reader cfg).run (feed cfg ⟨t, skips done start t⟩ byte).1 rest).2) := rfl
    rw [process, hrun]
    cases hnext : processByte cfg (done ++ byte :: rest) done.length byte t start with
    | go t' start' events =>
      rw [hnext] at hstep
      obtain ⟨hreader, hview, hstart'⟩ := hstep
      obtain ⟨hstate, hitems⟩ := ih (done ++ [byte]) start' t' (by rw [hlen]; exact hstart')
      rw [hlen, ← hsplit] at hstate hitems
      rw [hreader]
      refine ⟨hstate, ?_⟩
      simp only [view_append, hitems]
      rw [← List.append_assoc, ← List.append_assoc, hview]
      simp
    | restart t' events =>
      rw [hnext] at hstep
      obtain ⟨hreader, hview⟩ := hstep
      obtain ⟨hstate, hitems⟩ := ih [] 0 t' (by simp)
      have hskips : skips [] 0 t' = false := by simp [skips]
      have hheld : held [] 0 t' = [] := by
        rw [held]
        split <;> rfl
      rw [hskips] at hstate hitems
      rw [hheld, List.nil_append, List.nil_append, List.length_nil] at hitems
      rw [hreader]
      refine ⟨hstate, ?_⟩
      simp only [view_append, hitems, hview, List.append_assoc]

/-! ### Chunks -/

/-- The tracker as a machine that is given the chunks. -/
def receiver (cfg : Config) : Runs.Machine TelnetT (List UInt8) Event := ⟨telnetRecv cfg⟩

theorem recv_view (t : TelnetT) (chunk : List UInt8) :
    (telnetRecv cfg t chunk).1 = ((reader cfg).run ⟨t, false⟩ chunk).1.t ∧
      view (telnetRecv cfg t chunk).2 = ((reader cfg).run ⟨t, false⟩ chunk).2 ++
        chunkEnd ((reader cfg).run ⟨t, false⟩ chunk).1 := by
  obtain ⟨hstate, hview⟩ := @process_view cfg chunk [] 0 t (by simp)
  have hskips : skips [] 0 t = false := by simp [skips]
  have hheld : held [] 0 t = [] := by
    rw [held]
    split <;> rfl
  rw [hskips] at hstate hview
  rw [hheld, List.nil_append] at hview
  exact ⟨hstate, hview⟩

/-- A chunk does not end where data begins behind the next byte. -/
def EndsWell (cfg : Config) (t : TelnetT) (chunk : List UInt8) : Prop :=
  ((reader cfg).run ⟨t, false⟩ chunk).1.skip = false

theorem reader_eq {d : Reader} (hstate : t = d.t) (hskip : d.skip = false) : d = ⟨t, false⟩ := by
  cases d
  cases hstate
  cases hskip
  rfl

theorem recv_flatten (chunks : List (List UInt8)) (t : TelnetT)
    (hends : (receiver cfg).Along (EndsWell cfg) t chunks) :
    (reader cfg).run ⟨t, false⟩ chunks.flatten =
      (⟨((receiver cfg).run t chunks).1, false⟩, view ((receiver cfg).run t chunks).2) := by
  induction chunks generalizing t with
  | nil => rfl
  | cons chunk chunks ih =>
    obtain ⟨hend, hrest⟩ := hends
    obtain ⟨hstate, hview⟩ := @recv_view cfg t chunk
    have hskip : ((reader cfg).run ⟨t, false⟩ chunk).1.skip = false := hend
    have hreader := reader_eq hstate hskip
    have hitems : ((reader cfg).run ⟨t, false⟩ chunk).2 = view (telnetRecv cfg t chunk).2 := by
      rw [hview, chunkEnd, hskip]
      simp
    have hrun : (receiver cfg).run t (chunk :: chunks) =
        (((receiver cfg).run (telnetRecv cfg t chunk).1 chunks).1,
          (telnetRecv cfg t chunk).2 ++
            ((receiver cfg).run (telnetRecv cfg t chunk).1 chunks).2) := rfl
    rw [List.flatten_cons, Runs.Machine.run_append, hreader, hitems,
      ih (telnetRecv cfg t chunk).1 hrest, hrun, view_append]

/-- However a stream is cut, the tracker comes to the same state, with the same data and events. -/
theorem recv_chunks (t : TelnetT) {chunks chunks' : List (List UInt8)}
    (hsame : chunks.flatten = chunks'.flatten)
    (hends : (receiver cfg).Along (EndsWell cfg) t chunks)
    (hends' : (receiver cfg).Along (EndsWell cfg) t chunks') :
    ((receiver cfg).run t chunks).1 = ((receiver cfg).run t chunks').1 ∧
      view ((receiver cfg).run t chunks).2 = view ((receiver cfg).run t chunks').2 := by
  have hrun := recv_flatten chunks t hends
  rw [hsame, recv_flatten chunks' t hends', Prod.mk.injEq] at hrun
  obtain ⟨hstate, hview⟩ := hrun
  exact ⟨(congrArg Reader.t hstate).symm, hview.symm⟩

instance {chunk : List UInt8} : Decidable (EndsWell cfg t chunk) :=
  inferInstanceAs (Decidable (_ = false))

/-- What telnet.c says of options. -/
def console : Config :=
  ⟨some [⟨1, .WONT, .DO⟩, ⟨TELOPT_TTYPE, .WILL, .DONT⟩, ⟨86, .WONT, .DO⟩, ⟨93, .WONT, .DO⟩,
    ⟨70, .WONT, .DO⟩, ⟨TELOPT_BINARY, .WILL, .DO⟩, ⟨31, .WILL, .DONT⟩, ⟨34, .WONT, .DO⟩],
    fun _ => true, fun _ _ => ([], false)⟩

theorem recv_chunks_ttype :
    ((receiver console).run (init ⟨false, false, false, false⟩)
        [[65, 255, 250, 24], [1, 255], [240, 66]]).1 =
      ((receiver console).run (init ⟨false, false, false, false⟩)
        [[65], [255, 250, 24, 1, 255, 240], [66]]).1 ∧
    view ((receiver console).run (init ⟨false, false, false, false⟩)
        [[65, 255, 250, 24], [1, 255], [240, 66]]).2 =
      view ((receiver console).run (init ⟨false, false, false, false⟩)
        [[65], [255, 250, 24, 1, 255, 240], [66]]).2 :=
  recv_chunks _ rfl (by decide) (by decide)

/-! ### Data that ends before it begins -/

theorem mem_view {e : Event} (hdata : ∀ bytes, e ≠ .data bytes) {events : List Event} :
    .inr e ∈ view events ↔ e ∈ events := by
  rw [view, List.mem_flatMap]
  constructor
  · rintro ⟨d, hd, hmem⟩
    cases d with
    | data bytes => simp at hmem
    | _ => simp_all
  · intro he
    refine ⟨e, he, ?_⟩
    cases e with
    | data bytes => exact absurd rfl (hdata bytes)
    | _ => exact List.mem_singleton.mpr rfl

/-- A subnegotiation of the first compression protocol is left. -/
def Leaves (t : TelnetT) (byte : UInt8) : Prop :=
  t.state = .sbData ∧ t.sbTelopt = TELOPT_COMPRESS ∧ byte = Cmd.WILL.byte

/-- A byte ends data. -/
def Ends (t : TelnetT) (byte : UInt8) : Prop :=
  byte = IAC ∨ byte = 13 ∧ t.flags.nvtEol ∧ ¬ t.flags.receiveBinary

theorem view_iacByte (t : TelnetT) (byte : UInt8) : .inr .overrun ∉ view (iacByte t byte).2 := by
  rw [iacByte]
  split_ifs <;> simp [view]

theorem answer_overrun (t : TelnetT) (telopt : UInt8) (us : Bool) (a : Answer) :
    .overrun ∉ (answer cfg t telopt us a).2 := by
  have hset (us him : Q) : .overrun ∉ (setRfc1143 cfg t telopt us him).2 := by
    rw [setRfc1143]
    split_ifs <;> simp
  rw [answer]
  simp only [List.mem_append, not_or]
  refine ⟨⟨⟨?_, ?_⟩, ?_⟩, ?_⟩
  · cases a.set with
    | none => simp
    | some new =>
      cases us <;> exact hset _ _
  · cases a.send <;> simp [sendNegotiate]
  · simp
  · split_ifs <;> simp

theorem negotiate_overrun (t : TelnetT) (cmd : Cmd) (telopt : UInt8) :
    .inr .overrun ∉ view (negotiate cfg t cmd telopt).2 := by
  rw [mem_view (by simp), negotiate]
  split_ifs
  · simp
  · cases cmd <;> exact answer_overrun _ _ _ _

theorem subnegotiate_overrun (t : TelnetT) : .inr .overrun ∉ view (subnegotiate cfg t).1 := by
  rw [mem_view (by simp), subnegotiate]
  split_ifs
  · cases t.buffer with
    | nil => simp [ttypeTelnet]
    | cons c rest =>
      simp only [ttypeTelnet]
      split_ifs <;> simp
  · simp

theorem feed_skip (d : Reader) (byte : UInt8) :
    (feed cfg d byte).1.skip = true ↔ Leaves d.t byte := by
  have hleaves (hstate : d.t.state ≠ .sbData) : ¬ Leaves d.t byte := fun h => hstate h.1
  cases hstate : d.t.state with
  | data =>
    have hdata (item ended : List Item) : (feedData d.t byte item ended).1.skip = false := by
      rw [feedData]
      split_ifs <;> rfl
    simp only [feed, hstate]
    refine iff_of_false ?_ (hleaves (by simp [hstate]))
    split <;> simp [hdata]
  | sbData =>
    simp only [feed, hstate, Leaves, true_and]
    by_cases hiac : byte = IAC
    · rw [if_pos hiac]
      simp [hiac, IAC, Cmd.byte]
    · rw [if_neg hiac]
      by_cases hleave : d.t.sbTelopt = TELOPT_COMPRESS ∧ byte = Cmd.WILL.byte
      · rw [if_pos hleave]
        exact iff_of_true rfl hleave
      · rw [if_neg hleave]
        refine iff_of_false ?_ hleave
        split <;> simp
  | sbDataIac =>
    simp only [feed, hstate]
    refine iff_of_false ?_ (hleaves (by simp [hstate]))
    split_ifs
    · simp
    · split <;> simp
    · simp
    · simp
  | eol | iac | negotiate cmd | sb =>
    simp only [feed, hstate]
    exact iff_of_false (by simp) (hleaves (by simp [hstate]))

theorem feed_overrun (d : Reader) (byte : UInt8) :
    .inr .overrun ∈ (feed cfg d byte).2 ↔ d.t.state = .data ∧ d.skip = true ∧ Ends d.t byte := by
  cases hstate : d.t.state with
  | data =>
    simp only [feed, hstate, true_and, Ends]
    cases hskip : d.skip with
    | true =>
      simp only [if_true, feedData]
      by_cases hiac : byte = IAC
      · simp [hiac]
      · rw [if_neg hiac]
        by_cases heol : byte = 13 ∧ d.t.flags.nvtEol ∧ ¬ d.t.flags.receiveBinary
        · rw [if_pos heol]
          exact iff_of_true (by simp) ⟨trivial, .inr heol⟩
        · rw [if_neg heol]
          exact iff_of_false (by simp) fun h => h.2.elim hiac heol
    | false =>
      simp only [Bool.false_eq_true, if_false, feedData, false_and, iff_false]
      split_ifs <;> simp
  | eol =>
    simp only [feed, hstate]
    refine iff_of_false ?_ fun h => by cases h.1
    rw [List.mem_append, not_or]
    constructor <;> split_ifs <;> simp
  | iac =>
    simp only [feed, hstate]
    exact iff_of_false (view_iacByte _ _) fun h => by cases h.1
  | negotiate cmd =>
    simp only [feed, hstate]
    exact iff_of_false (negotiate_overrun _ _ _) fun h => by cases h.1
  | sb =>
    simp only [feed, hstate]
    exact iff_of_false (by simp) fun h => by cases h.1
  | sbData =>
    simp only [feed, hstate]
    refine iff_of_false ?_ fun h => by cases h.1
    split_ifs
    · simp
    · simp
    · split <;> simp
  | sbDataIac =>
    have hsub := @subnegotiate_overrun cfg d.t
    simp only [feed, hstate]
    refine iff_of_false ?_ fun h => by cases h.1
    split_ifs
    · exact hsub
    · split <;> simp
    · simp [hsub]
    · have hiac := view_iacByte { d.t with state := .iac } byte
      simp [hsub, hiac]

/-- In a chunk the first compression protocol is left, and the byte that its `start` is set behind
is missing, or ends data itself. -/
def Overruns (cfg : Config) (t : TelnetT) (chunk : List UInt8) : Prop :=
  ∃ before after, chunk = before ++ Cmd.WILL.byte :: after ∧
    Leaves ((reader cfg).run ⟨t, false⟩ before).1.t Cmd.WILL.byte ∧
    ∀ byte ∈ after.head?, Ends ((reader cfg).run ⟨t, false⟩ before).1.t byte

theorem feed_leaves {d : Reader} (h : Leaves d.t Cmd.WILL.byte) :
    feed cfg d Cmd.WILL.byte = (⟨{ d.t with state := .data }, true⟩, []) := by
  simp [feed, h.1, h.2.1, Cmd.byte, IAC]

theorem run_leaves {before : List UInt8}
    (h : Leaves ((reader cfg).run ⟨t, false⟩ before).1.t Cmd.WILL.byte) :
    ((reader cfg).run ⟨t, false⟩ (before ++ [Cmd.WILL.byte])).1 =
      ⟨{ ((reader cfg).run ⟨t, false⟩ before).1.t with state := .data }, true⟩ := by
  rw [Runs.Machine.run_append]
  exact congrArg Prod.fst (feed_leaves h)

/-- The data begins behind the next byte when the compression was left with the last. -/
theorem run_skip {chunk : List UInt8} :
    ((reader cfg).run ⟨t, false⟩ chunk).1.skip = true ↔
      ∃ before, chunk = before ++ [Cmd.WILL.byte] ∧
        Leaves ((reader cfg).run ⟨t, false⟩ before).1.t Cmd.WILL.byte := by
  rcases List.eq_nil_or_concat' chunk with rfl | ⟨before, byte, rfl⟩
  · simp [Runs.Machine.run]
  · have hlast : ((reader cfg).run ⟨t, false⟩ (before ++ [byte])).1 =
        (feed cfg ((reader cfg).run ⟨t, false⟩ before).1 byte).1 := by
      rw [Runs.Machine.run_append]
      rfl
    rw [hlast, feed_skip]
    constructor
    · intro h
      obtain ⟨-, -, rfl⟩ := id h
      exact ⟨before, rfl, h⟩
    · rintro ⟨before', heq, h⟩
      obtain ⟨rfl, hbyte⟩ := List.append_inj' heq rfl
      cases hbyte
      exact h

theorem recv_overrun (chunk : List UInt8) :
    .overrun ∈ (telnetRecv cfg t chunk).2 ↔ Overruns cfg t chunk := by
  rw [← mem_view (by simp), (recv_view t chunk).2, List.mem_append, Runs.Machine.mem_run]
  have hend : .inr .overrun ∈ chunkEnd ((reader cfg).run ⟨t, false⟩ chunk).1 ↔
      ((reader cfg).run ⟨t, false⟩ chunk).1.skip = true := by
    rw [chunkEnd]
    split_ifs with hskip <;> simp [hskip]
  rw [hend, run_skip]
  constructor
  · rintro (⟨pre, byte, post, rfl, hover⟩ | ⟨before, rfl, hleaves⟩)
    · obtain ⟨-, hskip, hends⟩ := (feed_overrun _ _).1 hover
      obtain ⟨before, rfl, hleaves⟩ := run_skip.1 hskip
      refine ⟨before, byte :: post, by simp, hleaves, ?_⟩
      rintro b ⟨rfl⟩
      rw [run_leaves hleaves] at hends
      exact hends
    · exact ⟨before, [], rfl, hleaves, by simp⟩
  · rintro ⟨before, after, rfl, hleaves, hends⟩
    cases after with
    | nil => exact .inr ⟨before, rfl, hleaves⟩
    | cons byte post =>
      refine .inl ⟨before ++ [Cmd.WILL.byte], byte, post, by simp, (feed_overrun _ _).2 ?_⟩
      rw [run_leaves hleaves]
      exact ⟨rfl, rfl, hends byte rfl⟩

/-- Data is handed out that ends before it begins when a chunk has the start of the first
compression protocol at its end, or before a byte that ends data. -/
theorem overrun_iff (chunks : List (List UInt8)) :
    .overrun ∈ ((receiver cfg).run t chunks).2 ↔
      ∃ pre chunk post, chunks = pre ++ chunk :: post ∧
        Overruns cfg ((receiver cfg).run t pre).1 chunk := by
  rw [Runs.Machine.mem_run]
  simp only [receiver, recv_overrun]

end SqueezeliteMuse.Telnet
