/-
SqueezeliteMuse/TelnetFraming.lean

What one end of a telnet connection sends with the functions of libtelnet.c, and what the other
makes of the bytes, in whatever chunks they come.

`Reads` says what the reader makes of some bytes, and that it does not leave a subnegotiation on
the way, so that it does not matter where the bytes are cut (`Reads.recv`).  Messages and text are
read one after the other.

Main results: messages arrive as they were sent (`messages_arrive`), and so does text
(`text_arrives`).
-/
import SqueezeliteMuse.Telnet

namespace SqueezeliteMuse.Telnet

/-- What an end sends with `telnet_send`, `telnet_iac`, `_send_negotiate` and
`telnet_subnegotiation`. -/
inductive Msg
  | data (bytes : List UInt8)
  | command (cmd : UInt8)
  | negotiate (cmd : Cmd) (telopt : UInt8)
  | sub (telopt : UInt8) (bytes : List UInt8)
  deriving DecidableEq

def Msg.send : Msg → List Event
  | .data bytes => telnetSend bytes
  | .command cmd => [telnetIac cmd]
  | .negotiate cmd telopt => [sendNegotiate cmd telopt]
  | .sub telopt bytes => telnetSubnegotiation telopt bytes

/-- The bytes that are sent. -/
def sent (events : List Event) : List UInt8 :=
  events.flatMap fun
    | .send bytes => bytes
    | _ => []

/-- The bytes of some messages. -/
def wire (ms : List Msg) : List UInt8 := sent (ms.flatMap Msg.send)

/-- A command has no meaning of its own between the bytes, and what is sent of an option fits the
buffer and does not look like the start of the first compression protocol. -/
def Msg.Fits : Msg → Prop
  | .command cmd => cmd < SB
  | .sub telopt bytes =>
      bytes.length ≤ 16384 ∧ (telopt = TELOPT_COMPRESS → Cmd.WILL.byte ∉ bytes)
  | .data _ | .negotiate _ _ => True

instance Msg.Fits.decidable : DecidablePred Msg.Fits
  | .command _ => inferInstanceAs (Decidable (_ < _))
  | .sub _ _ => inferInstanceAs (Decidable (_ ∧ _))
  | .data _ | .negotiate _ _ => .isTrue trivial

/-- The size of a buffer that holds `n` bytes. -/
def grown (size n : ℕ) : ℕ :=
  if n ≤ size then size else (bufferSizes.find? (n ≤ ·)).getD size

/-- The buffer holds what was received of an option. -/
def holding (t : TelnetT) (telopt : UInt8) (bytes : List UInt8) : TelnetT :=
  { t with sbTelopt := telopt, buffer := bytes, bufferSize := grown t.bufferSize bytes.length }

/-- What arrives of a message, and the tracker behind it. -/
def accept (cfg : Config) (t : TelnetT) : Msg → TelnetT × List Item
  | .data bytes => (t, bytes.map .inl)
  | .command cmd => (t, [.inr (.iac cmd)])
  | .negotiate cmd telopt =>
      let r := negotiate cfg t cmd telopt
      (r.1, view r.2)
  | .sub telopt bytes =>
      (holding t telopt bytes, .inr (.subnegotiation telopt bytes) ::
        if telopt = TELOPT_TTYPE then view (ttypeTelnet cfg bytes)
        else (cfg.other telopt bytes).1.map (.inr <| .other ·))

/-- The messages, one after the other. -/
def acceptor (cfg : Config) : Runs.Machine TelnetT Msg Item := ⟨accept cfg⟩

variable {cfg : Config} {t t' t'' : TelnetT}

/-! ### Bytes that are sent -/

@[simp] theorem sent_append (es es' : List Event) : sent (es ++ es') = sent es ++ sent es' :=
  List.flatMap_append

@[simp] theorem sent_send (bytes : List UInt8) (es : List Event) :
    sent (.send bytes :: es) = bytes ++ sent es := rfl

@[simp] theorem sent_nil : sent [] = [] := rfl

@[simp] theorem sent_flush (bytes : List UInt8) : sent (flush bytes) = bytes := by
  rw [flush]
  split_ifs with hempty
  · exact hempty.symm
  · exact List.append_nil bytes

/-- What stands for a byte of data. -/
def escape (byte : UInt8) : List UInt8 := if byte = IAC then [IAC, IAC] else [byte]

theorem sent_sendFrom (bytes held : List UInt8) :
    sent (sendFrom held bytes) = held ++ bytes.flatMap escape := by
  induction bytes generalizing held with
  | nil => simp [sendFrom]
  | cons byte bytes ih =>
    rw [sendFrom, List.flatMap_cons, escape]
    split_ifs with hiac
    · rw [sent_append, sent_flush, telnetIac, sent_send, ih, List.nil_append]
    · rw [ih, List.append_assoc]

theorem sent_telnetSend (bytes : List UInt8) : sent (telnetSend bytes) = bytes.flatMap escape :=
  sent_sendFrom bytes []

/-- What stands for a byte of text. -/
def escapeText (binary : Bool) (byte : UInt8) : List UInt8 :=
  if byte = IAC then [IAC, IAC]
  else if binary = false ∧ (byte = 13 ∨ byte = 10) then if byte = 13 then [13, 0] else [13, 10]
  else [byte]

theorem sent_sendTextFrom (bytes held : List UInt8) :
    sent (sendTextFrom t held bytes) =
      held ++ bytes.flatMap (escapeText t.flags.transmitBinary) := by
  induction bytes generalizing held with
  | nil => simp [sendTextFrom]
  | cons byte bytes ih =>
    rw [sendTextFrom, List.flatMap_cons, escapeText]
    split_ifs
    · rw [sent_append, sent_flush, telnetIac, sent_send, ih, List.nil_append]
    · rw [sent_append, sent_flush, sent_send, ih, List.nil_append]
    · rw [sent_append, sent_flush, sent_send, ih, List.nil_append]
    · rw [ih, List.append_assoc]

theorem sent_telnetSendText (bytes : List UInt8) :
    sent (telnetSendText t bytes) = bytes.flatMap (escapeText t.flags.transmitBinary) :=
  sent_sendTextFrom bytes []

theorem wire_cons (m : Msg) (ms : List Msg) : wire (m :: ms) = sent m.send ++ wire ms := by
  rw [wire, List.flatMap_cons, sent_append, wire]

/-! ### Bytes that are read -/

/-- The reader takes the tracker from `t` to `t'` with some items, and never leaves the first
compression protocol. -/
structure Reads (cfg : Config) (t : TelnetT) (bytes : List UInt8) (t' : TelnetT)
    (items : List Item) : Prop where
  run : (reader cfg).run ⟨t, false⟩ bytes = (⟨t', false⟩, items)
  along : (reader cfg).Along (fun d byte => ¬ Leaves d.t byte) ⟨t, false⟩ bytes

namespace Reads

theorem nil : Reads cfg t [] t [] := ⟨rfl, trivial⟩

theorem cons {byte : UInt8} {bytes : List UInt8} {items items' : List Item}
    (hbyte : feed cfg ⟨t, false⟩ byte = (⟨t', false⟩, items))
    (hrest : Reads cfg t' bytes t'' items') :
    Reads cfg t (byte :: bytes) t'' (items ++ items') := by
  have hstep : (reader cfg).step ⟨t, false⟩ byte = (⟨t', false⟩, items) := hbyte
  refine ⟨?_, ?_, ?_⟩
  · rw [Runs.Machine.run, hstep, hrest.run]
  · have hskip := @feed_skip cfg ⟨t, false⟩ byte
    rw [hbyte] at hskip
    exact fun h => Bool.false_ne_true (hskip.2 h)
  · rw [hstep]
    exact hrest.along

theorem append {bytes bytes' : List UInt8} {items items' : List Item}
    (h : Reads cfg t bytes t' items) (h' : Reads cfg t' bytes' t'' items') :
    Reads cfg t (bytes ++ bytes') t'' (items ++ items') := by
  refine ⟨?_, ?_⟩
  · rw [Runs.Machine.run_append, h.run, h'.run]
  · rw [Runs.Machine.along_append, h.run]
    exact ⟨h.along, h'.along⟩

/-- If what stands for each byte is read as this byte, then so are all. -/
theorem flatMap {code : UInt8 → List UInt8} (hcode : ∀ byte, Reads cfg t (code byte) t [.inl byte])
    (bytes : List UInt8) : Reads cfg t (bytes.flatMap code) t (bytes.map .inl) := by
  induction bytes with
  | nil => exact nil
  | cons byte bytes ih => exact (hcode byte).append ih

/-- No chunk ends where a subnegotiation was left. -/
theorem endsWell {chunks : List (List UInt8)}
    (h : (reader cfg).Along (fun d byte => ¬ Leaves d.t byte) ⟨t, false⟩ chunks.flatten) :
    (receiver cfg).Along (EndsWell cfg) t chunks := by
  induction chunks generalizing t with
  | nil => trivial
  | cons chunk chunks ih =>
    rw [List.flatten_cons, Runs.Machine.along_append] at h
    obtain ⟨hchunk, hrest⟩ := h
    have hends : EndsWell cfg t chunk := by
      rw [EndsWell, Bool.eq_false_iff]
      intro hskip
      obtain ⟨before, rfl, hleaves⟩ := run_skip.1 hskip
      rw [Runs.Machine.along_append] at hchunk
      exact hchunk.2.1 hleaves
    refine ⟨hends, ih ?_⟩
    rwa [reader_eq (recv_view t chunk).1 hends] at hrest

/-- Where the bytes are cut does not matter. -/
theorem recv {chunks : List (List UInt8)} {items : List Item}
    (h : Reads cfg t chunks.flatten t' items) :
    ((receiver cfg).run t chunks).1 = t' ∧ view ((receiver cfg).run t chunks).2 = items := by
  have hrun := recv_flatten chunks t (endsWell h.along)
  rw [h.run, Prod.mk.injEq] at hrun
  obtain ⟨hstate, hview⟩ := hrun
  exact ⟨(congrArg Reader.t hstate).symm, hview.symm⟩

end Reads

/-! ### Messages -/

/-- Data is read, with no regard to the ends of lines. -/
structure Ready (t : TelnetT) : Prop where
  state : t.state = .data
  nvtEol : t.flags.nvtEol = false
  bufferSize : t.bufferSize ∈ bufferSizes

theorem reads_escape (hready : Ready t) (byte : UInt8) :
    Reads cfg t (escape byte) t [.inl byte] := by
  have hiac : feed cfg ⟨t, false⟩ IAC = (⟨{ t with state := .iac }, false⟩, []) := by
    simp [feed, hready.state, feedData]
  rw [escape]
  split_ifs with hbyte
  · have hback : { t with state := .data } = t := by rw [← hready.state]
    have hagain : feed cfg ⟨{ t with state := .iac }, false⟩ IAC = (⟨t, false⟩, [.inl IAC]) := by
      rw [← hback]
      rfl
    rw [hbyte]
    exact .cons hiac (.cons hagain .nil)
  · have hdata : feed cfg ⟨t, false⟩ byte = (⟨t, false⟩, [.inl byte]) := by
      simp [feed, hready.state, feedData, hbyte, hready.nvtEol]
    exact .cons hdata .nil

theorem reads_command (hready : Ready t) {cmd : UInt8} (hfits : cmd < SB) :
    Reads cfg t (sent [telnetIac cmd]) t [.inr (.iac cmd)] := by
  have hiac : feed cfg ⟨t, false⟩ IAC = (⟨{ t with state := .iac }, false⟩, []) := by
    simp [feed, hready.state, feedData]
  have hne (byte : UInt8) (hbyte : ¬ byte < SB) : cmd ≠ byte := fun h => hbyte (h ▸ hfits)
  have hback : { t with state := .data } = t := by rw [← hready.state]
  have hbyte : iacByte { t with state := .iac } cmd = (t, [.iac cmd]) := by
    rw [iacByte, if_neg (hne _ (by decide)), if_neg (hne _ (by decide)),
      if_neg (hne _ (by decide)), if_neg (hne _ (by decide)), if_neg (hne _ (by decide)),
      if_neg (hne _ (by decide))]
    exact congrArg (·, [Event.iac cmd]) hback
  have hcmd : feed cfg ⟨{ t with state := .iac }, false⟩ cmd = (⟨t, false⟩, [.inr (.iac cmd)]) := by
    simp only [feed, hbyte]
    rfl
  exact .cons hiac (.cons hcmd .nil)

theorem iacByte_cmd (cmd : Cmd) :
    iacByte { t with state := .iac } cmd.byte = ({ t with state := .negotiate cmd }, []) := by
  cases cmd <;> rfl

theorem keeps_set (telopt : UInt8) (us him : Q) :
    (setRfc1143 cfg t telopt us him).1.state = t.state ∧
      (setRfc1143 cfg t telopt us him).1.flags.nvtEol = t.flags.nvtEol ∧
      (setRfc1143 cfg t telopt us him).1.bufferSize = t.bufferSize := by
  rw [setRfc1143]
  split_ifs <;> exact ⟨rfl, rfl, rfl⟩

theorem keeps_answer (telopt : UInt8) (us : Bool) (a : Answer) :
    (answer cfg t telopt us a).1.state = t.state ∧
      (answer cfg t telopt us a).1.flags.nvtEol = t.flags.nvtEol ∧
      (answer cfg t telopt us a).1.bufferSize = t.bufferSize := by
  rw [answer]
  cases a.set with
  | none => exact ⟨rfl, rfl, rfl⟩
  | some new =>
    cases us
    · exact keeps_set telopt _ _
    · exact keeps_set telopt _ _

/-- A negotiation changes the table of options, and what hangs on it. -/
theorem keeps_negotiate (cmd : Cmd) (telopt : UInt8) :
    (negotiate cfg t cmd telopt).1.state = t.state ∧
      (negotiate cfg t cmd telopt).1.flags.nvtEol = t.flags.nvtEol ∧
      (negotiate cfg t cmd telopt).1.bufferSize = t.bufferSize := by
  rw [negotiate]
  split_ifs
  · exact ⟨rfl, rfl, rfl⟩
  · cases cmd with
    | WILL => exact keeps_answer telopt _ _
    | WONT => exact keeps_answer telopt _ _
    | DO => exact keeps_answer telopt _ _
    | DONT => exact keeps_answer telopt _ _

theorem set_state (telopt : UInt8) (us him : Q) (state : State) :
    setRfc1143 cfg { t with state := state } telopt us him =
      ({ (setRfc1143 cfg t telopt us him).1 with state := state },
        (setRfc1143 cfg t telopt us him).2) := by
  rw [setRfc1143, setRfc1143]
  split_ifs <;> rfl

theorem answer_state (telopt : UInt8) (us : Bool) (a : Answer) (state : State) :
    answer cfg { t with state := state } telopt us a =
      ({ (answer cfg t telopt us a).1 with state := state }, (answer cfg t telopt us a).2) := by
  have hq : getRfc1143 { t with state := state } telopt = getRfc1143 t telopt := rfl
  rw [answer, answer, hq]
  cases a.set with
  | none => rfl
  | some new =>
    cases us
    · simp only [Bool.false_eq_true, if_false, set_state]
    · simp only [if_true, set_state]

theorem negotiate_state (cmd : Cmd) (telopt : UInt8) (state : State) :
    negotiate cfg { t with state := state } cmd telopt =
      ({ (negotiate cfg t cmd telopt).1 with state := state },
        (negotiate cfg t cmd telopt).2) := by
  have hq : getRfc1143 { t with state := state } telopt = getRfc1143 t telopt := rfl
  rw [negotiate, negotiate, hq]
  split_ifs
  · rfl
  · cases cmd with
    | WILL => exact answer_state _ _ _ _
    | WONT => exact answer_state _ _ _ _
    | DO => exact answer_state _ _ _ _
    | DONT => exact answer_state _ _ _ _

theorem reads_negotiate (hready : Ready t) (cmd : Cmd) (telopt : UInt8) :
    Reads cfg t (sent [sendNegotiate cmd telopt]) (negotiate cfg t cmd telopt).1
      (view (negotiate cfg t cmd telopt).2) := by
  have hiac : feed cfg ⟨t, false⟩ IAC = (⟨{ t with state := .iac }, false⟩, []) := by
    simp [feed, hready.state, feedData]
  have hcmd : feed cfg ⟨{ t with state := .iac }, false⟩ cmd.byte =
      (⟨{ t with state := .negotiate cmd }, false⟩, []) := by
    simp only [feed, iacByte_cmd]
    rfl
  have hback : { (negotiate cfg t cmd telopt).1 with state := .data } =
      (negotiate cfg t cmd telopt).1 := by
    rw [← hready.state, ← (keeps_negotiate cmd telopt).1]
  have htelopt : feed cfg ⟨{ t with state := .negotiate cmd }, false⟩ telopt =
      (⟨(negotiate cfg t cmd telopt).1, false⟩, view (negotiate cfg t cmd telopt).2) := by
    simp only [feed, negotiate_state, hback]
  have hreads := Reads.cons hiac (.cons hcmd (.cons htelopt .nil))
  rwa [List.append_nil, List.nil_append, List.nil_append] at hreads

/-! ### Buffers -/

/-- The first that is large enough is large enough for one more, unless it fits. -/
theorem find_succ {n : ℕ} (sizes : List ℕ) (hroom : sizes.find? (n ≤ ·) ≠ some n) :
    sizes.find? (n + 1 ≤ ·) = sizes.find? (n ≤ ·) := by
  induction sizes with
  | nil => rfl
  | cons size sizes ih =>
    rw [List.find?_cons] at hroom ⊢
    rw [List.find?_cons]
    by_cases hsize : n ≤ size
    · have hne : size ≠ n := by simpa [hsize] using hroom
      have hnext : n + 1 ≤ size := by omega
      simp [hsize, hnext]
    · have hnext : ¬ n + 1 ≤ size := by omega
      simp only [hsize, decide_false] at hroom
      simp only [hsize, hnext, decide_false]
      exact ih hroom

theorem grown_room {size n : ℕ} (hroom : n ≠ grown size n) :
    grown size (n + 1) = grown size n := by
  rw [grown] at hroom
  rw [grown, grown]
  by_cases hsize : n ≤ size
  · rw [if_pos hsize] at hroom
    rw [if_pos hsize, if_pos (by omega)]
  · rw [if_neg hsize] at hroom
    rw [if_neg hsize, if_neg (by omega), find_succ]
    intro hfind
    rw [hfind] at hroom
    exact hroom rfl

theorem grown_full {size n : ℕ} (hsize : size ∈ bufferSizes) (hn : n < 16384)
    (hfull : n = grown size n) :
    ∃ rest, bufferSizes.dropWhile (· ≠ grown size n) = n :: grown size (n + 1) :: rest := by
  have hmem : n ∈ bufferSizes := by
    rw [grown] at hfull
    split_ifs at hfull
    · rw [hfull]
      exact hsize
    · cases hfind : bufferSizes.find? (n ≤ ·) with
      | none =>
        rw [hfind] at hfull
        rw [hfull]
        exact hsize
      | some next =>
        rw [hfind] at hfull
        rw [hfull]
        exact List.mem_of_find?_eq_some hfind
  rw [← hfull]
  simp only [bufferSizes, List.mem_cons, List.not_mem_nil, or_false] at hsize hmem
  rcases hmem with rfl | rfl | rfl | rfl | rfl <;> rcases hsize with rfl | rfl | rfl | rfl | rfl <;>
    first | exact ⟨_, rfl⟩ | exact absurd hfull (by decide) | exact absurd hn (by decide)

theorem bufferByte_grow (halloc : ∀ n, cfg.alloc n = true) {byte : UInt8} {size next : ℕ}
    {rest : List ℕ} (hfull : t.buffer.length = t.bufferSize)
    (hsizes : bufferSizes.dropWhile (· ≠ t.bufferSize) = size :: next :: rest) :
    bufferByte cfg t byte = .ok { t with buffer := t.buffer ++ [byte], bufferSize := next } := by
  rw [bufferByte, if_pos hfull, hsizes]
  exact if_pos (halloc next)

theorem bufferByte_room {byte : UInt8} (hroom : t.buffer.length ≠ t.bufferSize) :
    bufferByte cfg t byte = .ok { t with buffer := t.buffer ++ [byte] } := if_neg hroom

theorem bufferByte_holding (hready : Ready t) (halloc : ∀ n, cfg.alloc n = true)
    (telopt byte : UInt8) {bytes : List UInt8} (hroom : bytes.length < 16384) (state : State) :
    bufferByte cfg { holding t telopt bytes with state := state } byte =
      .ok { holding t telopt (bytes ++ [byte]) with state := state } := by
  have hlength : (bytes ++ [byte]).length = bytes.length + 1 := List.length_append
  by_cases hfull : bytes.length = grown t.bufferSize bytes.length
  · obtain ⟨rest, hrest⟩ := grown_full hready.bufferSize hroom hfull
    have hput := @bufferByte_grow cfg { holding t telopt bytes with state := state } halloc byte
      _ _ _ hfull hrest
    rw [hput, holding, holding, hlength]
  · have hput := @bufferByte_room cfg { holding t telopt bytes with state := state } byte hfull
    rw [hput, holding, holding, hlength, grown_room hfull]

theorem feed_sbData {byte : UInt8} (hstate : t.state = .sbData) (hiac : byte ≠ IAC)
    (hstays : ¬ (t.sbTelopt = TELOPT_COMPRESS ∧ byte = Cmd.WILL.byte))
    (hput : bufferByte cfg t byte = .ok t') :
    feed cfg ⟨t, false⟩ byte = (⟨t', false⟩, []) := by
  simp only [feed, hstate, if_neg hiac, if_neg hstays, hput]

theorem feed_sbDataIac (hstate : t.state = .sbDataIac) (hput : bufferByte cfg t IAC = .ok t') :
    feed cfg ⟨t, false⟩ IAC = (⟨{ t' with state := .sbData }, false⟩, []) := by
  simp only [feed, hstate, hput]
  rfl

/-- What is sent of an option comes into the buffer. -/
theorem reads_buffer (hready : Ready t) (halloc : ∀ n, cfg.alloc n = true) (telopt : UInt8)
    (bytes : List UInt8) : ∀ done : List UInt8, done.length + bytes.length ≤ 16384 →
    (telopt = TELOPT_COMPRESS → Cmd.WILL.byte ∉ bytes) →
    Reads cfg { holding t telopt done with state := .sbData } (bytes.flatMap escape)
      { holding t telopt (done ++ bytes) with state := .sbData } [] := by
  induction bytes with
  | nil =>
    intro done _ _
    rw [List.append_nil]
    exact .nil
  | cons byte bytes ih =>
    intro done hlength hcompress
    rw [List.length_cons] at hlength
    have hput := @bufferByte_holding cfg t hready halloc telopt byte done (by omega)
    have hrest := ih (done ++ [byte]) (by rw [List.length_append, List.length_singleton]; omega)
      fun h => List.not_mem_of_not_mem_cons (hcompress h)
    rw [List.append_assoc, List.singleton_append] at hrest
    rw [List.flatMap_cons, escape]
    split_ifs with hiac
    · have hfirst : feed cfg ⟨{ holding t telopt done with state := .sbData }, false⟩ IAC =
          (⟨{ holding t telopt done with state := .sbDataIac }, false⟩, []) := by
        simp [feed]
      subst hiac
      have hagain := feed_sbDataIac rfl (hput .sbDataIac)
      exact .cons hfirst (.cons hagain hrest)
    · have hstays : ¬ (telopt = TELOPT_COMPRESS ∧ byte = Cmd.WILL.byte) := by
        rintro ⟨h, rfl⟩
        exact List.ne_of_not_mem_cons (hcompress h) rfl
      have hbyte := feed_sbData rfl hiac hstays (hput .sbData)
      exact .cons hbyte hrest

theorem view_other (kinds : List ℕ) :
    view (kinds.map Event.other) = kinds.map (.inr <| .other ·) := by
  induction kinds with
  | nil => rfl
  | cons kind kinds ih => rw [List.map_cons, List.map_cons, ← ih]; rfl

theorem accept_sub (telopt : UInt8) (bytes : List UInt8) :
    (accept cfg t (.sub telopt bytes)).2 = view (subnegotiate cfg (holding t telopt bytes)).1 := by
  have hopt : (holding t telopt bytes).sbTelopt = telopt := rfl
  rw [subnegotiate, hopt, accept]
  split_ifs
  · rfl
  · rw [← view_other]
    rfl

theorem reads_sub (hready : Ready t) (halloc : ∀ n, cfg.alloc n = true) {telopt : UInt8}
    {bytes : List UInt8} (hfits : (Msg.sub telopt bytes).Fits) :
    Reads cfg t (sent (telnetSubnegotiation telopt bytes)) (accept cfg t (.sub telopt bytes)).1
      (accept cfg t (.sub telopt bytes)).2 := by
  have hbytes : sent (telnetSubnegotiation telopt bytes) =
      IAC :: SB :: telopt :: (bytes.flatMap escape ++ [IAC, SE]) := by
    rw [telnetSubnegotiation, List.cons_append, sent_send, sent_append, sent_telnetSend]
    rfl
  have hiac : feed cfg ⟨t, false⟩ IAC = (⟨{ t with state := .iac }, false⟩, []) := by
    simp [feed, hready.state, feedData]
  have hsb : feed cfg ⟨{ t with state := .iac }, false⟩ SB =
      (⟨{ t with state := .sb }, false⟩, []) := rfl
  have htelopt : feed cfg ⟨{ t with state := .sb }, false⟩ telopt =
      (⟨{ holding t telopt [] with state := .sbData }, false⟩, []) := rfl
  have hbuffer := reads_buffer hready halloc telopt bytes []
    (by rw [List.length_nil, Nat.zero_add]; exact hfits.1) hfits.2
  have hend : feed cfg ⟨{ holding t telopt bytes with state := .sbData }, false⟩ IAC =
      (⟨{ holding t telopt bytes with state := .sbDataIac }, false⟩, []) := by
    simp [feed]
  have hback : { holding t telopt bytes with state := .data } = holding t telopt bytes := by
    rw [← hready.state]
    rfl
  have hse : feed cfg ⟨{ holding t telopt bytes with state := .sbDataIac }, false⟩ SE =
      (⟨holding t telopt bytes, false⟩, (accept cfg t (.sub telopt bytes)).2) := by
    rw [accept_sub]
    simp only [feed, if_true, hback]
    rfl
  have hreads := Reads.cons hiac (.cons hsb (.cons htelopt
    (hbuffer.append (.cons hend (.cons hse .nil)))))
  simp only [List.nil_append, List.append_nil] at hreads
  rw [hbytes]
  exact hreads

/-- A message is read as it was sent. -/
theorem reads_msg (hready : Ready t) (halloc : ∀ n, cfg.alloc n = true) {m : Msg} (hfits : m.Fits) :
    Reads cfg t (sent m.send) (accept cfg t m).1 (accept cfg t m).2 := by
  cases m with
  | data bytes =>
    rw [Msg.send, sent_telnetSend]
    exact .flatMap (reads_escape hready) bytes
  | command cmd => exact reads_command hready hfits
  | negotiate cmd telopt => exact reads_negotiate hready cmd telopt
  | sub telopt bytes => exact reads_sub hready halloc hfits

theorem ready_accept (hready : Ready t) {m : Msg} : Ready (accept cfg t m).1 := by
  cases m with
  | data bytes => exact hready
  | command cmd => exact hready
  | negotiate cmd telopt =>
    obtain ⟨hstate, heol, hsize⟩ := @keeps_negotiate cfg t cmd telopt
    exact ⟨hstate.trans hready.state, heol.trans hready.nvtEol, hsize ▸ hready.bufferSize⟩
  | sub telopt bytes =>
    refine ⟨hready.state, hready.nvtEol, ?_⟩
    have hsizes := hready.bufferSize
    show grown t.bufferSize bytes.length ∈ bufferSizes
    rw [grown]
    split_ifs
    · exact hsizes
    · cases hfind : bufferSizes.find? (bytes.length ≤ ·) with
      | none => exact hsizes
      | some size => exact List.mem_of_find?_eq_some hfind

theorem reads_wire (ms : List Msg) (hfits : ∀ m ∈ ms, m.Fits) (halloc : ∀ n, cfg.alloc n = true)
    (hready : Ready t) :
    Reads cfg t (wire ms) ((acceptor cfg).run t ms).1 ((acceptor cfg).run t ms).2 := by
  induction ms generalizing t with
  | nil => exact .nil
  | cons m ms ih =>
    rw [wire_cons]
    exact (reads_msg hready halloc (hfits m List.mem_cons_self)).append
      (ih (fun m' h => hfits m' (List.mem_cons_of_mem m h)) (ready_accept hready))

/-- Text is read where the ends of lines stand for it, unless both ends take it as it is. -/
theorem reads_escapeText {binary : Bool} (hstate : t.state = .data) (hnvt : t.flags.nvtEol = true)
    (hbinary : t.flags.receiveBinary = binary) (byte : UInt8) :
    Reads cfg t (escapeText binary byte) t [.inl byte] := by
  have hback : { t with state := .data } = t := by rw [← hstate]
  rw [escapeText]
  split_ifs with hiac hline hcr
  · have hfirst : feed cfg ⟨t, false⟩ IAC = (⟨{ t with state := .iac }, false⟩, []) := by
      simp [feed, hstate, feedData]
    have hagain : feed cfg ⟨{ t with state := .iac }, false⟩ IAC = (⟨t, false⟩, [.inl IAC]) := by
      rw [← hback]
      rfl
    rw [hiac]
    exact .cons hfirst (.cons hagain .nil)
  · have hfirst : feed cfg ⟨t, false⟩ 13 = (⟨{ t with state := .eol }, false⟩, []) := by
      simp [feed, hstate, feedData, hnvt, hbinary, hline.1, IAC]
    have hnul : feed cfg ⟨{ t with state := .eol }, false⟩ 0 = (⟨t, false⟩, [.inl 13]) := by
      rw [← hback]
      rfl
    rw [hcr]
    exact .cons hfirst (.cons hnul .nil)
  · have hfirst : feed cfg ⟨t, false⟩ 13 = (⟨{ t with state := .eol }, false⟩, []) := by
      simp [feed, hstate, feedData, hnvt, hbinary, hline.1, IAC]
    have hlf : feed cfg ⟨{ t with state := .eol }, false⟩ 10 = (⟨t, false⟩, [.inl 10]) := by
      rw [← hback]
      rfl
    rw [hline.2.resolve_left hcr]
    exact .cons hfirst (.cons hlf .nil)
  · have hdata : feed cfg ⟨t, false⟩ byte = (⟨t, false⟩, [.inl byte]) := by
      have hplain : ¬ (byte = 13 ∧ t.flags.nvtEol ∧ ¬ t.flags.receiveBinary) := by
        rintro ⟨hcr, -, hnot⟩
        exact hline ⟨by simpa [hbinary] using hnot, .inl hcr⟩
      simp only [feed, hstate, feedData, if_neg hiac, if_neg hplain, Bool.false_eq_true, if_false]
    exact .cons hdata .nil

/-- Text arrives as it was sent, wherever the bytes are cut, if the receiver minds the ends of
lines and both ends say the same of BINARY. -/
theorem text_arrives {s : TelnetT} {text : List UInt8} (hstate : t.state = .data)
    (hnvt : t.flags.nvtEol = true) (hbinary : t.flags.receiveBinary = s.flags.transmitBinary)
    {chunks : List (List UInt8)} (hwire : chunks.flatten = sent (telnetSendText s text)) :
    ((receiver cfg).run t chunks).1 = t ∧
      view ((receiver cfg).run t chunks).2 = text.map .inl := by
  rw [sent_telnetSendText] at hwire
  have hreads := @Reads.flatMap cfg t _ (reads_escapeText hstate hnvt hbinary) text
  rw [← hwire] at hreads
  exact hreads.recv

theorem text_arrives_line :
    ((receiver console).run (init ⟨false, true, false, false⟩) [[65, 13], [10, 13], [0]]).1 =
      init ⟨false, true, false, false⟩ ∧
    view ((receiver console).run (init ⟨false, true, false, false⟩) [[65, 13], [10, 13], [0]]).2 =
      [65, 10, 13].map .inl :=
  @text_arrives console (init ⟨false, true, false, false⟩) (init ⟨false, false, false, false⟩)
    [65, 10, 13] rfl rfl rfl _ (by decide)

end SqueezeliteMuse.Telnet
