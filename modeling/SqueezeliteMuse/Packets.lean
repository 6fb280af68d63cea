/-
SqueezeliteMuse/Packets.lean

`process` of slimproto.c: the handler of a packet, and what a packet leaves in
the receive buffer.

The buffer is static, and what is received stands over what was there: first
the two bytes of the length, then the packet.  So a handler finds its packet,
behind a packet of one byte the lower half of the length, and behind that what
earlier packets left.  Some handlers turn fields of theirs into native order in
the buffer, and a packet that nobody handles loses its byte 4.

`client` takes packets one at a time; between them the other tasks may bring
the player to any state, and write what lies behind the buffer.  Main result
here: `slimproto_run_received`: the loop of `slimproto_run` hands its packets over
in the buffer that `client` computes.
-/
import SqueezeliteMuse.Display
import SqueezeliteMuse.Framing

namespace SqueezeliteMuse.Slimproto

open Octets

/-! ### Opcodes -/

def strm : List UInt8 := [0x73, 0x74, 0x72, 0x6d]
def cont : List UInt8 := [0x63, 0x6f, 0x6e, 0x74]
def codc : List UInt8 := [0x63, 0x6f, 0x64, 0x63]
def aude : List UInt8 := [0x61, 0x75, 0x64, 0x65]
def audg : List UInt8 := [0x61, 0x75, 0x64, 0x67]
def setd : List UInt8 := [0x73, 0x65, 0x74, 0x64]
def serv : List UInt8 := [0x73, 0x65, 0x72, 0x76]
def dsco : List UInt8 := [0x64, 0x73, 0x63, 0x6f]
def vfdc : List UInt8 := [0x76, 0x66, 0x64, 0x63]
def grfe : List UInt8 := [0x67, 0x72, 0x66, 0x65]
def grfb : List UInt8 := [0x67, 0x72, 0x66, 0x62]
def grfs : List UInt8 := [0x67, 0x72, 0x66, 0x73]
def grfg : List UInt8 := [0x67, 0x72, 0x66, 0x67]
def grfa : List UInt8 := [0x67, 0x72, 0x66, 0x61]
def visu : List UInt8 := [0x76, 0x69, 0x73, 0x75]
def dmxt : List UInt8 := [0x64, 0x6d, 0x78, 0x74]
def audo : List UInt8 := [0x61, 0x75, 0x64, 0x6f]
def eqlz : List UInt8 := [0x65, 0x71, 0x6c, 0x7a]

/-- What a handler makes of the player, the buffer and the length of the packet. -/
abbrev Handler := Player → (ℕ → UInt8) → ℕ → Effect

/-- `handlers` of slimproto.c -/
def handlers : List (List UInt8 × Handler) :=
  [(strm, Player.processStrm), (cont, Player.processCont), (codc, Player.processCodc),
    (aude, Player.processAude), (audg, Player.processAudg), (setd, Player.processSetd),
    (serv, Player.processServ), (dsco, Player.processDsco)]

/-- The cases of `handler` in displayer.c. -/
def displayHandlers : List (List UInt8 × Handler) :=
  [(vfdc, Player.vfdcHandler), (grfe, Player.grfeHandler), (grfb, Player.grfbHandler),
    (grfs, Player.grfsHandler), (grfg, Player.grfgHandler), (grfa, Player.grfaHandler),
    (visu, Player.visuHandler), (dmxt, Player.dmxtHandler)]

/-- The handlers chained in `slimp_handler`: displayer.c, output_i2s.c, output_embedded.c. -/
def slimpHandlers : List (List (List UInt8 × Handler)) :=
  [displayHandlers, [(audo, Player.audoHandler)], [(eqlz, Player.eqlzHandler)]]

/-! ### The code -/

/-- The first four bytes of a packet, which `strncmp` compares. -/
def opcode (pack : ℕ → UInt8) : List UInt8 := bytesAt pack 0 4

/-- The handler of an opcode in a table. -/
def lookup (table : List (List UInt8 × Handler)) (op : List UInt8) : Option Handler :=
  (table.find? fun h => h.1 = op).map Prod.snd

/-- `slimp_handler`: every handler of the chain gets the packet.  Whether one of
them took it, and what they did. -/
def chain (pack : ℕ → UInt8) (len : ℕ) :
    List (List (List UInt8 × Handler)) → Player → Bool × Effect
  | [], p => (false, p, [])
  | table :: rest, p =>
      match lookup table (opcode pack) with
      | some h =>
          let e := h p pack len
          let r := chain pack len rest e.1
          (true, r.2.1, e.2 ++ r.2.2)
      | none => chain pack len rest p

/-- `process` -/
def process (p : Player) (pack : ℕ → UInt8) (len : ℕ) : Effect :=
  match lookup handlers (opcode pack) with
  | some h => h p pack len
  | none => (chain pack len slimpHandlers p).2

/-- Whether `process` finds a handler. -/
def handled (op : List UInt8) : Bool :=
  (handlers :: slimpHandlers).any fun table => (lookup table op).isSome

/-- The buffer after `process`. -/
def processed (pack : ℕ → UInt8) (_len : ℤ) : ℕ → UInt8 :=
  if opcode pack = cont then swap pack 4 4
  else if opcode pack = audg then swap (swap pack 14 4) 18 4
  else if opcode pack = grfb then swap pack 4 2
  else if opcode pack = visu then
    if pack 4 &&& VISU_ESP32 ≠ 0 ∧ 4 ≤ pack 5 then swap (swap (swap pack 10 4) 18 4) 14 4 else pack
  else if handled (opcode pack) then pack
  else Function.update pack 4 0

/-- The buffer when a packet is handed to `process`: the packet, over its
length, over what was there. -/
def received (old : ℕ → UInt8) (pkt : List UInt8) : ℕ → UInt8 :=
  Ring.write
    (Ring.write old 0 [UInt8.ofNat (pkt.length / 256), UInt8.ofNat pkt.length]) 0 pkt

/-! ### The client -/

/-- The player and the receive buffer, with what lies behind it. -/
structure Client where
  player : Player
  buffer : ℕ → UInt8

/-- A packet, or what the other tasks do in between. -/
inductive ClientEvent
  | packet (pkt : List UInt8)
  | others (player : Player) (behind : ℕ → UInt8)

/-- The packets that are handed to `process`. -/
def ClientEvent.Fits : ClientEvent → Prop
  | .packet pkt => pkt ≠ [] ∧ pkt.length ≤ MAXBUF
  | .others .. => True

/-- Bytes behind the buffer. -/
def behindBuffer (buffer behind : ℕ → UInt8) : ℕ → UInt8 := fun i =>
  if i < MAXBUF then buffer i else behind i

/-- What a packet does to the player, and what is sent and called for it. -/
def Client.effect (s : Client) (pkt : List UInt8) : Effect :=
  process s.player (received s.buffer pkt) pkt.length

/-- One event. -/
def clientStep (s : Client) : ClientEvent → Client × List Call
  | .packet pkt =>
      (⟨(s.effect pkt).1, processed (received s.buffer pkt) pkt.length⟩, (s.effect pkt).2)
  | .others player behind => (⟨player, behindBuffer s.buffer behind⟩, [])

/-- The client. -/
def client : Runs.Machine Client ClientEvent Call := ⟨clientStep⟩

/-- The buffer is static: it starts with zeros. -/
def clientStart (player : Player) (behind : ℕ → UInt8) : Client :=
  ⟨player, behindBuffer (fun _ => 0) behind⟩

/-- States of `slimproto_run`, between two packets. -/
def Reachable (s : Client) : Prop :=
  ∃ player behind es, client.Along (fun _ e => e.Fits) (clientStart player behind) es ∧
    (client.run (clientStart player behind) es).1 = s

/-! ### The reader -/

section Reader

variable (f : (ℕ → UInt8) → ℤ → ℕ → UInt8)

/-- The buffer, as `f` leaves it at every packet handed over. -/
def watchBuffer (old : ℕ → UInt8) : ReadObs → Option (ℕ → UInt8)
  | .recv .. => some old
  | .process pack => some (f (received old pack) pack.length)

/-- The loop, on its way to a packet over the buffer `old`. -/
def Filling (s : SlimReader) (old : ℕ → UInt8) : Prop :=
  s.returned = none →
    (s.expect = 0 ∧ (s.got = 0 ∨ s.got = 1) ∧ ∀ i, 2 ≤ i → s.buffer i = old i) ∨
      (0 < s.expect ∧ ∃ b body, (∀ i, 2 ≤ i → b i = old i) ∧
        (LengthPrefix.be (b 0) (b 1) : ℤ) = s.got + s.expect ∧ s.got = (body.length : ℕ) ∧
        s.buffer = Ring.write b 0 body)

variable {f}

theorem write_append (b : ℕ → UInt8) (xs ys : List UInt8) :
    Ring.write (Ring.write b 0 xs) xs.length ys = Ring.write b 0 (xs ++ ys) := by
  funext i
  simp only [Ring.write, Nat.zero_le, if_true, Nat.sub_zero, List.getD_eq_getElem?_getD]
  by_cases hi : xs.length ≤ i
  · rw [if_pos hi, List.getElem?_append_right hi, List.getElem?_eq_none hi, Option.getD_none]
  · rw [if_neg hi, List.getElem?_append_left (by omega)]

/-- The packet stands over its length, and that over what was there. -/
theorem received_eq {b old : ℕ → UInt8} {pkt : List UInt8} (hold : ∀ i, 2 ≤ i → b i = old i)
    (hbe : pkt.length = LengthPrefix.be (b 0) (b 1)) : Ring.write b 0 pkt = received old pkt := by
  obtain ⟨h0, h1⟩ : UInt8.ofNat (pkt.length / 256) = b 0 ∧ UInt8.ofNat pkt.length = b 1 := by
    have h := LengthPrefix.frame_of_be hbe
    simp only [LengthPrefix.frame, List.cons.injEq, and_true] at h
    exact h
  have hb : Ring.write old 0 [UInt8.ofNat (pkt.length / 256), UInt8.ofNat pkt.length] = b := by
    funext i
    rcases i with _ | _ | i
    · exact h0
    · exact h1
    · exact (hold (i + 2) (by omega)).symm
  rw [received, hb]

theorem Filling.bodyRead {s : SlimReader} {old : ℕ → UInt8} {bs : List UInt8}
    (h : Filling s old) (hret : s.returned = none) (hpos : 0 < s.expect)
    (hlen : bs.length ≤ s.expect.toNat) :
    ∃ old', Runs.watch (watchBuffer f) old (bodyRead f s bs).2 = some old' ∧
      Filling (bodyRead f s bs).1 old' := by
  obtain ⟨h0, -⟩ | ⟨-, b, body, hold, hbe, hgot, hbuf⟩ := h hret
  · omega
  have hstore : (s.store bs).buffer = Ring.write b 0 (body ++ bs) := by
    show Ring.write s.buffer s.got.toNat bs = _
    rw [hbuf, hgot, Int.toNat_natCast, write_append]
  have hgot' : (s.store bs).got = ((body ++ bs).length : ℕ) := by
    show s.got + bs.length = _
    rw [hgot, List.length_append]
    omega
  by_cases hdone : s.expect - bs.length = 0
  · -- the packet is complete
    have hrec : Ring.write b 0 (body ++ bs) = received old (body ++ bs) :=
      received_eq hold (by rw [List.length_append]; omega)
    have hpeek : peek (Ring.write b 0 (body ++ bs)) (body ++ bs).length = body ++ bs := by
      have h := peek_write b 0 (body ++ bs)
      rw [Nat.zero_add] at h
      exact h
    refine ⟨f (received old (body ++ bs)) (body ++ bs).length, ?_, ?_⟩
    · simp only [SqueezeliteMuse.bodyRead, hdone, if_true, hstore, hgot', Int.toNat_natCast, hpeek]
      rfl
    · simp only [SqueezeliteMuse.bodyRead, hdone, if_true, hstore, hgot', ← hrec]
      intro _
      exact .inl ⟨rfl, .inl rfl, fun i _ => rfl⟩
  · -- more of it is to come
    refine ⟨old, ?_, ?_⟩
    · simp only [SqueezeliteMuse.bodyRead, hdone, if_false]
      rfl
    · simp only [SqueezeliteMuse.bodyRead, hdone, if_false]
      intro _
      refine .inr ⟨show 0 < s.expect - bs.length by omega, b, body ++ bs, hold, ?_, hgot', hstore⟩
      show _ = s.got + bs.length + (s.expect - bs.length)
      omega

theorem Filling.headerRead {s : SlimReader} {old : ℕ → UInt8} {bs : List UInt8}
    (h : Filling s old) (hret : s.returned = none) (hzero : s.expect = 0) (hne : bs ≠ [])
    (hlen : bs.length ≤ (2 - s.got).toNat) :
    Runs.watch (watchBuffer f) old (headerRead s bs).2 = some old ∧
      Filling (headerRead s bs).1 old := by
  obtain ⟨-, hgot, hold⟩ | ⟨h0, -⟩ := h hret
  swap
  · omega
  have hpos := List.length_pos_of_ne_nil hne
  -- the length stands below the packet
  have hstore : ∀ i, 2 ≤ i → (s.store bs).buffer i = old i := by
    intro i hi
    rw [← hold i hi]
    exact Ring.write_of_ge (by omega)
  have hpack := packLength_eq (s.store bs).buffer
  refine ⟨?_, ?_⟩
  · simp only [SqueezeliteMuse.headerRead]
    split
    · split <;> rfl
    · rfl
  simp only [SqueezeliteMuse.headerRead]
  split
  · split
    · intro hsome
      cases hsome
    · intro _
      by_cases hnil : packLength (s.store bs).buffer = 0
      · exact .inl ⟨hnil, .inl rfl, hstore⟩
      · refine .inr ⟨?_, _, [], hstore, ?_, rfl, ?_⟩
        · show 0 < packLength (s.store bs).buffer
          omega
        · show _ = 0 + packLength (s.store bs).buffer
          omega
        · funext i
          simp [Ring.write]
  · rename_i htwo
    intro _
    refine .inl ⟨hzero, .inr ?_, hstore⟩
    have hadd : (s.store bs).got = s.got + bs.length := rfl
    have hone : (s.store bs).got ≠ 2 := htwo
    show (s.store bs).got = 1
    omega

/-- One turn of the loop. -/
theorem Filling.turn {s : SlimReader} {old : ℕ → UInt8} (h : Filling s old) (ev : ReadEvent) :
    ∃ old', Runs.watch (watchBuffer f) old (slimprotoTurn f s ev).2 = some old' ∧
      Filling (slimprotoTurn f s ev).1 old' := by
  rcases hret : s.returned with - | e
  swap
  · exact ⟨old, by simp [slimprotoTurn, hret], by simp [slimprotoTurn, hret, Filling]⟩
  have hstop : ∀ s' : SlimReader, s'.returned ≠ none → Filling s' old :=
    fun s' hsome hnone => absurd hnone hsome
  simp only [slimprotoTurn, hret, Option.isSome_none, Bool.false_eq_true, if_false]
  cases ev with
  | stop => exact ⟨_, rfl, hstop _ (by simp)⟩
  | wake => exact ⟨_, rfl, fun _ => h hret⟩
  | timeout =>
      refine ⟨_, rfl, ?_⟩
      simp only
      split
      · exact hstop _ (by simp)
      · exact fun _ => h hret
  | read r =>
      by_cases hbody : s.expect > 0
      · simp only [readEvent, hbody, if_true]
        rcases hr : recvBytes s.wire s.expect.toNat r with bs | - | -
        · cases bs with
          | nil => exact ⟨_, rfl, hstop _ (by simp)⟩
          | cons c bs => exact h.bodyRead hret hbody (recvBytes_eq hr).2
        · exact ⟨_, rfl, h⟩
        · exact ⟨_, rfl, hstop _ (by simp)⟩
      · by_cases hzero : s.expect = 0
        · have hnot : ¬ (0 : ℤ) > 0 := by decide
          simp only [readEvent, hzero, hnot, if_false, if_true]
          rcases hr : recvBytes s.wire (2 - s.got).toNat r with bs | - | -
          · cases bs with
            | nil => exact ⟨_, rfl, hstop _ (by simp)⟩
            | cons c bs => exact ⟨_, h.headerRead hret hzero (by simp) (recvBytes_eq hr).2⟩
          · exact ⟨_, rfl, h⟩
          · exact ⟨_, rfl, hstop _ (by simp)⟩
        · simp only [readEvent, hbody, hzero, if_false]
          exact ⟨_, rfl, hstop _ (by simp)⟩

/-- In every run of the loop, each packet is handed over as `received` has it,
over what the one before it left in the buffer. -/
theorem slimproto_run_received (f : (ℕ → UInt8) → ℤ → ℕ → UInt8) (buffer : ℕ → UInt8)
    (wire : List UInt8) (evs : List ReadEvent) :
    ∃ old, Runs.watch (watchBuffer f) buffer
        ((slimprotoLoop f).run (slimprotoStart buffer wire) evs).2 = some old ∧
      Filling ((slimprotoLoop f).run (slimprotoStart buffer wire) evs).1 old := by
  have hstart : Filling (slimprotoStart buffer wire) buffer :=
    fun _ => .inl ⟨rfl, .inl rfl, fun _ _ => rfl⟩
  exact (slimprotoLoop f).run_watched (P := fun _ _ => True) (fun s old ev h _ => h.turn ev) hstart
    ((slimprotoLoop f).along_true _ _)

end Reader

end SqueezeliteMuse.Slimproto
