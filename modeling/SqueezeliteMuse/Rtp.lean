/-
SqueezeliteMuse/Rtp.lean

The AirPlay receiver of rtp.c: audio packets go by their sequence number into a
ring of `BUFFER_FRAMES` slots, and come out of it in order, at the time the sync
and timing packets give them.

`ab_read` is the next position to play and `ab_write` the last one that has a
slot; what lies between them is the window.  `bufferPutPacket` finds where a
packet belongs and moves `ab_write`, `bufferPushPacket` moves `ab_read`.  Every
function that reads the time takes its readings from an argument `clock`, as
`data_cb` may block between any two of them.  `alac_decode` is the argument
`decode`.  Each event is one section under `ab_mutex`, or one packet of the
control or the timing socket.

What an observer sees is what becomes of each packet, and of each position that
`ab_read` leaves.
-/
import SqueezeliteMuse.Lib.Runs
import SqueezeliteMuse.Lib.Serial

namespace SqueezeliteMuse

open Serial

/-! ### The code -/

/-- `RAOP_SAMPLE_RATE` -/
def RAOP_SAMPLE_RATE : ℕ := 44100

/-- `BUFFER_FRAMES` -/
def BUFFER_FRAMES : ℕ := (150 * RAOP_SAMPLE_RATE * 2) / (352 * 100)

/-- `MIN_LATENCY` -/
def MIN_LATENCY : ℕ := 11025

/-- `MAX_LATENCY` -/
def MAX_LATENCY : ℕ := (120 * RAOP_SAMPLE_RATE * 2) / 100

/-- `RESEND_TO` -/
def RESEND_TO : BitVec 32 := 200

/-- `RTP_SYNC`, a bit of `synchro.status` -/
def RTP_SYNC : BitVec 8 := 1

/-- `NTP_SYNC`, the other bit -/
def NTP_SYNC : BitVec 8 := 2

/-- `seq_t` -/
abbrev Seq := BitVec 16

/-- `BUFIDX` -/
def bufIdx (seqno : Seq) : Fin BUFFER_FRAMES := ⟨seqno.toNat % BUFFER_FRAMES, Nat.mod_lt _ (by decide)⟩

/-- `seq_order`: the sequence numbers will wrap pretty often; true if the second
argument is after the first. -/
def seqOrder (a b : Seq) : Prop := 0 < (b - a).toInt

instance (a b : Seq) : Decidable (seqOrder a b) := inferInstanceAs (Decidable (0 < (b - a).toInt))

/-- `struct audio_buffer_entry`.  `len` is the length of `data`. -/
structure Abuf where
  ready : Bool
  rtptime : BitVec 32
  lastResend : BitVec 32
  data : List UInt8

/-- `struct rtp_s`, without the sockets and the decoder.  `flush_seqno` is `none`
where the source has -1. -/
structure Rtp where
  frameSize : BitVec 32
  inFrames : BitVec 32
  outFrames : BitVec 32
  timingLocal : BitVec 64
  timingRemote : BitVec 64
  synchroRtp : BitVec 32
  synchroTime : BitVec 32
  synchroStatus : BitVec 8
  recordTime : BitVec 32
  recordSeqno : Seq
  recordRtptime : BitVec 32
  latency : BitVec 32
  resentReq : BitVec 32
  resentRec : BitVec 32
  silentFrames : BitVec 32
  discarded : BitVec 32
  audioBuffer : Fin BUFFER_FRAMES → Abuf
  abRead : Seq
  abWrite : Seq
  flushSeqno : Option Seq
  playing : Bool

/-- What becomes of a position that `ab_read` leaves. -/
inductive Popped
  /-- the slot is passed to `data_cb` -/
  | frame (pcm : List UInt8) (playtime : BitVec 32)
  /-- so many bytes of `silence_frame` are -/
  | silence (len playtime : BitVec 32)
  /-- nothing is, it is too late -/
  | discarded
  deriving DecidableEq

/-- What can be seen of the receiver. -/
inductive RtpObs
  /-- `cmd_cb(RAOP_PLAY)`, for a first packet -/
  | play (seqno : Seq) (playtime : BitVec 32)
  /-- `cmd_cb(RAOP_TIMING)` -/
  | timing
  /-- a packet is decoded into its slot -/
  | stored (seqno : Seq) (pcm : List UInt8)
  /-- a packet is dropped: too late -/
  | late (seqno : Seq)
  /-- the position `seqno` is left, while `ab_write` is at `last` -/
  | pop (seqno last : Seq) (what : Popped)
  /-- the packets from `first` to `last` are asked for again -/
  | resend (first last : Seq)
  deriving DecidableEq

namespace Rtp

/-- A slot set anew. -/
def setSlot (c : Rtp) (k : Fin BUFFER_FRAMES) (abuf : Abuf) : Rtp :=
  { c with audioBuffer := fun i => if i = k then abuf else c.audioBuffer i }

/-- The local time at which the frame `rtptime` is played. -/
def playtime (c : Rtp) (rtptime : BitVec 32) : BitVec 32 :=
  c.synchroTime + ((rtptime - c.synchroRtp) * 10) / BitVec.ofNat 32 (RAOP_SAMPLE_RATE / 100)

/-- `rtp_request_resend`: do not request silly ranges.  `last - first` is an
`int`, negative across the wrap. -/
def requestResend (c : Rtp) (first last : Seq) : Rtp × List RtpObs :=
  if seqOrder last first ∨ (last.toNat : ℤ) - first.toNat > (BUFFER_FRAMES / 2 : ℕ) then (c, [])
  else
    ({ c with resentReq := c.resentReq + (last - first).setWidth 32 + 1 }, [.resend first last])

/-- `buffer_reset` -/
def bufferReset (c : Rtp) : Rtp :=
  { c with audioBuffer := fun k => { c.audioBuffer k with ready := false } }

/-- `rtp_flush` -/
def rtpFlush (c : Rtp) (seqno : Seq) (rtptime now : BitVec 32) : Rtp :=
  if now < c.recordTime + 250 ∨ (c.recordSeqno = seqno ∧ c.recordRtptime = rtptime) then c
  else { c.bufferReset with playing := false, flushSeqno := some seqno }

/-- `rtp_record` -/
def rtpRecord (c : Rtp) (seqno : Seq) (rtptime now : BitVec 32) : Rtp :=
  { c with recordSeqno := seqno, recordRtptime := rtptime, recordTime := now }

/-! The output side -/

/-- Leave the position `ab_read`. -/
def pop (c : Rtp) : Rtp := { c with abRead := c.abRead + 1, outFrames := c.outFrames + 1 }

/-- The slot at `ab_read`, no longer ready. -/
def unready (c : Rtp) : Rtp :=
  c.setSlot (bufIdx c.abRead) { c.audioBuffer (bufIdx c.abRead) with ready := false }

/-- One round of the loop of `buffer_push_packet`; `none` is its `break`. -/
def pushFrame (c : Rtp) (hold now : BitVec 32) : Option (Rtp × RtpObs) :=
  if c.playtime (c.audioBuffer (bufIdx c.abRead)).rtptime < now then
    some ({ c.unready.pop with discarded := c.discarded + 1 },
      .pop c.abRead c.abWrite .discarded)
  else if (c.audioBuffer (bufIdx c.abRead)).ready then
    -- passed at once, whether it is within `hold` or not
    some (c.unready.pop, .pop c.abRead c.abWrite (.frame (c.audioBuffer (bufIdx c.abRead)).data
      (c.playtime (c.audioBuffer (bufIdx c.abRead)).rtptime)))
  else if c.playtime (c.audioBuffer (bufIdx c.abRead)).rtptime - now ≤ hold then
    some ({ c.pop with silentFrames := c.silentFrames + 1 },
      .pop c.abRead c.abWrite (.silence (c.frameSize * 4)
        (c.playtime (c.audioBuffer (bufIdx c.abRead)).rtptime)))
  else none

/-- The loop of `buffer_push_packet`, a `do … while`; with the last reading of the clock. -/
def pushLoop (hold : BitVec 32) : ℕ → (ℕ → BitVec 32) → Rtp → Rtp × BitVec 32 × List RtpObs
  | 0, clock, c => (c, clock 0, [])
  | fuel + 1, clock, c =>
      match c.pushFrame hold (clock 0) with
      | none => (c, clock 0, [])
      | some (c', o) =>
          if seqOrder c'.abRead c'.abWrite then
            ((pushLoop hold fuel (fun i => clock (i + 1)) c').1,
              (pushLoop hold fuel (fun i => clock (i + 1)) c').2.1,
              o :: (pushLoop hold fuel (fun i => clock (i + 1)) c').2.2)
          else (c', clock 0, [o])

/-- A slot asked for again. -/
def resendSlot (c : Rtp) (seqno : Seq) (now : BitVec 32) : Rtp × List RtpObs :=
  if (c.audioBuffer (bufIdx seqno)).ready = false ∧
      now - (c.audioBuffer (bufIdx seqno)).lastResend > RESEND_TO then
    ((c.requestResend seqno seqno).1.setSlot (bufIdx seqno)
        { c.audioBuffer (bufIdx seqno) with lastResend := now },
      (c.requestResend seqno seqno).2)
  else (c, [])

/-- The second loop of `buffer_push_packet`: each missing packet will be requested up to
(latency_frames / 16) times. -/
def resendLoop (now : BitVec 32) : ℕ → Seq → Rtp → Rtp × List RtpObs
  | 0, _, c => (c, [])
  | fuel + 1, i, c =>
      if seqOrder (c.abRead + i) c.abWrite then
        ((resendLoop now fuel (i + 16) (c.resendSlot (c.abRead + i) now).1).1,
          (c.resendSlot (c.abRead + i) now).2 ++
            (resendLoop now fuel (i + 16) (c.resendSlot (c.abRead + i) now).1).2)
      else (c, [])

/-- `hold`.  The product does not overflow, as `latency` is at most `MAX_LATENCY` when it is used. -/
def hold (c : Rtp) : BitVec 32 :=
  BitVec.ofInt 32 (max ((c.latency.toInt * 1000).tdiv (8 * RAOP_SAMPLE_RATE)) 100)

/-- `if (ctx->out_frames > 1000)` -/
def countOut (c : Rtp) : Rtp := if c.outFrames > 1000 then { c with outFrames := 0 } else c

/-- `buffer_push_packet`.  The first loop takes 2^15 rounds at most, and the second 2^11. -/
def bufferPushPacket (c : Rtp) (clock : ℕ → BitVec 32) : Rtp × List RtpObs :=
  if c.playing = false ∨ c.synchroStatus ≠ RTP_SYNC ||| NTP_SYNC then (c, [])
  else
    let pushed := pushLoop c.hold 32769 clock c
    ((resendLoop pushed.2.1 2048 0 pushed.1.countOut).1,
      pushed.2.2 ++ (resendLoop pushed.2.1 2048 0 pushed.1.countOut).2)

/-! The input side -/

/-- The branches of `buffer_put_packet`. -/
inductive Arrival
  | expected | newer | recovered | late
  deriving DecidableEq

/-- The branch that a packet takes. -/
def arrival (c : Rtp) (seqno : Seq) : Arrival :=
  if seqno = c.abWrite + 1 then .expected
  else if seqOrder c.abWrite seqno then .newer
  else if seqOrder c.abRead (seqno + 1) then .recovered
  else .late

/-- `latency / frame_size`, as the `seq_t` it is used as.  (A `frame_size` of 0 has no
meaning in the source.) -/
def latencyFrames (c : Rtp) : Seq := (c.latency / c.frameSize).setWidth 16

/-- Too many missing frames: only get rtp latency-1 frames back (last one is seqno). -/
def cutGap (c : Rtp) (seqno : Seq) : Rtp :=
  if c.latency ≠ 0 ∧ seqOrder c.latencyFrames (seqno - c.abWrite - 1) then
    { c with abWrite := seqno - c.latencyFrames }
  else c

/-- The loop that adjusts the timing of gaps.  `seqno - i` is an `int`, negative across the
wrap. -/
def fillGap (seqno : Seq) (rtptime now : BitVec 32) : ℕ → Seq → Rtp → Rtp
  | 0, _, c => c
  | fuel + 1, i, c =>
      if seqOrder i seqno then
        fillGap seqno rtptime now fuel (i + 1) (c.setSlot (bufIdx i)
          { c.audioBuffer (bufIdx i) with
            rtptime := rtptime - BitVec.ofInt 32 ((seqno.toNat : ℤ) - i.toNat) * c.frameSize
            lastResend := now })
      else c

/-- The branch for a packet newer than expected: request re-send of the gap, and adjust its
timing.  The loop takes 2^15 rounds at most. -/
def placeNewer (c : Rtp) (seqno : Seq) (rtptime now : BitVec 32) : Rtp × List RtpObs :=
  let asked := (c.cutGap seqno).requestResend ((c.cutGap seqno).abWrite + 1) (seqno - 1)
  ({ fillGap seqno rtptime now 32768 ((c.cutGap seqno).abWrite + 1) asked.1 with
      abWrite := seqno },
    asked.2)

/-- The four branches. -/
def place (c : Rtp) (seqno : Seq) (rtptime now : BitVec 32) : Rtp × List RtpObs :=
  match c.arrival seqno with
  | .expected => ({ c with abWrite := seqno }, [])
  | .newer => c.placeNewer seqno rtptime now
  | .recovered => ({ c with resentRec := c.resentRec + 1 }, [])
  | .late => (c, [.late seqno])

/-- `if (ctx->in_frames++ > 1000)` -/
def countIn (c : Rtp) : Rtp :=
  { c with inFrames := if c.inFrames > 1000 then 0 else c.inFrames + 1 }

/-- A packet decoded into its slot. -/
def store (c : Rtp) (seqno : Seq) (rtptime : BitVec 32) (pcm : List UInt8) : Rtp :=
  c.setSlot (bufIdx seqno)
    { c.audioBuffer (bufIdx seqno) with ready := true, rtptime := rtptime, data := pcm }

/-- `buffer_put_packet` from the four branches on.  The first reading of the clock is the one
for the gap. -/
def receive (c : Rtp) (seqno : Seq) (rtptime : BitVec 32) (pcm : List UInt8)
    (clock : ℕ → BitVec 32) : Rtp × List RtpObs :=
  let placed := c.place seqno rtptime (clock 0)
  if c.arrival seqno = .late then (placed.1.countIn, placed.2)
  else
    let pushed := (placed.1.countIn.store seqno rtptime pcm).bufferPushPacket fun i => clock (i + 1)
    (pushed.1, placed.2 ++ .stored seqno pcm :: pushed.2)

/-- A first packet is only taken after a flush that it follows, and once both clocks are known. -/
def canStart (c : Rtp) (seqno : Seq) : Bool :=
  (match c.flushSeqno with
    | none => true
    | some flush => seqOrder flush seqno) &&
  (c.synchroStatus &&& RTP_SYNC != 0) && (c.synchroStatus &&& NTP_SYNC != 0)

/-- Playback starts at `seqno`. -/
def startAt (c : Rtp) (seqno : Seq) : Rtp :=
  { c with
    abWrite := seqno - 1
    abRead := seqno
    flushSeqno := none
    playing := true
    resentReq := 0
    resentRec := 0
    silentFrames := 0
    discarded := 0 }

/-- `buffer_put_packet`.  Its argument `first` is not used. -/
def bufferPutPacket (c : Rtp) (seqno : Seq) (rtptime : BitVec 32) (pcm : List UInt8)
    (clock : ℕ → BitVec 32) : Rtp × List RtpObs :=
  if c.playing then c.receive seqno rtptime pcm clock
  else if c.canStart seqno then
    (((c.startAt seqno).receive seqno rtptime pcm clock).1,
      .play seqno (c.playtime rtptime) :: ((c.startAt seqno).receive seqno rtptime pcm clock).2)
  else (c, [])

/-! The control and timing sockets -/

/-- `NTP2MS`, as the `u32_t` it is used as -/
def ntp2ms (ntp : BitVec 64) : BitVec 32 := (((ntp >>> 10) * 1000) >>> 22).setWidth 32

/-- The latency a sync packet gives, within its bounds, with the magic 11025. -/
def syncLatency (rtpNowLatency rtpNow : BitVec 32) (flags : BitVec 16) : BitVec 32 :=
  let latency := rtpNow - rtpNowLatency + if flags = 7 ∨ flags = 4 then 11025 else 0
  if latency.toInt < MIN_LATENCY then BitVec.ofNat 32 MIN_LATENCY
  else if latency.toInt > MAX_LATENCY then BitVec.ofNat 32 MAX_LATENCY
  else latency

/-- A sync packet.  Requests for timing packets are left out. -/
def syncPacket (c : Rtp) (rtpNowLatency : BitVec 32) (remote : BitVec 64) (rtpNow : BitVec 32)
    (flags : BitVec 16) : Rtp × List RtpObs :=
  if ntp2ms (remote - c.timingRemote) > 10000 then (c, [])
  else
    ({ c with
        latency := syncLatency rtpNowLatency rtpNow flags
        synchroRtp := rtpNow - syncLatency rtpNowLatency rtpNow flags
        synchroTime := (c.timingLocal + (ntp2ms (remote - c.timingRemote)).setWidth 64).setWidth 32
        synchroStatus := c.synchroStatus ||| RTP_SYNC },
      if c.synchroStatus &&& NTP_SYNC ≠ 0 then [.timing] else [])

/-- An NTP timing packet. -/
def timingPacket (c : Rtp) (reference : BitVec 32) (remote : BitVec 64) (now : BitVec 32) : Rtp :=
  if now - reference > 100 then c
  else
    { c with
      timingRemote := remote
      timingLocal := reference.setWidth 64
      synchroStatus := c.synchroStatus ||| NTP_SYNC }

end Rtp

/-- `rtp_init` -/
def rtpInit (latency frameSize : BitVec 32) : Rtp where
  frameSize := frameSize
  inFrames := 0
  outFrames := 0
  timingLocal := 0
  timingRemote := 0
  synchroRtp := 0
  synchroTime := 0
  synchroStatus := 0
  recordTime := 0
  recordSeqno := 0
  recordRtptime := 0
  latency := latency
  resentReq := 0
  resentRec := 0
  silentFrames := 0
  discarded := 0
  audioBuffer := fun _ => ⟨false, 0, 0, []⟩
  abRead := 0
  abWrite := 0
  flushSeqno := none
  playing := false

/-- What happens to the receiver: a data packet (of either type), FLUSH and RECORD of the
session, and the packets of the other two sockets. -/
inductive RtpEvent
  | packet (seqno : Seq) (rtptime : BitVec 32) (data : List UInt8) (clock : ℕ → BitVec 32)
  | flush (seqno : Seq) (rtptime now : BitVec 32)
  | record (seqno : Seq) (rtptime now : BitVec 32)
  | sync (rtpNowLatency : BitVec 32) (remote : BitVec 64) (rtpNow : BitVec 32) (flags : BitVec 16)
  | timing (reference : BitVec 32) (remote : BitVec 64) (now : BitVec 32)

/-- One event. -/
def rtpStep (decode : List UInt8 → List UInt8) (c : Rtp) : RtpEvent → Rtp × List RtpObs
  | .packet seqno rtptime data clock => c.bufferPutPacket seqno rtptime (decode data) clock
  | .flush seqno rtptime now => (c.rtpFlush seqno rtptime now, [])
  | .record seqno rtptime now => (c.rtpRecord seqno rtptime now, [])
  | .sync rtpNowLatency remote rtpNow flags => c.syncPacket rtpNowLatency remote rtpNow flags
  | .timing reference remote now => (c.timingPacket reference remote now, [])

/-- The receiver. -/
def rtpMachine (decode : List UInt8 → List UInt8) : Runs.Machine Rtp RtpEvent RtpObs where
  step := rtpStep decode

/-- What gives a receiver both clocks and a latency of 11025: with packets of 352 frames,
packet `n` is played at 1000 ms and 8 ms for each packet before it. -/
def synced : List RtpEvent := [.timing 0 0 0, .sync 0 (1 <<< 32) 11025 0]

/-- Packet `n`, at time 0. -/
def numbered (n : ℕ) : RtpEvent :=
  .packet (BitVec.ofNat 16 n) (BitVec.ofNat 32 (352 * n)) [UInt8.ofNat n] fun _ => 0

/-! ### The order of sequence numbers -/

theorem seqOrder_iff {a b : Seq} : seqOrder a b ↔ 0 < ahead a b ∧ ahead a b < 32768 := by
  have h := before_iff (a := a) (b := b)
  rw [show (2 : ℕ) ^ 16 = 65536 from rfl] at h
  show Before a b ↔ _
  rw [h]
  omega

/-- A position that `b` is after stays before it when we go back by `k`. -/
theorem ahead_of_seqOrder_add {a b k : Seq} (hk : k.toNat ≤ 32768) (h : seqOrder (a + k) b) :
    ahead a b = ahead (a + k) b + k.toNat := by
  have hlt := (seqOrder_iff.mp h).2
  have hstep := ahead_add_self a k
  rw [ahead_add (b := a + k) (by omega), hstep, Nat.add_comm]

theorem ahead_of_seqOrder_succ {a b : Seq} (h : seqOrder (a + 1) b) :
    ahead a b = ahead (a + 1) b + 1 :=
  ahead_of_seqOrder_add (by decide) h

/-- The position before one that is ahead. -/
theorem ahead_pred {a b : Seq} (h : 0 < ahead a (b + 1)) : ahead a b + 1 = ahead a (b + 1) := by
  simp only [ahead] at *
  bv_omega

namespace Rtp

variable {c c' : Rtp} {seqno : Seq} {rtptime now hold : BitVec 32} {clock : ℕ → BitVec 32}

/-! ### The loops end -/

/-- What one round leaves, and what it lets be seen. -/
theorem pushFrame_pops {o : RtpObs} (h : c.pushFrame hold now = some (c', o)) :
    c'.abRead = c.abRead + 1 ∧ c'.abWrite = c.abWrite ∧ c'.playing = c.playing ∧
      ∃ what, o = .pop c.abRead c.abWrite what := by
  unfold pushFrame at h
  split at h
  · cases h; exact ⟨rfl, rfl, rfl, _, rfl⟩
  split at h
  · cases h; exact ⟨rfl, rfl, rfl, _, rfl⟩
  split at h
  · cases h; exact ⟨rfl, rfl, rfl, _, rfl⟩
  · cases h

theorem pushLoop_more {n m : ℕ} (hnm : n < m)
    (hn : seqOrder (c.abRead + 1) c.abWrite → ahead c.abRead c.abWrite ≤ n) :
    pushLoop hold m clock c = pushLoop hold (n + 1) clock c := by
  induction n generalizing m clock c with
  | zero =>
      obtain ⟨m, rfl⟩ := Nat.exists_eq_add_of_lt hnm
      simp only [Nat.zero_add, pushLoop]
      rcases hp : c.pushFrame hold (clock 0) with - | ⟨c', o⟩
      · rfl
      · obtain ⟨hr, hw, -, -⟩ := pushFrame_pops hp
        have hstop : ¬ seqOrder c'.abRead c'.abWrite := by
          rw [hr, hw]
          intro h
          have := ahead_of_seqOrder_succ h
          have := hn h
          omega
        simp only [if_neg hstop]
  | succ n ih =>
      obtain ⟨m, rfl⟩ := Nat.exists_eq_add_of_lt hnm
      rw [show n + 1 + m + 1 = (n + 1 + m) + 1 from rfl, pushLoop, pushLoop]
      rcases hp : c.pushFrame hold (clock 0) with - | ⟨c', o⟩
      · rfl
      · obtain ⟨hr, hw, -, -⟩ := pushFrame_pops hp
        have hnext : seqOrder c'.abRead c'.abWrite → ahead c'.abRead c'.abWrite ≤ n := by
          rw [hr, hw]
          intro h
          have := ahead_of_seqOrder_succ h
          have := hn h
          omega
        by_cases hgo : seqOrder c'.abRead c'.abWrite
        · have hrec : ∀ clock, pushLoop hold (n + 1 + m) clock c' = pushLoop hold (n + 1) clock c' :=
            fun _ => ih (by omega) fun _ => hnext hgo
          simp only [if_pos hgo, hrec]
        · simp only [if_neg hgo]

/-- The first loop of `buffer_push_packet` ends by itself. -/
theorem pushLoop_ends {fuel : ℕ} (h : 32769 ≤ fuel) :
    pushLoop hold fuel clock c = pushLoop hold 32769 clock c := by
  apply pushLoop_more h
  intro hgo
  have := ahead_of_seqOrder_succ hgo
  have := (seqOrder_iff.mp hgo).2
  omega

theorem fillGap_more {n m : ℕ} {i : Seq} (hnm : n ≤ m)
    (hn : seqOrder i seqno → ahead i seqno ≤ n) :
    fillGap seqno rtptime now m i c = fillGap seqno rtptime now n i c := by
  induction n generalizing m i c with
  | zero =>
      have hstop : ¬ seqOrder i seqno := by
        intro h
        have := (seqOrder_iff.mp h).1
        have := hn h
        omega
      cases m with
      | zero => rfl
      | succ m => simp only [fillGap, if_neg hstop]
  | succ n ih =>
      obtain ⟨m, rfl⟩ : ∃ k, m = k + 1 := ⟨m - 1, by omega⟩
      rw [fillGap, fillGap]
      split
      · rename_i hi
        apply ih (by omega)
        intro h
        have := ahead_of_seqOrder_succ h
        have := hn hi
        omega
      · rfl

/-- The loop over a gap ends by itself. -/
theorem fillGap_ends {fuel : ℕ} {i : Seq} (h : 32768 ≤ fuel) :
    fillGap seqno rtptime now fuel i c = fillGap seqno rtptime now 32768 i c :=
  fillGap_more h fun hi => Nat.le_of_lt (seqOrder_iff.mp hi).2

/-! ### What the parts leave alone -/

/-- Two states with the same window: the same counters, and the same slots but for their
timing. -/
structure Same (c c' : Rtp) : Prop where
  playing : c'.playing = c.playing
  abRead : c'.abRead = c.abRead
  abWrite : c'.abWrite = c.abWrite
  ready : ∀ k, (c'.audioBuffer k).ready = (c.audioBuffer k).ready
  data : ∀ k, (c'.audioBuffer k).data = (c.audioBuffer k).data

theorem Same.refl (c : Rtp) : Same c c := ⟨rfl, rfl, rfl, fun _ => rfl, fun _ => rfl⟩

theorem Same.trans {c₁ c₂ c₃ : Rtp} (h : Same c₁ c₂) (h' : Same c₂ c₃) : Same c₁ c₃ where
  playing := h'.playing.trans h.playing
  abRead := h'.abRead.trans h.abRead
  abWrite := h'.abWrite.trans h.abWrite
  ready := fun k => (h'.ready k).trans (h.ready k)
  data := fun k => (h'.data k).trans (h.data k)

/-- A slot may change its timing. -/
theorem same_setSlot {k : Fin BUFFER_FRAMES} {abuf : Abuf}
    (hready : abuf.ready = (c.audioBuffer k).ready) (hdata : abuf.data = (c.audioBuffer k).data) :
    Same c (c.setSlot k abuf) where
  playing := rfl
  abRead := rfl
  abWrite := rfl
  ready := by
    intro i
    show (if i = k then abuf else c.audioBuffer i).ready = _
    split
    · rename_i h; rw [h, hready]
    · rfl
  data := by
    intro i
    show (if i = k then abuf else c.audioBuffer i).data = _
    split
    · rename_i h; rw [h, hdata]
    · rfl

theorem Same.withWrite (h : Same c c') (seqno : Seq) :
    Same { c with abWrite := seqno } { c' with abWrite := seqno } :=
  ⟨h.playing, h.abRead, rfl, h.ready, h.data⟩

variable (seqno rtptime) in
theorem Same.store (h : Same c c') (pcm : List UInt8) :
    Same (c.store seqno rtptime pcm) (c'.store seqno rtptime pcm) where
  playing := h.playing
  abRead := h.abRead
  abWrite := h.abWrite
  ready := by
    intro i
    simp only [Rtp.store, setSlot]
    split
    · rfl
    · exact h.ready i
  data := by
    intro i
    simp only [Rtp.store, setSlot]
    split
    · rfl
    · exact h.data i

theorem same_requestResend (c : Rtp) (first last : Seq) :
    Same c (c.requestResend first last).1 := by
  unfold requestResend
  split
  · exact Same.refl c
  · exact ⟨rfl, rfl, rfl, fun _ => rfl, fun _ => rfl⟩

variable (seqno rtptime now) in
theorem same_fillGap (n : ℕ) (i : Seq) (c : Rtp) :
    Same c (fillGap seqno rtptime now n i c) := by
  induction n generalizing i c with
  | zero => exact Same.refl c
  | succ n ih =>
      rw [fillGap]
      split
      · apply Same.trans _ (ih _ _)
        exact same_setSlot rfl rfl
      · exact Same.refl c

theorem same_countIn (c : Rtp) : Same c c.countIn := ⟨rfl, rfl, rfl, fun _ => rfl, fun _ => rfl⟩

theorem same_countOut (c : Rtp) : Same c c.countOut := by
  unfold countOut
  split
  · exact ⟨rfl, rfl, rfl, fun _ => rfl, fun _ => rfl⟩
  · exact Same.refl c

theorem same_resendSlot (c : Rtp) (i : Seq) (now : BitVec 32) :
    Same c (c.resendSlot i now).1 := by
  unfold resendSlot
  have h := same_requestResend c i i
  split
  · exact h.trans (same_setSlot (h.ready _).symm (h.data _).symm)
  · exact Same.refl c

theorem same_resendLoop (n : ℕ) (i : Seq) (c : Rtp) : Same c (resendLoop now n i c).1 := by
  induction n generalizing i c with
  | zero => exact Same.refl c
  | succ n ih =>
      rw [resendLoop]
      split
      · exact (same_resendSlot c _ now).trans (ih _ _)
      · exact Same.refl c

theorem resendLoop_more {n m : ℕ} {i : Seq} (hnm : n ≤ m)
    (hn : seqOrder (c.abRead + i) c.abWrite → ahead (c.abRead + i) c.abWrite ≤ 16 * n) :
    resendLoop now m i c = resendLoop now n i c := by
  induction n generalizing m i c with
  | zero =>
      have hstop : ¬ seqOrder (c.abRead + i) c.abWrite := by
        intro h
        have := (seqOrder_iff.mp h).1
        have := hn h
        omega
      cases m with
      | zero => rfl
      | succ m => simp only [resendLoop, if_neg hstop]
  | succ n ih =>
      obtain ⟨m, rfl⟩ : ∃ k, m = k + 1 := ⟨m - 1, by omega⟩
      rw [resendLoop, resendLoop]
      split
      · rename_i hi
        have hsame := same_resendSlot c (c.abRead + i) now
        rw [ih (m := m) (by omega)]
        rw [hsame.abRead, hsame.abWrite, ← BitVec.add_assoc]
        intro h
        have := ahead_of_seqOrder_add (k := 16) (by decide) h
        have : (16 : Seq).toNat = 16 := rfl
        have := hn hi
        omega
      · rfl

/-- The second loop of `buffer_push_packet` ends by itself. -/
theorem resendLoop_ends {fuel : ℕ} (h : 2048 ≤ fuel) :
    resendLoop now fuel 0 c = resendLoop now 2048 0 c := by
  apply resendLoop_more h
  intro hi
  have := (seqOrder_iff.mp hi).2
  omega

/-! ### Observers of the receiver

An observer that does not look at requests for re-send has two things to agree
with: packets that are stored or dropped, and positions that are left. -/

/-- `ab_read` is in the window. -/
def Populated (c : Rtp) : Prop := 0 ≤ (c.abWrite - c.abRead).toInt

theorem populated_iff : c.Populated ↔ ahead c.abRead c.abWrite < 32768 := by
  have h := toInt_sub_nonneg_iff (a := c.abRead) (b := c.abWrite)
  rw [show (2 : ℕ) ^ 16 = 65536 from rfl] at h
  show 0 ≤ (c.abWrite - c.abRead).toInt ↔ _
  rw [h]
  omega

/-- `ab_write` once a packet has its place. -/
def writeAfter (c : Rtp) (seqno : Seq) : Seq :=
  match c.arrival seqno with
  | .expected | .newer => seqno
  | .recovered | .late => c.abWrite

/-- The branches, while the window is less than half of the sequence space: where the packet
is, and how far the window goes once it has its place. -/
theorem arrival_cases (hshort : ahead c.abRead (c.abWrite + 1) < 32768) (seqno : Seq) :
    (c.arrival seqno = .expected ∧ c.writeAfter seqno = seqno ∧
      ahead c.abRead seqno = ahead c.abRead (c.abWrite + 1)) ∨
    (c.arrival seqno = .newer ∧ c.writeAfter seqno = seqno ∧
      ahead c.abRead (c.abWrite + 1) < ahead c.abRead seqno) ∨
    (c.arrival seqno = .recovered ∧ c.writeAfter seqno = c.abWrite ∧
      ahead c.abRead seqno < ahead c.abRead (c.abWrite + 1)) ∨
    (c.arrival seqno = .late ∧ 32767 ≤ ahead c.abRead seqno) := by
  unfold writeAfter arrival
  split
  · rename_i hexp
    exact .inl ⟨rfl, rfl, by rw [hexp]⟩
  rename_i hexp
  split
  · rename_i hnew
    rw [seqOrder_iff] at hnew
    refine .inr (.inl ⟨rfl, rfl, ?_⟩)
    simp only [ahead] at *
    bv_omega
  rename_i hnew
  rw [seqOrder_iff] at hnew
  split
  · rename_i hrec
    rw [seqOrder_iff] at hrec
    refine .inr (.inr (.inl ⟨rfl, rfl, ?_⟩))
    simp only [ahead] at *
    bv_omega
  · rename_i hrec
    rw [seqOrder_iff] at hrec
    refine .inr (.inr (.inr ⟨rfl, ?_⟩))
    simp only [ahead] at *
    bv_omega

theorem same_place (c : Rtp) (seqno : Seq) (rtptime now : BitVec 32) :
    Same { c with abWrite := c.writeAfter seqno } (c.place seqno rtptime now).1 := by
  unfold place writeAfter
  cases c.arrival seqno with
  | expected => exact Same.refl _
  | newer =>
      have hcut : { c.cutGap seqno with abWrite := seqno } = { c with abWrite := seqno } := by
        unfold cutGap
        split <;> rfl
      have hasked := same_requestResend (c.cutGap seqno) ((c.cutGap seqno).abWrite + 1) (seqno - 1)
      have hfill := hasked.trans (same_fillGap seqno rtptime now
        32768 ((c.cutGap seqno).abWrite + 1) _)
      show Same { c with abWrite := seqno } _
      rw [← hcut]
      exact hfill.withWrite seqno
  | recovered => exact ⟨rfl, rfl, rfl, fun _ => rfl, fun _ => rfl⟩
  | late => exact Same.refl _

variable {α : Type*} {δ : α → RtpObs → Option α} {R : Rtp → α → Prop} {a : α}

/-- The requests of the second loop pass by an observer that does not look at them. -/
theorem watch_resendLoop (hquiet : ∀ a first last, δ a (.resend first last) = some a)
    (n : ℕ) (i : Seq) (c : Rtp) (a : α) :
    Runs.watch δ a (resendLoop now n i c).2 = some a := by
  induction n generalizing i c with
  | zero => rfl
  | succ n ih =>
      rw [resendLoop]
      split
      · have hslot : Runs.watch δ a (c.resendSlot (c.abRead + i) now).2 = some a := by
          unfold resendSlot requestResend
          split
          · split
            · rfl
            · simp [hquiet]
          · rfl
        rw [Runs.watch_append, hslot, Option.bind_some]
        exact ih _ _
      · rfl

/-- So do those of a gap, and a packet that is not late is not seen before it is stored. -/
theorem watch_place (hquiet : ∀ a first last, δ a (.resend first last) = some a)
    (hlate : c.arrival seqno ≠ .late) :
    Runs.watch δ a (c.place seqno rtptime now).2 = some a := by
  unfold place
  cases harr : c.arrival seqno with
  | expected => rfl
  | newer =>
      show Runs.watch δ a ((c.cutGap seqno).requestResend _ _).2 = some a
      unfold requestResend
      split
      · rfl
      · simp [hquiet]
  | recovered => rfl
  | late => exact absurd harr hlate

variable (hold clock) in
/-- The first loop, for an observer that agrees to every position left. -/
theorem watch_pushLoop
    (hpop : ∀ c a c' o now, R c a → c.playing = true → c.Populated →
      c.pushFrame hold now = some (c', o) → ∃ a', δ a o = some a' ∧ R c' a')
    (fuel : ℕ) (h : R c a) (hplay : c.playing = true) (hpopulated : c.Populated) :
    ∃ a', Runs.watch δ a (pushLoop hold fuel clock c).2.2 = some a' ∧
      R (pushLoop hold fuel clock c).1 a' := by
  induction fuel generalizing c a clock with
  | zero => exact ⟨a, rfl, h⟩
  | succ fuel ih =>
      rw [pushLoop]
      rcases hp : c.pushFrame hold (clock 0) with - | ⟨c', o⟩
      · exact ⟨a, rfl, h⟩
      · obtain ⟨a₁, ho, h₁⟩ := hpop c a c' o (clock 0) h hplay hpopulated hp
        obtain ⟨-, -, hplay', -⟩ := pushFrame_pops hp
        by_cases hgo : seqOrder c'.abRead c'.abWrite
        · -- the test of the loop is what keeps the window populated
          have hpopulated' : c'.Populated := populated_iff.mpr (seqOrder_iff.mp hgo).2
          obtain ⟨a₂, hw, h₂⟩ := ih (fun i => clock (i + 1)) h₁ (hplay'.trans hplay)
            hpopulated'
          simp only [if_pos hgo]
          refine ⟨a₂, ?_, h₂⟩
          simp only [Runs.watch_cons, ho, Option.bind_some, hw]
        · simp only [if_neg hgo]
          refine ⟨a₁, ?_, h₁⟩
          simp only [Runs.watch_cons, ho, Option.bind_some, Runs.watch_nil]

variable (clock) in
theorem watch_bufferPushPacket
    (hquiet : ∀ a first last, δ a (.resend first last) = some a)
    (hsame : ∀ c c' a, Same c c' → R c a → R c' a)
    (hpop : ∀ c a c' o hold now, R c a → c.playing = true → c.Populated →
      c.pushFrame hold now = some (c', o) → ∃ a', δ a o = some a' ∧ R c' a')
    (h : R c a) (hpopulated : c.Populated) :
    ∃ a', Runs.watch δ a (c.bufferPushPacket clock).2 = some a' ∧
      R (c.bufferPushPacket clock).1 a' := by
  unfold bufferPushPacket
  split
  · exact ⟨a, rfl, h⟩
  · rename_i hgo
    have hplay : c.playing = true := by
      rw [not_or] at hgo
      exact (Bool.not_eq_false _).mp hgo.1
    obtain ⟨a', hw, h'⟩ := watch_pushLoop c.hold clock
      (fun c₁ a c' o now => hpop c₁ a c' o c.hold now) 32769 h hplay hpopulated
    refine ⟨a', ?_, ?_⟩
    · simp only [Runs.watch_append, hw, Option.bind_some]
      exact watch_resendLoop hquiet _ _ _ _
    · exact hsame _ _ _ ((same_countOut _).trans (same_resendLoop _ _ _)) h'

/-- `buffer_put_packet` from the four branches on, for an observer that agrees to what becomes
of the packet. -/
theorem watch_receive {pcm : List UInt8}
    (hquiet : ∀ a first last, δ a (.resend first last) = some a)
    (hsame : ∀ c c' a, Same c c' → R c a → R c' a)
    (hpop : ∀ c a c' o hold now, R c a → c.playing = true → c.Populated →
      c.pushFrame hold now = some (c', o) → ∃ a', δ a o = some a' ∧ R c' a')
    (hlate : c.arrival seqno = .late → δ a (.late seqno) = some a ∧ R c a)
    (hstore : c.arrival seqno ≠ .late →
      (ahead c.abRead (c.writeAfter seqno) < 32768) ∧
      ∃ a', δ a (.stored seqno pcm) = some a' ∧
        R ({ c with abWrite := c.writeAfter seqno }.store seqno rtptime pcm) a') :
    ∃ a', Runs.watch δ a (c.receive seqno rtptime pcm clock).2 = some a' ∧
      R (c.receive seqno rtptime pcm clock).1 a' := by
  have hplace := (same_place c seqno rtptime (clock 0)).trans (same_countIn _)
  unfold receive
  by_cases harr : c.arrival seqno = .late
  · obtain ⟨hobs, hR⟩ := hlate harr
    simp only [if_pos harr]
    refine ⟨a, ?_, ?_⟩
    · simp only [place, harr, Runs.watch_cons, hobs, Option.bind_some, Runs.watch_nil]
    · apply hsame c _ a _ hR
      simpa only [writeAfter, harr] using hplace
  · obtain ⟨hnear, a₁, hobs, hR⟩ := hstore harr
    have hput := hplace.store seqno rtptime pcm
    have hpopulated : ((c.place seqno rtptime (clock 0)).1.countIn.store seqno rtptime
        pcm).Populated := by
      rw [populated_iff, hput.abRead, hput.abWrite]
      exact hnear
    obtain ⟨a₂, hw, h₂⟩ := watch_bufferPushPacket (fun i => clock (i + 1)) hquiet hsame
      hpop (hsame _ _ _ hput hR) hpopulated
    simp only [if_neg harr]
    refine ⟨a₂, ?_, h₂⟩
    rw [Runs.watch_append, watch_place hquiet harr, Option.bind_some, Runs.watch_cons, hobs,
      Option.bind_some, hw]

end Rtp

end SqueezeliteMuse
