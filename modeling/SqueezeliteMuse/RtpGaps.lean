/-
SqueezeliteMuse/RtpGaps.lean

The timing of the positions that the AirPlay receiver decides on, and the packets it
asks for again.

The sender's packets are numbered on a line that does not wrap, and packet `n` has the
RTP time `base + frame_size * n`.  `Tracked` is the receiver with that line: the base
of the packet that started playback, the number of `ab_read`, and the packets that
have come in since.  A step is `Right` if each position is decided on with its own
time, requests name packets of the window that have not come in, and the packets of a
gap are asked for when it is found.

A slot serves every position that is the same modulo `BUFFER_FRAMES`, and the loop over
a gap sets its time.  It does not when the gap is cut, as `ab_write` is moved and what
it jumps over is left with older times; and it sets another one when the
sequence number wraps inside the gap, as `seqno-i` is an `int`.

Main result: `gaps_right`: every step is right in every run in which the packets fit
(`Tracked.Fits`).
-/
import SqueezeliteMuse.Rtp

namespace SqueezeliteMuse

open Serial

namespace Rtp

/-! ### The decisions of `buffer_push_packet` -/

/-- The positions of the first loop, each with the time of the slot that is looked at; the last one
may be waited for. -/
def pushDecisions (hold : BitVec 32) : ℕ → (ℕ → BitVec 32) → Rtp → List (Seq × BitVec 32)
  | 0, _, _ => []
  | fuel + 1, clock, c =>
      (c.abRead, (c.audioBuffer (bufIdx c.abRead)).rtptime) ::
        match c.pushFrame hold (clock 0) with
        | none => []
        | some (c', _) =>
            if seqOrder c'.abRead c'.abWrite then
              pushDecisions hold fuel (fun i => clock (i + 1)) c'
            else []

def bufferPushDecisions (c : Rtp) (clock : ℕ → BitVec 32) : List (Seq × BitVec 32) :=
  if c.playing = false ∨ c.synchroStatus ≠ RTP_SYNC ||| NTP_SYNC then []
  else pushDecisions c.hold 32769 clock c

def receiveDecisions (c : Rtp) (seqno : Seq) (rtptime : BitVec 32) (pcm : List UInt8)
    (clock : ℕ → BitVec 32) : List (Seq × BitVec 32) :=
  if c.arrival seqno = .late then []
  else
    ((c.place seqno rtptime (clock 0)).1.countIn.store seqno rtptime pcm).bufferPushDecisions
      fun i => clock (i + 1)

def putDecisions (c : Rtp) (seqno : Seq) (rtptime : BitVec 32) (pcm : List UInt8)
    (clock : ℕ → BitVec 32) : List (Seq × BitVec 32) :=
  if c.playing then c.receiveDecisions seqno rtptime pcm clock
  else if c.canStart seqno then (c.startAt seqno).receiveDecisions seqno rtptime pcm clock
  else []

/-- The decisions are those of the run that is watched: all but the last one are left. -/
theorem pushDecisions_pops (hold : BitVec 32) (fuel : ℕ) (clock : ℕ → BitVec 32) (c : Rtp) :
    ∃ rest, (pushDecisions hold fuel clock c).map (fun d => d.1) =
      ((pushLoop hold fuel clock c).2.2.filterMap fun
        | .pop seqno _ _ => some seqno
        | _ => none) ++ rest := by
  induction fuel generalizing clock c with
  | zero => exact ⟨[], rfl⟩
  | succ fuel ih =>
      rw [pushDecisions, pushLoop]
      rcases hp : c.pushFrame hold (clock 0) with - | ⟨c', o⟩
      · exact ⟨[c.abRead], rfl⟩
      · obtain ⟨-, -, -, what, rfl⟩ := pushFrame_pops hp
        by_cases hgo : seqOrder c'.abRead c'.abWrite
        · obtain ⟨rest, hrest⟩ := ih (fun i => clock (i + 1)) c'
          refine ⟨rest, ?_⟩
          simp only [if_pos hgo, List.map_cons, List.filterMap_cons, hrest, List.cons_append]
        · exact ⟨[], by simp [if_neg hgo]⟩

/-- The slot of the position `m`. -/
def slot (c : Rtp) (m : ℕ) : Abuf := c.audioBuffer (bufIdx (BitVec.ofNat 16 m))

/-- The first position behind the window, if `ab_read` is at `next`. -/
def fin (c : Rtp) (next : ℕ) : ℕ := next + ahead c.abRead (c.abWrite + 1)

end Rtp

/-! ### The sender's line -/

/-- The receiver, with the sender's line since playback started. -/
structure Tracked where
  rtp : Rtp
  base : BitVec 32
  next : ℕ
  received : ℕ → Bool

/-- What happens: the sender's packet `n`, of a line with this base, or something else. -/
inductive TrackedEvent
  | packet (n : ℕ) (base : BitVec 32) (data : List UInt8) (clock : ℕ → BitVec 32)
  | flush (seqno : Seq) (rtptime now : BitVec 32)
  | record (seqno : Seq) (rtptime now : BitVec 32)
  | sync (rtpNowLatency : BitVec 32) (remote : BitVec 64) (rtpNow : BitVec 32) (flags : BitVec 16)
  | timing (reference : BitVec 32) (remote : BitVec 64) (now : BitVec 32)

/-- The RTP time of packet `n`. -/
def lineTime (frameSize base : BitVec 32) (n : ℕ) : BitVec 32 := base + frameSize * BitVec.ofNat 32 n

/-- What the receiver gets. -/
def TrackedEvent.toRtp (frameSize : BitVec 32) : TrackedEvent → RtpEvent
  | .packet n base data clock =>
      .packet (BitVec.ofNat 16 n) (lineTime frameSize base n) data clock
  | .flush seqno rtptime now => .flush seqno rtptime now
  | .record seqno rtptime now => .record seqno rtptime now
  | .sync rtpNowLatency remote rtpNow flags => .sync rtpNowLatency remote rtpNow flags
  | .timing reference remote now => .timing reference remote now

/-- A position that is left. -/
def popWeight : RtpObs → ℕ
  | .pop _ _ _ => 1
  | _ => 0

def RtpObs.isStored : RtpObs → Bool
  | .stored _ _ => true
  | _ => false

namespace Tracked

variable (decode : List UInt8 → List UInt8)

/-- A packet that starts playback starts its line. -/
def begin (x : Tracked) : TrackedEvent → Tracked
  | .packet n base _ _ =>
      if x.rtp.playing = false ∧ x.rtp.canStart (BitVec.ofNat 16 n) = true then
        { x with base := base, next := n, received := fun _ => false }
      else x
  | _ => x

/-- Packet `n` has come in, and was stored. -/
def mark (x : Tracked) (log : List RtpObs) : TrackedEvent → ℕ → Bool
  | .packet n _ _ _, m => (m == n && log.any RtpObs.isStored) || x.received m
  | _, m => x.received m

def step (x : Tracked) (e : TrackedEvent) : Tracked × List RtpObs :=
  let after := rtpStep decode x.rtp (e.toRtp x.rtp.frameSize)
  ({ rtp := after.1
     base := (x.begin e).base
     next := (x.begin e).next + Runs.total popWeight after.2
     received := (x.begin e).mark after.2 e },
    after.2)

/-- The decisions of a step. -/
def decisions (x : Tracked) : TrackedEvent → List (Seq × BitVec 32)
  | .packet n base data clock =>
      x.rtp.putDecisions (BitVec.ofNat 16 n) (lineTime x.rtp.frameSize base n) (decode data) clock
  | _ => []

end Tracked

def trackedMachine (decode : List UInt8 → List UInt8) :
    Runs.Machine Tracked TrackedEvent RtpObs where
  step := Tracked.step decode

/-- Nothing has come in yet. -/
def trackedInit (latency frameSize : BitVec 32) : Tracked where
  rtp := rtpInit latency frameSize
  base := 0
  next := 0
  received := fun _ => false

/-! ### What is to be of a step -/

/-- The observer of requests, at the position `n`: a request names packets of the window, which ends
at `fin`, that have not come in. -/
def watchRequests (fin : ℕ) (received : ℕ → Bool) (n : ℕ) : RtpObs → Option ℕ
  | .pop _ _ _ => some (n + 1)
  | .resend first last =>
      let a := n + ahead (BitVec.ofNat 16 n) first
      if a + ahead first last < fin ∧ ∀ i ≤ ahead first last, received (a + i) = false then some n
      else none
  | _ => some n

/-- A step is right. -/
structure Right (decode : List UInt8 → List UInt8) (x : Tracked) (e : TrackedEvent) : Prop where
  /-- each position is decided on with its own time -/
  timed : ∀ k s t, (x.decisions decode e)[k]? = some (s, t) →
    s = BitVec.ofNat 16 ((x.begin e).next + k) ∧
      t = lineTime x.rtp.frameSize (x.begin e).base ((x.begin e).next + k)
  /-- requests name what is missing -/
  asked : Runs.watch (watchRequests ((x.step decode e).1.rtp.fin (x.step decode e).1.next)
      (x.step decode e).1.received) (x.begin e).next (x.step decode e).2 =
    some (x.step decode e).1.next
  /-- a gap is asked for, if it is not too long -/
  found : ∀ n base data clock, e = .packet n base data clock → x.rtp.playing = true →
    x.rtp.fin x.next < n → n - 1 - x.rtp.fin x.next ≤ BUFFER_FRAMES / 2 →
      .resend (BitVec.ofNat 16 (x.rtp.fin x.next)) (BitVec.ofNat 16 (n - 1)) ∈ (x.step decode e).2

namespace Tracked

/-- The sender keeps to its line until the receiver starts again. -/
def Sends (x : Tracked) : TrackedEvent → Prop
  | .packet _ base _ _ => x.rtp.playing = true → base = x.base
  | _ => True

/-- A packet that comes in while playing fits: one that is behind `ab_read` is found to be late; one
that is not is less than half of the sequence space ahead, a gap in front of it is neither cut nor
does the sequence number wrap in it, and no two positions up to it have one slot. -/
def Fits (x : Tracked) : TrackedEvent → Prop
  | .packet n _ _ _ =>
      x.rtp.playing = true →
        (n < x.next ∧ x.rtp.arrival (BitVec.ofNat 16 n) = .late) ∨
          (x.next ≤ n ∧ n < x.next + 32767 ∧
            (x.rtp.arrival (BitVec.ofNat 16 n) = .newer →
              ¬ (x.rtp.latency ≠ 0 ∧
                seqOrder x.rtp.latencyFrames (BitVec.ofNat 16 n - x.rtp.abWrite - 1)) ∧
              (x.rtp.abWrite + 1).toNat ≤ (BitVec.ofNat 16 n).toNat) ∧
            ∀ i < n + 1 - x.next, ∀ j < i,
              bufIdx (BitVec.ofNat 16 (x.next + j)) ≠ bufIdx (BitVec.ofNat 16 (x.next + i)))
  | _ => True

instance (x : Tracked) (e : TrackedEvent) : Decidable (x.Sends e) :=
  match e with
  | .packet .. => inferInstanceAs (Decidable (_ → _))
  | .flush .. | .record .. | .sync .. | .timing .. => .isTrue trivial

instance (x : Tracked) (e : TrackedEvent) : Decidable (x.Fits e) :=
  match e with
  | .packet .. => inferInstanceAs (Decidable (_ → _ ∧ _ ∨ _ ∧ _ ∧ _ ∧ _))
  | .flush .. | .record .. | .sync .. | .timing .. => .isTrue trivial

end Tracked

/-! ### The slots of the window -/

/-- While playing: `ab_read` is at `next`, the window is short, its positions have slots of their own
with their own times, and the packets that have come in are ready. -/
structure OnTime (c : Rtp) (base : BitVec 32) (next : ℕ) (received : ℕ → Bool) : Prop where
  read : c.abRead = BitVec.ofNat 16 next
  short : ahead c.abRead (c.abWrite + 1) < 32768
  timed : ∀ m, next ≤ m → m < c.fin next → (c.slot m).rtptime = lineTime c.frameSize base m
  ready : ∀ m, next ≤ m → m < c.fin next → received m = true → (c.slot m).ready = true
  bound : ∀ m, received m = true → m < c.fin next
  distinct : ∀ m m', next ≤ m → m < m' → m' < c.fin next →
    bufIdx (BitVec.ofNat 16 m) ≠ bufIdx (BitVec.ofNat 16 m')

/-- Two states of which the windows, and the slots, are the same but for the data. -/
structure KeptTimes (c c' : Rtp) : Prop where
  frameSize : c'.frameSize = c.frameSize
  abRead : c'.abRead = c.abRead
  abWrite : c'.abWrite = c.abWrite
  rtptime : ∀ k, (c'.audioBuffer k).rtptime = (c.audioBuffer k).rtptime
  ready : ∀ k, (c'.audioBuffer k).ready = (c.audioBuffer k).ready

namespace KeptTimes

variable {c c' c'' : Rtp}

theorem refl (c : Rtp) : KeptTimes c c := ⟨rfl, rfl, rfl, fun _ => rfl, fun _ => rfl⟩

theorem trans (h : KeptTimes c c') (h' : KeptTimes c' c'') : KeptTimes c c'' where
  frameSize := h'.frameSize.trans h.frameSize
  abRead := h'.abRead.trans h.abRead
  abWrite := h'.abWrite.trans h.abWrite
  rtptime k := (h'.rtptime k).trans (h.rtptime k)
  ready k := (h'.ready k).trans (h.ready k)

theorem setSlot {k : Fin BUFFER_FRAMES} {abuf : Abuf}
    (hrtptime : abuf.rtptime = (c.audioBuffer k).rtptime)
    (hready : abuf.ready = (c.audioBuffer k).ready) : KeptTimes c (c.setSlot k abuf) where
  frameSize := rfl
  abRead := rfl
  abWrite := rfl
  rtptime i := by
    show (if i = k then abuf else c.audioBuffer i).rtptime = _
    split
    · rename_i h
      rw [h, hrtptime]
    · rfl
  ready i := by
    show (if i = k then abuf else c.audioBuffer i).ready = _
    split
    · rename_i h
      rw [h, hready]
    · rfl

theorem requestResend (c : Rtp) (first last : Seq) : KeptTimes c (c.requestResend first last).1 := by
  rw [Rtp.requestResend]
  split
  · exact refl c
  · exact ⟨rfl, rfl, rfl, fun _ => rfl, fun _ => rfl⟩

theorem countIn (c : Rtp) : KeptTimes c c.countIn := ⟨rfl, rfl, rfl, fun _ => rfl, fun _ => rfl⟩

theorem countOut (c : Rtp) : KeptTimes c c.countOut := by
  rw [Rtp.countOut]
  split
  · exact ⟨rfl, rfl, rfl, fun _ => rfl, fun _ => rfl⟩
  · exact refl c

theorem resendSlot (c : Rtp) (seqno : Seq) (now : BitVec 32) : KeptTimes c (c.resendSlot seqno now).1 := by
  have h := requestResend c seqno seqno
  rw [Rtp.resendSlot]
  split
  · exact h.trans (setSlot (h.rtptime _).symm (h.ready _).symm)
  · exact refl c

theorem fin (h : KeptTimes c c') (next : ℕ) : c'.fin next = c.fin next := by
  rw [Rtp.fin, Rtp.fin, h.abRead, h.abWrite]

theorem onTime (h : KeptTimes c c') {base : BitVec 32} {next : ℕ} {received : ℕ → Bool}
    (hc : OnTime c base next received) : OnTime c' base next received where
  read := h.abRead.trans hc.read
  short := by
    rw [h.abRead, h.abWrite]
    exact hc.short
  timed m hm hlt := by
    rw [Rtp.slot, h.rtptime, h.frameSize]
    exact hc.timed m hm (h.fin next ▸ hlt)
  ready m hm hlt hr := by
    rw [Rtp.slot, h.ready]
    exact hc.ready m hm (h.fin next ▸ hlt) hr
  bound m hr := by
    rw [h.fin next]
    exact hc.bound m hr
  distinct m m' hm hlt hfin := hc.distinct m m' hm hlt (h.fin next ▸ hfin)

end KeptTimes

namespace OnTime

variable {c c' : Rtp} {base : BitVec 32} {next : ℕ} {received : ℕ → Bool}

theorem write_eq (h : OnTime c base next received) :
    c.abWrite + 1 = BitVec.ofNat 16 (c.fin next) := by
  rw [Rtp.fin, BitVec.ofNat_add, ← h.read, add_ahead]

theorem fin_lt (h : OnTime c base next received) : c.fin next < next + 32768 := by
  have hshort := h.short
  rw [Rtp.fin]
  omega

/-- `ab_read` is left. -/
theorem pop (h : OnTime c base next received) (hne : next < c.fin next) (c' : Rtp)
    (hframe : c'.frameSize = c.frameSize) (hread : c'.abRead = c.abRead + 1)
    (hwrite : c'.abWrite = c.abWrite)
    (hrtptime : ∀ k, (c'.audioBuffer k).rtptime = (c.audioBuffer k).rtptime)
    (hready : ∀ k, k ≠ bufIdx c.abRead → (c'.audioBuffer k).ready = (c.audioBuffer k).ready) :
    OnTime c' base (next + 1) received ∧ c'.fin (next + 1) = c.fin next := by
  have hshort := h.short
  have hpos : 0 < ahead c.abRead (c.abWrite + 1) := by
    rw [Rtp.fin] at hne
    omega
  have hahead : ahead c'.abRead (c'.abWrite + 1) = ahead c.abRead (c.abWrite + 1) - 1 := by
    rw [hread, hwrite, ahead_succ_left hpos]
  have hfin : c'.fin (next + 1) = c.fin next := by
    rw [Rtp.fin, Rtp.fin, hahead]
    omega
  refine ⟨⟨?_, ?_, fun m hm hlt => ?_, fun m hm hlt hr => ?_, fun m hr => ?_,
    fun m m' hm hlt hm' => ?_⟩, hfin⟩
  · rw [hread, h.read, BitVec.ofNat_add]
    rfl
  · rw [hahead]
    omega
  · rw [Rtp.slot, hrtptime, hframe]
    exact h.timed m (by omega) (hfin ▸ hlt)
  · have hother : bufIdx (BitVec.ofNat 16 m) ≠ bufIdx c.abRead := by
      rw [h.read]
      exact (h.distinct next m (Nat.le_refl _) hm (hfin ▸ hlt)).symm
    rw [Rtp.slot, hready _ hother]
    exact h.ready m (by omega) (hfin ▸ hlt) hr
  · rw [hfin]
    exact h.bound m hr
  · exact h.distinct m m' (by omega) hlt (hfin ▸ hm')

theorem pushFrame (h : OnTime c base next received) (hne : next < c.fin next) {hold now : BitVec 32}
    {o : RtpObs} (hf : c.pushFrame hold now = some (c', o)) :
    OnTime c' base (next + 1) received ∧ c'.fin (next + 1) = c.fin next ∧
      c'.frameSize = c.frameSize := by
  have hunready : ∀ k, (c.unready.audioBuffer k).rtptime = (c.audioBuffer k).rtptime ∧
      (k ≠ bufIdx c.abRead → (c.unready.audioBuffer k).ready = (c.audioBuffer k).ready) := by
    intro k
    show (if k = bufIdx c.abRead then _ else c.audioBuffer k).rtptime = _ ∧
      (_ → (if k = bufIdx c.abRead then _ else c.audioBuffer k).ready = _)
    split
    · rename_i hk
      exact ⟨by rw [hk], fun hno => absurd hk hno⟩
    · exact ⟨rfl, fun _ => rfl⟩
  rw [Rtp.pushFrame] at hf
  split at hf
  · cases hf
    obtain ⟨hc', hfin⟩ := h.pop hne { c.unready.pop with discarded := c.discarded + 1 }
      rfl rfl rfl (fun k => (hunready k).1) (fun k => (hunready k).2)
    exact ⟨hc', hfin, rfl⟩
  split at hf
  · cases hf
    obtain ⟨hc', hfin⟩ := h.pop hne c.unready.pop
      rfl rfl rfl (fun k => (hunready k).1) (fun k => (hunready k).2)
    exact ⟨hc', hfin, rfl⟩
  split at hf
  · cases hf
    obtain ⟨hc', hfin⟩ := h.pop hne { c.pop with silentFrames := c.silentFrames + 1 }
      rfl rfl rfl (fun _ => rfl) (fun _ _ => rfl)
    exact ⟨hc', hfin, rfl⟩
  · cases hf

/-- The first loop decides on each position with its own time, and asks for nothing. -/
theorem pushLoop (h : OnTime c base next received) (hne : next < c.fin next) (hold : BitVec 32)
    (fuel : ℕ) (clock : ℕ → BitVec 32) :
    ∃ next', OnTime (Rtp.pushLoop hold fuel clock c).1 base next' received ∧
      (Rtp.pushLoop hold fuel clock c).1.fin next' = c.fin next ∧
      (Rtp.pushLoop hold fuel clock c).1.frameSize = c.frameSize ∧
      next' = next + Runs.total popWeight (Rtp.pushLoop hold fuel clock c).2.2 ∧
      (∀ last marks, Runs.watch (watchRequests last marks) next
        (Rtp.pushLoop hold fuel clock c).2.2 = some next') ∧
      ∀ k s t, (Rtp.pushDecisions hold fuel clock c)[k]? = some (s, t) →
        s = BitVec.ofNat 16 (next + k) ∧ t = lineTime c.frameSize base (next + k) := by
  induction fuel generalizing clock c next with
  | zero => exact ⟨next, h, rfl, rfl, rfl, fun _ _ => rfl, fun k s t hk => (nomatch hk)⟩
  | succ fuel ih =>
      have hhead : c.abRead = BitVec.ofNat 16 next ∧
          (c.audioBuffer (bufIdx c.abRead)).rtptime = lineTime c.frameSize base next := by
        refine ⟨h.read, ?_⟩
        rw [h.read]
        exact h.timed next (Nat.le_refl _) hne
      rw [Rtp.pushLoop, Rtp.pushDecisions]
      rcases hp : c.pushFrame hold (clock 0) with - | ⟨c', o⟩
      · refine ⟨next, h, rfl, rfl, rfl, fun _ _ => rfl, fun k s t hk => ?_⟩
        rcases k with - | k
        · cases hk
          exact hhead
        · cases hk
      · obtain ⟨hc', hfin, hframe⟩ := h.pushFrame hne hp
        obtain ⟨-, -, -, what, rfl⟩ := Rtp.pushFrame_pops hp
        by_cases hgo : seqOrder c'.abRead c'.abWrite
        · have hne' : next + 1 < c'.fin (next + 1) := by
            have hsucc : ahead c'.abRead (c'.abWrite + 1) = ahead c'.abRead c'.abWrite + 1 :=
              ahead_succ_right (by have := (seqOrder_iff.mp hgo).2; omega)
            rw [Rtp.fin, hsucc]
            omega
          obtain ⟨next', hc₂, hfin₂, hframe₂, hnext, hwatch, htimed⟩ :=
            ih hc' hne' fun i => clock (i + 1)
          simp only [if_pos hgo]
          refine ⟨next', hc₂, hfin₂.trans hfin, hframe₂.trans hframe, ?_, fun last marks => ?_,
            fun k s t hk => ?_⟩
          · rw [Runs.total_cons, hnext]
            show _ = next + (1 + _)
            omega
          · exact hwatch last marks
          · rcases k with - | k
            · cases hk
              exact hhead
            · have hrest := htimed k s t hk
              rw [hframe, show next + 1 + k = next + (k + 1) by omega] at hrest
              exact hrest
        · simp only [if_neg hgo]
          refine ⟨next + 1, hc', hfin, hframe, rfl, fun _ _ => rfl, fun k s t hk => ?_⟩
          rcases k with - | k
          · cases hk
            exact hhead
          · cases hk

/-- A position that the second loop looks at is in the window. -/
theorem lt_of_seqOrder_add {i : Seq} (hi : i.toNat ≤ ahead c.abRead c.abWrite + 16)
    (hin : seqOrder (c.abRead + i) c.abWrite) : i.toNat < ahead c.abRead c.abWrite := by
  rw [seqOrder_iff] at hin
  simp only [ahead] at *
  bv_omega

theorem resendSlot (h : OnTime c base next received) (now : BitVec 32) {i : Seq}
    (hi : next + i.toNat < c.fin next) :
    Runs.total popWeight (c.resendSlot (c.abRead + i) now).2 = 0 ∧
      Runs.watch (watchRequests (c.fin next) received) next (c.resendSlot (c.abRead + i) now).2 =
        some next := by
  have hslot : c.abRead + i = BitVec.ofNat 16 (next + i.toNat) := by
    rw [BitVec.ofNat_add, ← h.read, BitVec.ofNat_toNat, BitVec.setWidth_eq]
  rw [Rtp.resendSlot]
  split
  · rename_i hmissing
    have hno : received (next + i.toNat) = false := by
      by_contra hr
      have hready := h.ready _ (Nat.le_add_right ..) hi ((Bool.not_eq_false _).mp hr)
      rw [Rtp.slot, ← hslot, hmissing.1] at hready
      cases hready
    have hone : (c.requestResend (c.abRead + i) (c.abRead + i)).2 =
        [.resend (c.abRead + i) (c.abRead + i)] := by
      rw [Rtp.requestResend, if_neg]
      rw [seqOrder_iff, ahead_self, Int.sub_self]
      omega
    rw [hone]
    refine ⟨rfl, ?_⟩
    have hplace : next + ahead (BitVec.ofNat 16 next) (c.abRead + i) = next + i.toNat := by
      rw [h.read, ahead_add_self]
    rw [Runs.watch_cons, watchRequests]
    simp only [hplace, ahead_self, Nat.add_zero]
    rw [if_pos ⟨hi, fun j hj => by rw [Nat.le_zero.mp hj, Nat.add_zero]; exact hno⟩]
    rfl
  · exact ⟨rfl, rfl⟩

/-- The second loop asks for packets of the window that have not come in. -/
theorem resendLoop (h : OnTime c base next received) (hne : next < c.fin next) (now : BitVec 32)
    (fuel : ℕ) {i : Seq} (hi : i.toNat ≤ ahead c.abRead c.abWrite + 16) :
    KeptTimes c (Rtp.resendLoop now fuel i c).1 ∧
      Runs.total popWeight (Rtp.resendLoop now fuel i c).2 = 0 ∧
      Runs.watch (watchRequests (c.fin next) received) next (Rtp.resendLoop now fuel i c).2 =
        some next := by
  induction fuel generalizing c i with
  | zero => exact ⟨.refl c, rfl, rfl⟩
  | succ fuel ih =>
      rw [Rtp.resendLoop]
      split
      · rename_i hin
        have hshort := h.short
        have hlt := lt_of_seqOrder_add hi hin
        have hpred : ahead c.abRead c.abWrite + 1 = ahead c.abRead (c.abWrite + 1) :=
          ahead_pred (by rw [Rtp.fin] at hne; omega)
        have hkept := KeptTimes.resendSlot c (c.abRead + i) now
        obtain ⟨hzero, hwatch⟩ := h.resendSlot now (i := i) (by rw [Rtp.fin]; omega)
        have hnext : (i + 16).toNat = i.toNat + 16 := by
          rw [BitVec.toNat_add]
          exact Nat.mod_eq_of_lt (by show i.toNat + 16 < 65536; omega)
        obtain ⟨hkept', hzero', hwatch'⟩ := ih (hkept.onTime h) (by rw [hkept.fin]; exact hne)
          (i := i + 16) (by rw [hkept.abRead, hkept.abWrite]; omega)
        refine ⟨hkept.trans hkept', ?_, ?_⟩
        · rw [Runs.total_append, hzero, hzero']
        · rw [Runs.watch_append, hwatch, Option.bind_some]
          rw [hkept.fin] at hwatch'
          exact hwatch'
      · exact ⟨.refl c, rfl, rfl⟩

/-- A window of no position has nothing to ask for. -/
theorem resendLoop_empty (hne : ¬ next < c.fin next) (now : BitVec 32) (fuel : ℕ) : Rtp.resendLoop now fuel 0 c = (c, []) := by
  cases fuel with
  | zero => rfl
  | succ fuel =>
      rw [Rtp.resendLoop, if_neg]
      show ¬ seqOrder (c.abRead + 0#16) c.abWrite
      rw [BitVec.add_zero, seqOrder_iff]
      rw [Rtp.fin] at hne
      simp only [ahead] at *
      bv_omega

theorem bufferPushPacket (h : OnTime c base next received) (hne : next < c.fin next)
    (clock : ℕ → BitVec 32) :
    ∃ next', OnTime (c.bufferPushPacket clock).1 base next' received ∧
      (c.bufferPushPacket clock).1.fin next' = c.fin next ∧
      next' = next + Runs.total popWeight (c.bufferPushPacket clock).2 ∧
      Runs.watch (watchRequests (c.fin next) received) next (c.bufferPushPacket clock).2 =
        some next' ∧
      ∀ k s t, (c.bufferPushDecisions clock)[k]? = some (s, t) →
        s = BitVec.ofNat 16 (next + k) ∧ t = lineTime c.frameSize base (next + k) := by
  rw [Rtp.bufferPushPacket, Rtp.bufferPushDecisions]
  split
  · exact ⟨next, h, rfl, rfl, rfl, fun k s t hk => (nomatch hk)⟩
  · obtain ⟨next', hc', hfin, -, hnext, hwatch, htimed⟩ := h.pushLoop hne c.hold 32769 clock
    generalize Rtp.pushLoop c.hold 32769 clock c = r at hc' hfin hnext hwatch ⊢
    have hcount := KeptTimes.countOut r.1
    have hc₂ := hcount.onTime hc'
    have hloop : KeptTimes r.1.countOut (Rtp.resendLoop r.2.1 2048 0 r.1.countOut).1 ∧
        Runs.total popWeight (Rtp.resendLoop r.2.1 2048 0 r.1.countOut).2 = 0 ∧
        Runs.watch (watchRequests (r.1.countOut.fin next') received) next'
          (Rtp.resendLoop r.2.1 2048 0 r.1.countOut).2 = some next' := by
      by_cases hmore : next' < r.1.countOut.fin next'
      · exact hc₂.resendLoop hmore r.2.1 2048 (Nat.zero_le _)
      · rw [resendLoop_empty hmore]
        exact ⟨.refl _, rfl, rfl⟩
    obtain ⟨hkept, hzero, hasked⟩ := hloop
    rw [hcount.fin, hfin] at hasked
    refine ⟨next', hkept.onTime hc₂, ?_, ?_, ?_, htimed⟩
    · show (Rtp.resendLoop r.2.1 2048 0 r.1.countOut).1.fin next' = _
      rw [hkept.fin, hcount.fin, hfin]
    · show next' = next + Runs.total popWeight (r.2.2 ++ _)
      rw [Runs.total_append, hzero, hnext, Nat.add_zero]
    · show Runs.watch _ _ (r.2.2 ++ _) = _
      rw [Runs.watch_append, hwatch, Option.bind_some, hasked]

end OnTime

/-! ### A packet gets its place -/

/-- The loop over a gap gives the positions from `a` up to `n` their times, if the sequence number
does not wrap between them. -/
theorem fillGap_slots {n : ℕ} (rtptime now : BitVec 32) {a : ℕ} (fuel : ℕ) (c : Rtp) (hle : a ≤ n)
    (hlt : n - a < 32768) (hfuel : n - a ≤ fuel)
    (hwrap : (BitVec.ofNat 16 a).toNat ≤ (BitVec.ofNat 16 n).toNat)
    (hdistinct : ∀ m m', a ≤ m → m < m' → m' < n →
      bufIdx (BitVec.ofNat 16 m) ≠ bufIdx (BitVec.ofNat 16 m')) :
    (∀ m, a ≤ m → m < n →
      ((Rtp.fillGap (BitVec.ofNat 16 n) rtptime now fuel (BitVec.ofNat 16 a) c).slot m).rtptime =
        rtptime - BitVec.ofNat 32 (n - m) * c.frameSize) ∧
    (∀ k, (∀ m, a ≤ m → m < n → k ≠ bufIdx (BitVec.ofNat 16 m)) →
      (Rtp.fillGap (BitVec.ofNat 16 n) rtptime now fuel (BitVec.ofNat 16 a) c).audioBuffer k =
        c.audioBuffer k) ∧
    (Rtp.fillGap (BitVec.ofNat 16 n) rtptime now fuel (BitVec.ofNat 16 a) c).frameSize =
      c.frameSize := by
  induction fuel generalizing a c with
  | zero => exact ⟨fun m hm hmn => by omega, fun k _ => rfl, rfl⟩
  | succ fuel ih =>
      rw [Rtp.fillGap]
      have horder : seqOrder (BitVec.ofNat 16 a) (BitVec.ofNat 16 n) ↔ a < n := by
        rw [seqOrder_iff, ahead_ofNat hle (by omega)]
        omega
      split
      · rename_i hin
        have han := horder.mp hin
        have hnext : BitVec.ofNat 16 a + 1 = BitVec.ofNat 16 (a + 1) := by
          rw [BitVec.ofNat_add]
          rfl
        -- the difference of the two `seq_t`, as they stand
        have hdiff : ((BitVec.ofNat 16 n).toNat : ℤ) - (BitVec.ofNat 16 a).toNat = (n - a : ℕ) := by
          rw [BitVec.toNat_ofNat, BitVec.toNat_ofNat] at hwrap ⊢
          omega
        have hwrap' : (BitVec.ofNat 16 (a + 1)).toNat ≤ (BitVec.ofNat 16 n).toNat := by
          rw [BitVec.toNat_ofNat, BitVec.toNat_ofNat] at hwrap ⊢
          omega
        rw [hnext, hdiff, BitVec.ofInt_natCast]
        obtain ⟨htimed, hothers, hframe⟩ := ih
          (c.setSlot (bufIdx (BitVec.ofNat 16 a)) { c.audioBuffer (bufIdx (BitVec.ofNat 16 a)) with
            rtptime := rtptime - BitVec.ofNat 32 (n - a) * c.frameSize, lastResend := now })
          han (by omega) (by omega) hwrap' fun m m' hm => hdistinct m m' (by omega)
        refine ⟨fun m hm hmn => ?_, fun k hk => ?_, hframe⟩
        · rcases Nat.eq_or_lt_of_le hm with rfl | hgt
          · rw [Rtp.slot, hothers _ fun m' hm' hmn' => hdistinct a m' (Nat.le_refl _) hm' hmn']
            simp only [Rtp.setSlot, if_true]
          · exact htimed m hgt hmn
        · rw [hothers k fun m hm hmn => hk m (by omega) hmn]
          exact if_neg (hk a (Nat.le_refl _) han)
      · rename_i hout
        rw [horder] at hout
        exact ⟨fun m hm hmn => by omega, fun k _ => rfl, rfl⟩

/-- A packet of the line in its place: `c'` has it, and the positions in front of it. -/
structure Placed (c c' : Rtp) (base : BitVec 32) (next n : ℕ) : Prop where
  frameSize : c'.frameSize = c.frameSize
  abRead : c'.abRead = c.abRead
  write : c'.fin next = max (c.fin next) (n + 1)
  gap : ∀ m, c.fin next ≤ m → m < n → (c'.slot m).rtptime = lineTime c.frameSize base m
  others : ∀ m, next ≤ m → m < c.fin next → m ≠ n →
    (c'.slot m).rtptime = (c.slot m).rtptime ∧ (c'.slot m).ready = (c.slot m).ready
  own : (c'.slot n).rtptime = lineTime c.frameSize base n ∧ (c'.slot n).ready = true

namespace OnTime

variable {c c' : Rtp} {base : BitVec 32} {next : ℕ} {received : ℕ → Bool} {n : ℕ}

/-- Where packet `n` is taken, by the position of it. -/
theorem arrival_of (h : OnTime c base next received) (hle : next ≤ n) (hlt : n < next + 32767) :
    (n = c.fin next ∧ c.arrival (BitVec.ofNat 16 n) = .expected) ∨
      (c.fin next < n ∧ c.arrival (BitVec.ofNat 16 n) = .newer) ∨
        (n < c.fin next ∧ c.arrival (BitVec.ofNat 16 n) = .recovered) := by
  have hahead : ahead c.abRead (BitVec.ofNat 16 n) = n - next := by
    rw [h.read]
    exact ahead_ofNat hle (by show n - next < 65536; omega)
  rw [Rtp.fin]
  rcases Rtp.arrival_cases h.short (BitVec.ofNat 16 n) with ⟨ha, -, hd⟩ | ⟨ha, -, hd⟩ |
    ⟨ha, -, hd⟩ | ⟨ha, hd⟩
  · exact .inl ⟨by omega, ha⟩
  · exact .inr (.inl ⟨by omega, ha⟩)
  · exact .inr (.inr ⟨by omega, ha⟩)
  · omega

/-- What is in its place is on time. -/
theorem placed (h : OnTime c base next received) (hle : next ≤ n) (hlt : n < next + 32767)
    (hdistinct : ∀ m m', next ≤ m → m < m' → m' ≤ n →
      bufIdx (BitVec.ofNat 16 m) ≠ bufIdx (BitVec.ofNat 16 m'))
    (hp : Placed c c' base next n) :
    OnTime c' base next fun m => m == n || received m := by
  have hfin := h.fin_lt
  have hwrite := hp.write
  refine ⟨hp.abRead.trans h.read, ?_, fun m hm hm' => ?_, fun m hm hm' hr => ?_, fun m hr => ?_,
    fun m m' hm hmm hm' => ?_⟩
  · rw [Rtp.fin] at hwrite
    omega
  · rw [hp.frameSize]
    by_cases hmn : m = n
    · rw [hmn]
      exact hp.own.1
    · by_cases hold : m < c.fin next
      · rw [(hp.others m hm hold hmn).1]
        exact h.timed m hm hold
      · exact hp.gap m (Nat.le_of_not_lt hold) (by omega)
  · by_cases hmn : m = n
    · rw [hmn]
      exact hp.own.2
    · have hr' : received m = true := by simpa [hmn] using hr
      have hold := h.bound m hr'
      rw [(hp.others m hm hold hmn).2]
      exact h.ready m hm hold hr'
  · by_cases hmn : m = n
    · omega
    · have hr' : received m = true := by simpa [hmn] using hr
      have hold := h.bound m hr'
      omega
  · by_cases hin : m' ≤ n
    · exact hdistinct m m' hm hmm hin
    · exact h.distinct m m' hm hmm (by omega)

/-- The time of an earlier packet of the line. -/
theorem lineTime_sub (frameSize base : BitVec 32) {m : ℕ} (hle : m ≤ n) :
    lineTime frameSize base n - BitVec.ofNat 32 (n - m) * frameSize = lineTime frameSize base m := by
  have hsum : BitVec.ofNat 32 n = BitVec.ofNat 32 m + BitVec.ofNat 32 (n - m) := by
    rw [← BitVec.ofNat_add, Nat.add_sub_cancel' hle]
  rw [lineTime, lineTime, hsum, BitVec.mul_add, BitVec.mul_comm _ frameSize, ← BitVec.add_assoc,
    BitVec.add_sub_cancel]

/-- A packet stored in a slot of its own. -/
theorem store_placed (h : OnTime c base next received) {p : Rtp} (hle : next ≤ n)
    (hdistinct : ∀ m m', next ≤ m → m < m' → m' ≤ n →
      bufIdx (BitVec.ofNat 16 m) ≠ bufIdx (BitVec.ofNat 16 m'))
    (hframe : p.frameSize = c.frameSize) (hread : p.abRead = c.abRead)
    (hwrite : p.fin next = max (c.fin next) (n + 1))
    (hgap : ∀ m, c.fin next ≤ m → m < n → (p.slot m).rtptime = lineTime c.frameSize base m)
    (hold : ∀ m, next ≤ m → m < c.fin next →
      (p.slot m).rtptime = (c.slot m).rtptime ∧ (p.slot m).ready = (c.slot m).ready)
    (pcm : List UInt8) :
    Placed c (p.store (BitVec.ofNat 16 n) (lineTime c.frameSize base n) pcm) base next n := by
  have hother : ∀ m, next ≤ m → m ≠ n → m < max (c.fin next) (n + 1) →
      (p.store (BitVec.ofNat 16 n) (lineTime c.frameSize base n) pcm).slot m = p.slot m := by
    intro m hm hmn hlt
    refine if_neg ?_
    by_cases hbefore : m < n
    · exact hdistinct m n hm hbefore (Nat.le_refl _)
    · exact (h.distinct n m hle (by omega) (by omega)).symm
  refine ⟨hframe, hread, hwrite, fun m hm hmn => ?_, fun m hm hlt hmn => ?_, ?_⟩
  · have hin : next ≤ c.fin next := Nat.le_add_right ..
    rw [hother m (by omega) (by omega) (by omega)]
    exact hgap m hm hmn
  · rw [hother m hm hmn (by omega)]
    exact hold m hm hlt
  · show (if _ = _ then _ else _ : Abuf).rtptime = _ ∧ (if _ = _ then _ else _ : Abuf).ready = true
    rw [if_pos rfl]
    exact ⟨rfl, rfl⟩

/-- The gap in front of a packet is asked for. -/
theorem requestResend_gap {first : ℕ} (hlt : first < n) (hshort : n - first < 32768) :
    (c.requestResend (BitVec.ofNat 16 first) (BitVec.ofNat 16 n - 1)).2 = [] ∧
        ¬ n - 1 - first ≤ BUFFER_FRAMES / 2 ∨
      (c.requestResend (BitVec.ofNat 16 first) (BitVec.ofNat 16 n - 1)).2 =
        [.resend (BitVec.ofNat 16 first) (BitVec.ofNat 16 (n - 1))] := by
  have hlast : BitVec.ofNat 16 n - 1 = BitVec.ofNat 16 (n - 1) := by
    have hsum : BitVec.ofNat 16 n = BitVec.ofNat 16 (n - 1) + 1 := by
      rw [show n = n - 1 + 1 by omega, BitVec.ofNat_add]
      rfl
    rw [hsum, BitVec.add_sub_cancel]
  have hahead : ahead (BitVec.ofNat 16 first) (BitVec.ofNat 16 (n - 1)) = n - 1 - first :=
    ahead_ofNat (by omega) (by show _ < 65536; omega)
  rw [hlast, Rtp.requestResend]
  split
  · rename_i hsilly
    refine .inl ⟨rfl, ?_⟩
    rcases hsilly with horder | hlong
    · rw [seqOrder_iff] at horder
      simp only [ahead] at *
      bv_omega
    · rw [BitVec.toNat_ofNat, BitVec.toNat_ofNat] at hlong
      omega
  · exact .inr rfl

/-- A packet that is newer than expected. -/
theorem placeNewer (h : OnTime c base next received) (hin : c.fin next < n)
    (hlt : n < next + 32767)
    (hcut : ¬ (c.latency ≠ 0 ∧ seqOrder c.latencyFrames (BitVec.ofNat 16 n - c.abWrite - 1)))
    (hwrap : (c.abWrite + 1).toNat ≤ (BitVec.ofNat 16 n).toNat)
    (hdistinct : ∀ m m', next ≤ m → m < m' → m' ≤ n →
      bufIdx (BitVec.ofNat 16 m) ≠ bufIdx (BitVec.ofNat 16 m')) (now : BitVec 32) :
    ∃ p log, c.placeNewer (BitVec.ofNat 16 n) (lineTime c.frameSize base n) now = (p, log) ∧
      p.frameSize = c.frameSize ∧ p.abRead = c.abRead ∧ p.fin next = n + 1 ∧
      (∀ m, c.fin next ≤ m → m < n → (p.slot m).rtptime = lineTime c.frameSize base m) ∧
      (∀ m, next ≤ m → m < c.fin next →
        (p.slot m).rtptime = (c.slot m).rtptime ∧ (p.slot m).ready = (c.slot m).ready) ∧
      (log = [] ∧ ¬ n - 1 - c.fin next ≤ BUFFER_FRAMES / 2 ∨
        log = [.resend (BitVec.ofNat 16 (c.fin next)) (BitVec.ofNat 16 (n - 1))]) := by
  have hnext : next ≤ c.fin next := Nat.le_add_right ..
  have hsame : c.cutGap (BitVec.ofNat 16 n) = c := if_neg hcut
  have hasked := requestResend_gap (c := c) hin (by omega)
  have hkept := KeptTimes.requestResend c (BitVec.ofNat 16 (c.fin next)) (BitVec.ofNat 16 n - 1)
  rw [h.write_eq] at hwrap
  obtain ⟨htimed, hothers, hframe⟩ := fillGap_slots (lineTime c.frameSize base n) now
    32768 (c.requestResend (BitVec.ofNat 16 (c.fin next)) (BitVec.ofNat 16 n - 1)).1
    (Nat.le_of_lt hin) (by omega) (by omega) hwrap
    fun m m' hm hmm hm' => hdistinct m m' (by omega) hmm (by omega)
  have hread := (Rtp.same_fillGap (BitVec.ofNat 16 n) (lineTime c.frameSize base n) now 32768
    (BitVec.ofNat 16 (c.fin next))
    (c.requestResend (BitVec.ofNat 16 (c.fin next)) (BitVec.ofNat 16 n - 1)).1).abRead
  rw [Rtp.placeNewer, hsame, h.write_eq]
  refine ⟨_, _, rfl, hframe.trans hkept.frameSize, hread.trans hkept.abRead, ?_, fun m hm hmn => ?_,
    fun m hm hlt' => ?_, hasked⟩
  · show next + ahead _ (BitVec.ofNat 16 n + 1) = n + 1
    have hsucc : BitVec.ofNat 16 n + 1 = BitVec.ofNat 16 (n + 1) := by
      rw [BitVec.ofNat_add]
      rfl
    rw [hread.trans hkept.abRead, h.read, hsucc, ahead_ofNat (by omega) (by show _ < 65536; omega)]
    omega
  · refine (htimed m hm hmn).trans ?_
    rw [hkept.frameSize]
    exact lineTime_sub _ _ (Nat.le_of_lt hmn)
  · have hslot := hothers (bufIdx (BitVec.ofNat 16 m)) fun m' hm' hmn' =>
      hdistinct m m' hm (by omega) (by omega)
    constructor
    · exact (congrArg Abuf.rtptime hslot).trans (hkept.rtptime _)
    · exact (congrArg Abuf.ready hslot).trans (hkept.ready _)

/-- A packet that comes in while playing, and fits. -/
theorem receive (h : OnTime c base next received) (hle : next ≤ n) (hlt : n < next + 32767)
    (hnewer : c.arrival (BitVec.ofNat 16 n) = .newer →
      ¬ (c.latency ≠ 0 ∧ seqOrder c.latencyFrames (BitVec.ofNat 16 n - c.abWrite - 1)) ∧
        (c.abWrite + 1).toNat ≤ (BitVec.ofNat 16 n).toNat)
    (hdistinct : ∀ m m', next ≤ m → m < m' → m' ≤ n →
      bufIdx (BitVec.ofNat 16 m) ≠ bufIdx (BitVec.ofNat 16 m')) (pcm : List UInt8)
    (clock : ℕ → BitVec 32) :
    ∃ next' c' log, c.receive (BitVec.ofNat 16 n) (lineTime c.frameSize base n) pcm clock = (c', log) ∧
      OnTime c' base next' (fun m => m == n || received m) ∧
      next' = next + Runs.total popWeight log ∧ log.any RtpObs.isStored = true ∧
      Runs.watch (watchRequests (c'.fin next') fun m => m == n || received m) next log = some next' ∧
      (∀ k s t, (c.receiveDecisions (BitVec.ofNat 16 n) (lineTime c.frameSize base n) pcm
          clock)[k]? = some (s, t) →
        s = BitVec.ofNat 16 (next + k) ∧ t = lineTime c.frameSize base (next + k)) ∧
      (c.fin next < n → n - 1 - c.fin next ≤ BUFFER_FRAMES / 2 →
        .resend (BitVec.ofNat 16 (c.fin next)) (BitVec.ofNat 16 (n - 1)) ∈ log) := by
  have hnext : next ≤ c.fin next := Nat.le_add_right ..
  -- the packet in its place, and what was asked for
  obtain ⟨p, asked, hplace, hframe, hread, hwrite, hgap, hold, hasked⟩ :
      ∃ p asked, c.place (BitVec.ofNat 16 n) (lineTime c.frameSize base n) (clock 0) = (p, asked) ∧
        p.frameSize = c.frameSize ∧ p.abRead = c.abRead ∧ p.fin next = max (c.fin next) (n + 1) ∧
        (∀ m, c.fin next ≤ m → m < n → (p.slot m).rtptime = lineTime c.frameSize base m) ∧
        (∀ m, next ≤ m → m < c.fin next →
          (p.slot m).rtptime = (c.slot m).rtptime ∧ (p.slot m).ready = (c.slot m).ready) ∧
        (asked = [] ∧ ¬ (c.fin next < n ∧ n - 1 - c.fin next ≤ BUFFER_FRAMES / 2) ∨
          c.fin next < n ∧
            asked = [.resend (BitVec.ofNat 16 (c.fin next)) (BitVec.ofNat 16 (n - 1))]) := by
    rw [Rtp.place]
    rcases h.arrival_of hle hlt with ⟨hn, harr⟩ | ⟨hn, harr⟩ | ⟨hn, harr⟩
    · rw [harr]
      refine ⟨_, _, rfl, rfl, rfl, ?_, fun m hm hmn => by omega, fun m _ _ => ⟨rfl, rfl⟩,
        .inl ⟨rfl, by omega⟩⟩
      show next + ahead c.abRead (BitVec.ofNat 16 n + 1) = _
      have hsucc : BitVec.ofNat 16 n + 1 = BitVec.ofNat 16 (n + 1) := by
        rw [BitVec.ofNat_add]
        rfl
      rw [hsucc, h.read, ahead_ofNat (by omega) (by show _ < 65536; omega)]
      omega
    · obtain ⟨hcut, hwrap⟩ := hnewer harr
      obtain ⟨p, log, hp, hframe, hread, hwrite, hgap, hold, hasked⟩ :=
        h.placeNewer hn hlt hcut hwrap hdistinct (clock 0)
      rw [harr]
      refine ⟨p, log, hp, hframe, hread, by omega, hgap, hold, ?_⟩
      rcases hasked with ⟨hnil, hlong⟩ | hasked
      · exact .inl ⟨hnil, fun hshort => hlong hshort.2⟩
      · exact .inr ⟨hn, hasked⟩
    · rw [harr]
      refine ⟨_, _, rfl, rfl, rfl, ?_, fun m hm hmn => by omega, fun m _ _ => ⟨rfl, rfl⟩,
        .inl ⟨rfl, by omega⟩⟩
      show c.fin next = _
      omega
  have hlate : c.arrival (BitVec.ofNat 16 n) ≠ .late := by
    rcases h.arrival_of hle hlt with ⟨-, harr⟩ | ⟨-, harr⟩ | ⟨-, harr⟩ <;> rw [harr] <;> decide
  have hplaced := h.store_placed (p := p.countIn) hle hdistinct hframe hread hwrite hgap hold pcm
  have hput := h.placed hle hlt hdistinct hplaced
  have hfin := hplaced.write
  rw [Rtp.receive, Rtp.receiveDecisions, if_neg hlate, hplace]
  simp only [if_neg hlate]
  generalize p.countIn.store (BitVec.ofNat 16 n) (lineTime c.frameSize base n) pcm = put
    at hplaced hput hfin ⊢
  obtain ⟨next', hc', hfin', hnext', hwatch, htimed⟩ :=
    hput.bufferPushPacket (by omega) fun i => clock (i + 1)
  refine ⟨next', _, _, rfl, hc', ?_, ?_, ?_, ?_, ?_⟩
  · rw [Runs.total_append, Runs.total_cons, hnext']
    have hnone : Runs.total popWeight asked = 0 := by
      rcases hasked with ⟨rfl, -⟩ | ⟨-, rfl⟩ <;> rfl
    rw [hnone]
    show _ = next + (0 + (0 + _))
    omega
  · rw [List.any_append, List.any_cons]
    show (_ || (true || _)) = true
    rw [Bool.true_or, Bool.or_true]
  · rw [hfin', Runs.watch_append]
    have hgap' : Runs.watch (watchRequests (put.fin next) fun m => m == n || received m) next asked =
        some next := by
      rcases hasked with ⟨rfl, -⟩ | ⟨hn, rfl⟩
      · rfl
      · have hfirst : next + ahead (BitVec.ofNat 16 next) (BitVec.ofNat 16 (c.fin next)) =
            c.fin next := by
          have hshort := h.fin_lt
          rw [ahead_ofNat hnext (by show _ < 65536; omega)]
          omega
        have hcount : ahead (BitVec.ofNat 16 (c.fin next)) (BitVec.ofNat 16 (n - 1)) =
            n - 1 - c.fin next := ahead_ofNat (by omega) (by show _ < 65536; omega)
        rw [Runs.watch_cons, watchRequests]
        simp only [hfirst, hcount]
        rw [if_pos]
        · rfl
        · refine ⟨by omega, fun i hi => ?_⟩
          have hno : received (c.fin next + i) = false := by
            by_contra hr
            have hlt' := h.bound _ ((Bool.not_eq_false _).mp hr)
            omega
          rw [hno, Bool.or_false, beq_eq_false_iff_ne]
          omega
    rw [hgap', Option.bind_some, Runs.watch_cons]
    exact hwatch
  · intro k s t hk
    rw [← hplaced.frameSize]
    exact htimed k s t hk
  · intro hn hshort
    rcases hasked with ⟨-, hno⟩ | ⟨-, rfl⟩
    · exact absurd ⟨hn, hshort⟩ hno
    · exact List.mem_append_left _ List.mem_cons_self

end OnTime

/-! ### Runs -/

/-- While playing, all is on time. -/
def Tracked.Line (x : Tracked) : Prop :=
  x.rtp.playing = true → OnTime x.rtp x.base x.next x.received

section Step
variable {decode : List UInt8 → List UInt8} {x : Tracked}

/-- An event that leaves the window and the slots as they are, or ends playback. -/
theorem right_of_quiet {e : TrackedEvent} {c' : Rtp} {log : List RtpObs} (h : x.Line)
    (hrtp : rtpStep decode x.rtp (e.toRtp x.rtp.frameSize) = (c', log)) (hbegin : x.begin e = x)
    (hdecisions : x.decisions decode e = [])
    (hnone : ∀ n base data clock, e = .packet n base data clock → x.rtp.playing = true →
      ¬ x.rtp.fin x.next < n)
    (hlog : ∀ o ∈ log, popWeight o = 0 ∧ o.isStored = false ∧
      ∀ last marks n, watchRequests last marks n o = some n)
    (hkept : c'.playing = true → x.rtp.playing = true ∧ KeptTimes x.rtp c') :
    Right decode x e ∧ (x.step decode e).1.Line := by
  have hpops : Runs.total popWeight log = 0 := Runs.total_eq_zero fun o ho => (hlog o ho).1
  have hstored : log.any RtpObs.isStored = false :=
    List.any_eq_false.mpr fun o ho => by rw [(hlog o ho).2.1]; decide
  have hmark : x.mark log e = x.received := by
    funext m
    cases e with
    | packet n base data clock =>
        show ((m == n && log.any RtpObs.isStored) || x.received m) = _
        rw [hstored, Bool.and_false, Bool.false_or]
    | _ => rfl
  have hstep : x.step decode e = (⟨c', x.base, x.next, x.received⟩, log) := by
    rw [Tracked.step, hrtp, hbegin]
    dsimp only
    rw [hmark, hpops, Nat.add_zero]
  refine ⟨⟨fun k s t hk => ?_, ?_, fun n base data clock he hplay hlt => ?_⟩, ?_⟩
  · rw [hdecisions] at hk
    cases hk
  · rw [hstep, hbegin]
    exact Runs.watch_ignored (fun o ho n => (hlog o ho).2.2 _ _ n) _
  · exact absurd hlt (hnone n base data clock he hplay)
  · rw [hstep]
    intro hplay
    obtain ⟨hplay', hkept⟩ := hkept hplay
    exact hkept.onTime (h hplay')

/-- A packet that is not too late is taken. -/
theorem step_taken {n : ℕ} {base : BitVec 32} {data : List UInt8} {clock : ℕ → BitVec 32} {c : Rtp}
    {log : List RtpObs}
    (hput : x.rtp.bufferPutPacket (BitVec.ofNat 16 n) (lineTime x.rtp.frameSize base n)
      (decode data) clock = (c, log)) (hstored : log.any RtpObs.isStored = true) :
    x.step decode (.packet n base data clock) =
      (⟨c, (x.begin (.packet n base data clock)).base,
        (x.begin (.packet n base data clock)).next + Runs.total popWeight log,
        fun m => m == n || (x.begin (.packet n base data clock)).received m⟩, log) := by
  have hstep : rtpStep decode x.rtp
      ((TrackedEvent.packet n base data clock).toRtp x.rtp.frameSize) = (c, log) := hput
  have hmark : (x.begin (.packet n base data clock)).mark log (.packet n base data clock) =
      fun m => m == n || (x.begin (.packet n base data clock)).received m := by
    funext m
    show ((m == n && log.any RtpObs.isStored) || _) = _
    rw [hstored, Bool.and_true]
  rw [Tracked.step, hstep]
  dsimp only
  rw [hmark]

/-- What is taken is right, and keeps the line. -/
theorem right_of_taken {n : ℕ} {base : BitVec 32} {data : List UInt8} {clock : ℕ → BitVec 32}
    {c' : Rtp} {log : List RtpObs} {next' : ℕ}
    (hput : x.rtp.bufferPutPacket (BitVec.ofNat 16 n) (lineTime x.rtp.frameSize base n)
      (decode data) clock = (c', log)) (hstored : log.any RtpObs.isStored = true)
    (hc' : OnTime c' (x.begin (.packet n base data clock)).base next'
      fun m => m == n || (x.begin (.packet n base data clock)).received m)
    (hnext : next' = (x.begin (.packet n base data clock)).next + Runs.total popWeight log)
    (hwatch : Runs.watch (watchRequests (c'.fin next')
        fun m => m == n || (x.begin (.packet n base data clock)).received m)
      (x.begin (.packet n base data clock)).next log = some next')
    (htimed : ∀ k s t, (x.rtp.putDecisions (BitVec.ofNat 16 n) (lineTime x.rtp.frameSize base n)
        (decode data) clock)[k]? = some (s, t) →
      s = BitVec.ofNat 16 ((x.begin (.packet n base data clock)).next + k) ∧
        t = lineTime x.rtp.frameSize (x.begin (.packet n base data clock)).base
          ((x.begin (.packet n base data clock)).next + k))
    (hfound : x.rtp.playing = true → x.rtp.fin x.next < n →
      n - 1 - x.rtp.fin x.next ≤ BUFFER_FRAMES / 2 →
        .resend (BitVec.ofNat 16 (x.rtp.fin x.next)) (BitVec.ofNat 16 (n - 1)) ∈ log) :
    Right decode x (.packet n base data clock) ∧
      (x.step decode (.packet n base data clock)).1.Line := by
  have hstep := step_taken hput hstored
  rw [← hnext] at hstep
  refine ⟨⟨htimed, ?_, ?_⟩, ?_⟩
  · rw [hstep]
    exact hwatch
  · intro n' base' data' clock' he hplay
    cases he
    rw [hstep]
    exact hfound hplay
  · rw [hstep]
    exact fun _ => hc'

/-- A packet, while playing. -/
theorem step_playing {n : ℕ} {base : BitVec 32} (data : List UInt8) (clock : ℕ → BitVec 32)
    (h : OnTime x.rtp x.base x.next x.received) (hplay : x.rtp.playing = true) (hbase : base = x.base)
    (hfits : x.Fits (.packet n base data clock)) :
    Right decode x (.packet n base data clock) ∧
      (x.step decode (.packet n base data clock)).1.Line := by
  subst hbase
  have hbegin : x.begin (.packet n x.base data clock) = x :=
    if_neg fun hno => by rw [hplay] at hno; cases hno.1
  rcases hfits hplay with ⟨hbefore, hlate⟩ | ⟨hle, hlt, hnewer, hdistinct⟩
  · -- too late
    have hput : x.rtp.bufferPutPacket (BitVec.ofNat 16 n) (lineTime x.rtp.frameSize x.base n)
        (decode data) clock = (x.rtp.countIn, [.late (BitVec.ofNat 16 n)]) := by
      rw [Rtp.bufferPutPacket, if_pos hplay, Rtp.receive, if_pos hlate, Rtp.place, hlate]
    refine right_of_quiet (fun _ => h) hput hbegin ?_ ?_ ?_ fun _ => ⟨hplay, .countIn _⟩
    · show x.rtp.putDecisions _ _ _ _ = []
      rw [Rtp.putDecisions, if_pos hplay, Rtp.receiveDecisions, if_pos hlate]
    · intro n' base' data' clock' he _
      cases he
      have hin : x.next ≤ x.rtp.fin x.next := Nat.le_add_right ..
      omega
    · intro o ho
      rw [List.mem_singleton.mp ho]
      exact ⟨rfl, rfl, fun _ _ _ => rfl⟩
  · obtain ⟨next', c', log, hput, hc', hnext, hstored, hwatch, htimed, hfound⟩ :=
      h.receive hle hlt hnewer (fun m m' hm hmm hm' => by
        have hne := hdistinct (m' - x.next) (by omega) (m - x.next) (by omega)
        rwa [Nat.add_sub_cancel' hm, Nat.add_sub_cancel' (by omega)] at hne) (decode data) clock
    refine right_of_taken (show _ = (c', log) from ?_) hstored (by rw [hbegin]; exact hc') ?_ ?_ ?_ ?_
    · rw [Rtp.bufferPutPacket, if_pos hplay]
      exact hput
    · rw [hbegin]
      exact hnext
    · rw [hbegin]
      exact hwatch
    · rw [hbegin, Rtp.putDecisions, if_pos hplay]
      exact htimed
    · exact fun _ => hfound

/-- A first packet. -/
theorem step_starting {n : ℕ} (base : BitVec 32) (data : List UInt8) (clock : ℕ → BitVec 32)
    (hstop : x.rtp.playing = false) (hstart : x.rtp.canStart (BitVec.ofNat 16 n) = true) :
    Right decode x (.packet n base data clock) ∧
      (x.step decode (.packet n base data clock)).1.Line := by
  have hbegin : x.begin (.packet n base data clock) =
      { x with base := base, next := n, received := fun _ => false } := if_pos ⟨hstop, hstart⟩
  have hnone : ahead (BitVec.ofNat 16 n) (BitVec.ofNat 16 n - 1 + 1) = 0 := by
    rw [BitVec.sub_add_cancel, ahead_self]
  have hfin : (x.rtp.startAt (BitVec.ofNat 16 n)).fin n = n := by
    show n + ahead (BitVec.ofNat 16 n) (BitVec.ofNat 16 n - 1 + 1) = n
    rw [hnone]
    rfl
  have h : OnTime (x.rtp.startAt (BitVec.ofNat 16 n)) base n fun _ => false := by
    refine ⟨rfl, ?_, fun m hm hlt => ?_, fun m hm hlt => ?_, fun m hr => (nomatch hr),
      fun m m' hm hmm hlt => ?_⟩
    · show ahead (BitVec.ofNat 16 n) (BitVec.ofNat 16 n - 1 + 1) < 32768
      omega
    · omega
    · omega
    · omega
  have harr : (x.rtp.startAt (BitVec.ofNat 16 n)).arrival (BitVec.ofNat 16 n) = .expected := by
    refine if_pos ?_
    show _ = BitVec.ofNat 16 n - 1 + 1
    rw [BitVec.sub_add_cancel]
  obtain ⟨next', c', log, hput, hc', hnext, hstored, hwatch, htimed, -⟩ :=
    h.receive (Nat.le_refl n) (by omega) (fun hnew => by rw [harr] at hnew; cases hnew)
      (fun m m' hm hmm hm' => by omega) (decode data) clock
  have hput' : x.rtp.bufferPutPacket (BitVec.ofNat 16 n) (lineTime x.rtp.frameSize base n)
      (decode data) clock =
        (c', .play (BitVec.ofNat 16 n) (x.rtp.playtime (lineTime x.rtp.frameSize base n)) :: log) := by
    rw [Rtp.bufferPutPacket, if_neg (by rw [hstop]; decide), if_pos hstart]
    show (_, _ :: _) = _
    rw [show x.rtp.frameSize = (x.rtp.startAt (BitVec.ofNat 16 n)).frameSize from rfl, hput]
  refine right_of_taken hput' hstored (by rw [hbegin]; exact hc') ?_ ?_ ?_ ?_
  · rw [hbegin, hnext, Runs.total_cons]
    show _ = n + (0 + Runs.total popWeight log)
    omega
  · rw [hbegin]
    exact hwatch
  · rw [hbegin, Rtp.putDecisions, if_neg (by rw [hstop]; decide), if_pos hstart]
    exact htimed
  · intro hplay
    rw [hstop] at hplay
    cases hplay

theorem step_right {e : TrackedEvent} (h : x.Line) (hsends : x.Sends e) (hfits : x.Fits e) :
    Right decode x e ∧ (x.step decode e).1.Line := by
  cases e with
  | packet n base data clock =>
      rcases hplay : x.rtp.playing with - | -
      · rcases hstart : x.rtp.canStart (BitVec.ofNat 16 n) with - | -
        · have hput : x.rtp.bufferPutPacket (BitVec.ofNat 16 n) (lineTime x.rtp.frameSize base n)
              (decode data) clock = (x.rtp, []) := by
            rw [Rtp.bufferPutPacket, if_neg (by rw [hplay]; decide), if_neg (by rw [hstart]; decide)]
          refine right_of_quiet h hput ?_ ?_ ?_ (fun o ho => (nomatch ho)) ?_
          · exact if_neg fun hno => by rw [hstart] at hno; cases hno.2
          · show x.rtp.putDecisions _ _ _ _ = []
            rw [Rtp.putDecisions, if_neg (by rw [hplay]; decide), if_neg (by rw [hstart]; decide)]
          · intro _ _ _ _ _ hno
            rw [hplay] at hno
            cases hno
          · intro hno
            rw [hplay] at hno
            cases hno
        · exact step_starting base data clock hplay hstart
      · exact step_playing data clock (h hplay) hplay (hsends hplay) hfits
  | flush seqno rtptime now =>
      refine right_of_quiet h rfl rfl rfl (fun _ _ _ _ hno => (nomatch hno))
        (fun o ho => (nomatch ho)) fun hplay => ?_
      rw [Rtp.rtpFlush] at hplay ⊢
      split at hplay
      · rename_i hkeep
        rw [if_pos hkeep]
        exact ⟨hplay, .refl _⟩
      · cases hplay
  | record seqno rtptime now =>
      exact right_of_quiet h rfl rfl rfl (fun _ _ _ _ hno => (nomatch hno))
        (fun o ho => (nomatch ho)) fun hplay => ⟨hplay, ⟨rfl, rfl, rfl, fun _ => rfl, fun _ => rfl⟩⟩
  | sync rtpNowLatency remote rtpNow flags =>
      by_cases hgap : Rtp.ntp2ms (remote - x.rtp.timingRemote) > 10000
      · exact right_of_quiet h (show _ = (x.rtp, []) from if_pos hgap) rfl rfl
          (fun _ _ _ _ hno => (nomatch hno)) (fun o ho => (nomatch ho)) fun hplay => ⟨hplay, .refl _⟩
      · refine right_of_quiet h (show _ = (_, _) from if_neg hgap) rfl rfl
          (fun _ _ _ _ hno => (nomatch hno)) (fun o ho => ?_)
          fun hplay => ⟨hplay, ⟨rfl, rfl, rfl, fun _ => rfl, fun _ => rfl⟩⟩
        split at ho
        · rw [List.mem_singleton.mp ho]
          exact ⟨rfl, rfl, fun _ _ _ => rfl⟩
        · cases ho
  | timing reference remote now =>
      refine right_of_quiet h rfl rfl rfl (fun _ _ _ _ hno => (nomatch hno))
        (fun o ho => (nomatch ho)) fun hplay => ?_
      rw [Rtp.timingPacket] at hplay ⊢
      split at hplay
      · rename_i hlong
        rw [if_pos hlong]
        exact ⟨hplay, .refl _⟩
      · rename_i hshort
        rw [if_neg hshort]
        exact ⟨hplay, ⟨rfl, rfl, rfl, fun _ => rfl, fun _ => rfl⟩⟩

end Step

/-- In every run in which the sender keeps to its line and the packets fit, each step is right. -/
theorem gaps_right (decode : List UInt8 → List UInt8) (latency frameSize : BitVec 32)
    (es : List TrackedEvent)
    (hes : (trackedMachine decode).Along (fun x e => x.Sends e ∧ x.Fits e)
      (trackedInit latency frameSize) es) :
    (trackedMachine decode).Along (Right decode) (trackedInit latency frameSize) es :=
  (trackedMachine decode).along_of_invariant (I := Tracked.Line)
    (fun _ _ h hP => (step_right h hP.1 hP.2).2) (fun _ _ h hP => (step_right h hP.1 hP.2).1)
    (fun hplay => (nomatch hplay)) hes

/-- What gives a receiver both clocks and a latency of 11025, of 31 packets. -/
def trackedSynced : List TrackedEvent := [.timing 0 0 0, .sync 0 (1 <<< 32) 11025 0]

/-- Packet `n` of a line, at time 0. -/
def onLine (n : ℕ) : TrackedEvent := .packet n 0 [UInt8.ofNat n] fun _ => 0

theorem gaps_right_run :
    (trackedMachine id).Along (Right id) (trackedInit 0 352)
      (trackedSynced ++ [onLine 65535, onLine 65540, onLine 65538, onLine 65538, onLine 65534,
        .flush 5 0 1000, onLine 7, onLine 9]) :=
  gaps_right _ _ _ _ (by decide)

/-- The sequence number wraps in a gap, and the first position of it is 65536 packets too late;
a gap is cut, and the first position has the time its slot had before. -/
theorem gaps_wrong :
    ((trackedMachine id).Along Tracked.Sends (trackedInit 0 352)
        (trackedSynced ++ [onLine 65533, onLine 65537]) ∧
      ¬ (trackedMachine id).Along (Right id) (trackedInit 0 352)
        (trackedSynced ++ [onLine 65533, onLine 65537])) ∧
    ((trackedMachine id).Along Tracked.Sends (trackedInit 0 352)
        (trackedSynced ++ [onLine 0, onLine 40]) ∧
      ¬ (trackedMachine id).Along (Right id) (trackedInit 0 352)
        (trackedSynced ++ [onLine 0, onLine 40])) := by
  refine ⟨⟨by decide, ?_⟩, ⟨by decide, ?_⟩⟩
  · rintro ⟨-, -, -, hright, -⟩
    have htime := (hright.timed 0 65534 46136640 (by decide)).2
    revert htime
    decide
  · rintro ⟨-, -, -, hright, -⟩
    have htime := (hright.timed 0 1 0 (by decide)).2
    revert htime
    decide

end SqueezeliteMuse
