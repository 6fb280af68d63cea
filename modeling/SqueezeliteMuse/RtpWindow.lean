/-
SqueezeliteMuse/RtpWindow.lean

The order in which the AirPlay receiver leaves its positions.

Sequence numbers are read as positions on a line that does not wrap, starting
with the packet that starts playback.  `watchWindow` is told nothing but the log:
it wants every position left to be the next one of the line and to be in the
window, and every packet that is dropped to be behind that next position.

This is so for as long as the window is less than half of the sequence space.
A packet far enough ahead makes it longer, as `ab_write` is moved to the packet
and `ab_read` stays where it is; from then on `seq_order` is wrong about the
window.  `inReach` is the condition on a packet.

Main result: `window_order`, with `window_overrun` when a packet is out of reach.
-/
import SqueezeliteMuse.Rtp

namespace SqueezeliteMuse

open Serial

/-- The observer: the next position to be left, `none` before playback starts. -/
def watchWindow : Option ℕ → RtpObs → Option (Option ℕ)
  | _, .play seqno _ => some (some seqno.toNat)
  | some next, .pop seqno last _ =>
      if seqno = BitVec.ofNat 16 next ∧ 0 ≤ (last - seqno).toInt then some (some (next + 1)) else none
  | none, .pop _ _ _ => none
  | some next, .late seqno =>
      if (seqno - BitVec.ofNat 16 next).toInt < 0 then some (some next) else none
  | none, .late _ => none
  | next, .timing | next, .stored _ _ | next, .resend _ _ => some next

/-- What is to be of the window in the run of a receiver: positions are left one
after the other, each inside the window, and only packets behind them are
dropped; and while playing, `ab_read` is that next position, and not ahead of
`ab_write + 1`. -/
def WindowOrder (decode : List UInt8 → List UInt8) (c₀ : Rtp) (evs : List RtpEvent) : Prop :=
  ∃ next, Runs.watch watchWindow none ((rtpMachine decode).run c₀ evs).2 = some next ∧
    (((rtpMachine decode).run c₀ evs).1.playing = true →
      next.map (BitVec.ofNat 16) = some ((rtpMachine decode).run c₀ evs).1.abRead ∧
      0 ≤ (((rtpMachine decode).run c₀ evs).1.abWrite + 1 -
        ((rtpMachine decode).run c₀ evs).1.abRead).toInt)

/-- A packet that comes in while playing is in reach: if it moves `ab_write`, then to
less than half of the sequence space after `ab_read`; and it is not the one position that
is neither before nor after. -/
def inReach (c : Rtp) : RtpEvent → Bool
  | .packet seqno _ _ _ => !c.playing ||
      (((c.arrival seqno != .expected && c.arrival seqno != .newer) ||
        seqOrder c.abRead (seqno + 1)) && seqno != c.abRead + 32767)
  | _ => true

/-- The window is less than half of the sequence space, and starts at the next position. -/
def WindowAt (c : Rtp) (next : Option ℕ) : Prop :=
  c.playing = true → ahead c.abRead (c.abWrite + 1) < 32768 ∧
    ∃ n, next = some n ∧ c.abRead = BitVec.ofNat 16 n

namespace WindowAt

variable {c c' : Rtp} {next : Option ℕ} {seqno : Seq}

theorem same (hs : Rtp.Same c c') (h : WindowAt c next) : WindowAt c' next := by
  unfold WindowAt
  rw [hs.playing, hs.abRead, hs.abWrite]
  exact h

theorem pushFrame {o : RtpObs} {hold now : BitVec 32} (h : WindowAt c next)
    (hplay : c.playing = true) (hpop : c.Populated) (hf : c.pushFrame hold now = some (c', o)) :
    ∃ next', watchWindow next o = some next' ∧ WindowAt c' next' := by
  obtain ⟨hshort, n, rfl, hn⟩ := h hplay
  obtain ⟨hread, hwrite, -, what, rfl⟩ := Rtp.pushFrame_pops hf
  refine ⟨some (n + 1), if_pos ⟨hn, hpop⟩, ?_⟩
  intro _
  rw [hread, hwrite]
  refine ⟨?_, n + 1, rfl, ?_⟩
  · -- `ab_read` is in the window, so the window has a position to lose
    have hlast := Rtp.populated_iff.mp hpop
    have hlong : ahead c.abRead (c.abWrite + 1) = ahead c.abRead c.abWrite + 1 :=
      ahead_succ_right (by omega)
    rw [ahead_succ_left (by omega)]
    omega
  · rw [hn, BitVec.ofNat_add]
    rfl

/-- A packet that is too late is behind the next position. -/
theorem late (h : WindowAt c next) (hplay : c.playing = true) (harr : c.arrival seqno = .late)
    (hne : seqno ≠ c.abRead + 32767) :
    watchWindow next (.late seqno) = some next := by
  obtain ⟨hshort, n, rfl, hn⟩ := h hplay
  have hfar : 32767 ≤ ahead c.abRead seqno := by
    rcases Rtp.arrival_cases hshort seqno with ⟨hb, -⟩ | ⟨hb, -⟩ | ⟨hb, -⟩ | ⟨-, hfar⟩
    · simp [harr] at hb
    · simp [harr] at hb
    · simp [harr] at hb
    · exact hfar
  have hhalf : ahead c.abRead seqno ≠ 32767 := by
    intro h0
    apply hne
    apply ahead_inj (a := c.abRead)
    rw [h0, ahead_add_self]
    rfl
  have hbehind : (seqno - c.abRead).toInt < 0 := by
    rw [← Int.not_le, toInt_sub_nonneg_iff]
    show ¬ 2 * _ < 65536
    omega
  rw [watchWindow, ← hn, if_pos hbehind]

/-- The window once a packet in reach has its place. -/
theorem place (h : WindowAt c next) (hplay : c.playing = true) (harr : c.arrival seqno ≠ .late)
    (hreach : c.arrival seqno = .expected ∨ c.arrival seqno = .newer →
      seqOrder c.abRead (seqno + 1)) :
    ahead c.abRead (c.writeAfter seqno) < 32768 ∧
      ahead c.abRead (c.writeAfter seqno + 1) < 32768 := by
  obtain ⟨hshort, -⟩ := h hplay
  rcases Rtp.arrival_cases hshort seqno with ⟨hb, hw, -⟩ | ⟨hb, hw, -⟩ | ⟨-, hw, hin⟩ | ⟨hb, -⟩
  · have hfar := seqOrder_iff.mp (hreach (.inl hb))
    have := ahead_pred hfar.1
    rw [hw]
    omega
  · have hfar := seqOrder_iff.mp (hreach (.inr hb))
    have := ahead_pred hfar.1
    rw [hw]
    omega
  · -- a packet can only be recovered from a window that has a position
    have := ahead_pred (a := c.abRead) (b := c.abWrite) (by omega)
    rw [hw]
    omega
  · exact absurd hb harr

/-- A packet in reach keeps the window. -/
theorem receive (h : WindowAt c next) (seqno : Seq) (hplay : c.playing = true)
    (hreach : c.arrival seqno = .expected ∨ c.arrival seqno = .newer →
      seqOrder c.abRead (seqno + 1))
    (hne : seqno ≠ c.abRead + 32767) (rtptime : BitVec 32) (pcm : List UInt8)
    (clock : ℕ → BitVec 32) :
    ∃ next', Runs.watch watchWindow next (c.receive seqno rtptime pcm clock).2 = some next' ∧
      WindowAt (c.receive seqno rtptime pcm clock).1 next' := by
  apply Rtp.watch_receive
  · intro next first last
    cases next <;> rfl
  · exact fun c c' next hs h => h.same hs
  · exact fun c next c' o hold now h hp hpop hf => h.pushFrame hp hpop hf
  · exact fun harr => ⟨h.late hplay harr hne, h⟩
  · intro harr
    obtain ⟨hnear, hshort⟩ := h.place hplay harr hreach
    obtain ⟨-, n, rfl, hn⟩ := h hplay
    exact ⟨hnear, some n, rfl, fun _ => ⟨hshort, n, rfl, hn⟩⟩

/-- Playback starts with a window of no position. -/
theorem startAt (c : Rtp) (seqno : Seq) : WindowAt (c.startAt seqno) (some seqno.toNat) := by
  intro _
  refine ⟨?_, seqno.toNat, rfl, ?_⟩
  · show ahead seqno (seqno - 1 + 1) < 32768
    rw [BitVec.sub_add_cancel, ahead_self]
    decide
  · show seqno = BitVec.ofNat 16 seqno.toNat
    rw [BitVec.ofNat_toNat, BitVec.setWidth_eq]

end WindowAt

theorem rtpStep_window {decode : List UInt8 → List UInt8} {c : Rtp} {next : Option ℕ} {e : RtpEvent}
    (h : WindowAt c next) (hreach : inReach c e = true) :
    ∃ next', Runs.watch watchWindow next (rtpStep decode c e).2 = some next' ∧
      WindowAt (rtpStep decode c e).1 next' := by
  cases e with
  | packet seqno rtptime data clock =>
      simp only [rtpStep, Rtp.bufferPutPacket]
      split
      · rename_i hplay
        simp only [inReach, hplay, Bool.not_true, Bool.false_or, Bool.and_eq_true,
          Bool.or_eq_true, bne_iff_ne, decide_eq_true_eq] at hreach
        obtain ⟨hfar, hne⟩ := hreach
        apply h.receive seqno hplay _ hne
        intro hbranch
        rcases hfar with ⟨hexp, hnew⟩ | hfar
        · rcases hbranch with hb | hb
          · exact absurd hb hexp
          · exact absurd hb hnew
        · exact hfar
      split
      · -- the first packet is at most one step away
        have hstart := WindowAt.startAt c seqno
        obtain ⟨next', hw, h'⟩ := hstart.receive seqno rfl
          (fun _ => by
            show seqOrder seqno (seqno + 1)
            rw [seqOrder_iff, ahead_succ_self (by decide)]
            decide)
          (by show seqno ≠ seqno + 32767; bv_omega) rtptime (decode data) clock
        refine ⟨next', ?_, h'⟩
        rw [Runs.watch_cons]
        show (some (some seqno.toNat)).bind _ = _
        rw [Option.bind_some, hw]
      · exact ⟨next, rfl, h⟩
  | flush seqno rtptime now =>
      refine ⟨next, rfl, ?_⟩
      simp only [rtpStep, Rtp.rtpFlush]
      split
      · exact h
      · -- not playing any more
        intro hplay
        cases hplay
  | record seqno rtptime now => exact ⟨next, rfl, h⟩
  | sync rtpNowLatency remote rtpNow flags =>
      simp only [rtpStep, Rtp.syncPacket]
      split
      · exact ⟨next, rfl, h⟩
      · refine ⟨next, ?_, h⟩
        split
        · cases next <;> rfl
        · rfl
  | timing reference remote now =>
      refine ⟨next, rfl, ?_⟩
      simp only [rtpStep, Rtp.timingPacket]
      split
      · exact h
      · exact h

/-- Positions are left in order, from the window, and only packets behind them are dropped,
in every run in which the packets that come in while playing are in reach. -/
theorem window_order (decode : List UInt8 → List UInt8) (latency frameSize : BitVec 32)
    (evs : List RtpEvent)
    (hreach : (rtpMachine decode).Along (fun c e => inReach c e = true)
      (rtpInit latency frameSize) evs) :
    WindowOrder decode (rtpInit latency frameSize) evs := by
  obtain ⟨next, hwatch, h⟩ := (rtpMachine decode).run_watched (δ := watchWindow) (R := WindowAt)
    (P := fun c e => inReach c e = true) (fun c next e h he => rtpStep_window h he)
    (fun hplay => absurd hplay (by simp [rtpInit])) hreach
  refine ⟨next, hwatch, ?_⟩
  intro hplay
  obtain ⟨hshort, n, rfl, hn⟩ := h hplay
  refine ⟨congrArg some hn.symm, ?_⟩
  rw [toInt_sub_nonneg_iff]
  show 2 * _ < 65536
  omega

/-- Packets that come out of order, one of them twice and one too late. -/
theorem window_order_run :
    WindowOrder id (rtpInit 0 352) (synced ++ [numbered 65535, numbered 1, numbered 0, numbered 0,
      numbered 65535, numbered 2]) :=
  window_order _ _ _ _ (by decide)

/-- A packet 32767 positions after `ab_write` is taken, and then the one before it is dropped
as too late, though its position is 32767 positions ahead. -/
theorem window_overrun :
    ¬ WindowOrder id (rtpInit 0 352) (synced ++ [numbered 0, numbered 2, numbered 32769,
      numbered 32768]) := by
  rintro ⟨next, hwatch, -⟩
  have hnone : Runs.watch watchWindow none ((rtpMachine id).run (rtpInit 0 352)
      (synced ++ [numbered 0, numbered 2, numbered 32769, numbered 32768])).2 = none := by
    decide
  rw [hnone] at hwatch
  cases hwatch

end SqueezeliteMuse
