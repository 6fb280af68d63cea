/-
SqueezeliteMuse/RtpPcm.lean

What the AirPlay receiver plays at a position.

A slot serves every position that is the same modulo `BUFFER_FRAMES`.  `watchPcm`
keeps, for each sequence number, the PCM of the last packet that was accepted
with it, and whether that packet has still to be played; it wants a slot passed
at a position to hold the PCM of that position, and silence only where no packet
is waiting.

The link `Slots` says that a slot that is ready belongs to the first position of
the window that has this slot.  It is lost when a packet is stored in a slot
that an earlier position of the window has as well (`slotFree` is the
condition), which takes a window longer than the ring: `ab_write` is moved to a
packet however far ahead it is, and `ab_read` stays.

Main result: `pcm_identity`, with `pcm_overwritten` when a slot is taken.
-/
import SqueezeliteMuse.Rtp

namespace SqueezeliteMuse

open Serial

/-- What has been accepted since playback started: the PCM last accepted with each
sequence number, and which of them have not been played. -/
structure Accepted where
  last : Seq → Option (List UInt8)
  waiting : Seq → Bool

/-- Nothing yet. -/
def Accepted.nothing : Accepted := ⟨fun _ => none, fun _ => false⟩

/-- The position `seqno` is left. -/
def Accepted.leave (a : Accepted) (seqno : Seq) : Accepted :=
  { a with waiting := fun q => if q = seqno then false else a.waiting q }

/-- The PCM `pcm` is accepted with `seqno`. -/
def Accepted.accept (a : Accepted) (seqno : Seq) (pcm : List UInt8) : Accepted where
  last := fun q => if q = seqno then some pcm else a.last q
  waiting := fun q => if q = seqno then true else a.waiting q

/-- The observer. -/
def watchPcm (a : Accepted) : RtpObs → Option Accepted
  | .play _ _ => some .nothing
  | .stored seqno pcm => some (a.accept seqno pcm)
  | .pop seqno _ (.frame pcm _) => if a.last seqno = some pcm then some (a.leave seqno) else none
  | .pop seqno _ (.silence _ _) => if a.waiting seqno then none else some a
  | .pop seqno _ .discarded => some (a.leave seqno)
  | .timing | .late _ | .resend _ _ => some a

/-- What is to be of the PCM in the run of a receiver: what is passed at a position is
the PCM of the packet last accepted for it, and a packet accepted for a position is
played there, or discarded as late, or is still in the window. -/
def PcmIdentity (decode : List UInt8 → List UInt8) (c₀ : Rtp) (evs : List RtpEvent) : Prop :=
  ∃ a, Runs.watch watchPcm .nothing ((rtpMachine decode).run c₀ evs).2 = some a ∧
    (((rtpMachine decode).run c₀ evs).1.playing = true → ∀ seqno, a.waiting seqno = true →
      ahead ((rtpMachine decode).run c₀ evs).1.abRead seqno <
        ahead ((rtpMachine decode).run c₀ evs).1.abRead
          (((rtpMachine decode).run c₀ evs).1.abWrite + 1))

/-- A packet that comes in while playing and is not too late finds a slot that no position
from `ab_read` up to its own has. -/
def slotFree (c : Rtp) : RtpEvent → Bool
  | .packet seqno _ _ _ => !c.playing || c.arrival seqno == .late ||
      (List.range (ahead c.abRead seqno)).all fun j =>
        bufIdx (c.abRead + BitVec.ofNat 16 j) != bufIdx seqno
  | _ => true

/-! ### Slots -/

/-- Two positions 375 apart have the same slot, and so have two positions 661 apart
across the wrap. -/
theorem exists_alias {r seqno : Seq} (h : 661 ≤ ahead r seqno) :
    ∃ q, ahead r q < ahead r seqno ∧ bufIdx q = bufIdx seqno := by
  have hslot : ∀ q : Seq, q.toNat % 375 = seqno.toNat % 375 → bufIdx q = bufIdx seqno :=
    fun q hq => Fin.ext hq
  have hlt := seqno.isLt
  by_cases hlow : seqno.toNat < 375
  · -- 65536 is 174 times 375 and 286 more
    by_cases hwrap : seqno.toNat < 286
    · refine ⟨seqno - 286, ?_, hslot _ ?_⟩
      · simp only [ahead] at *
        bv_omega
      · rw [show (seqno - 286).toNat = seqno.toNat + 375 * 174 by bv_omega,
          Nat.add_mul_mod_self_left]
    · refine ⟨seqno - 661, ?_, hslot _ ?_⟩
      · simp only [ahead] at *
        bv_omega
      · rw [show (seqno - 661).toNat = seqno.toNat + 375 * 173 by bv_omega,
          Nat.add_mul_mod_self_left]
  · refine ⟨seqno - 375, ?_, hslot _ ?_⟩
    · simp only [ahead] at *
      bv_omega
    · rw [← Nat.add_mod_right (seqno - 375).toNat,
        show (seqno - 375).toNat + 375 = seqno.toNat by bv_omega]

/-- No position from `r` up to `seqno` has its slot. -/
def FirstOfSlot (r seqno : Seq) : Prop :=
  ∀ q, ahead r q < ahead r seqno → bufIdx q ≠ bufIdx seqno

theorem FirstOfSlot.near {r seqno : Seq} (h : FirstOfSlot r seqno) : ahead r seqno < 661 := by
  by_contra hfar
  obtain ⟨q, hq, hslot⟩ := exists_alias (Nat.le_of_not_lt hfar)
  exact h q hq hslot

theorem FirstOfSlot.succ {r seqno : Seq} (h : FirstOfSlot r seqno) (hne : r ≠ seqno) :
    FirstOfSlot (r + 1) seqno := by
  intro q hq
  have hpos : 0 < ahead r seqno := Nat.pos_of_ne_zero fun h0 => hne (ahead_eq_zero_iff.mp h0)
  have hlt := ahead_lt r seqno
  rw [ahead_succ_left hpos] at hq
  apply h q
  have hone : ahead r (r + 1) = 1 := ahead_succ_self (by decide)
  rw [ahead_add (b := r + 1) (by omega), hone]
  omega

/-- The link between the slots and the packets that have still to be played. -/
structure Slots (c : Rtp) (a : Accepted) : Prop where
  /-- while playing, the window is short -/
  short : c.playing = true → ahead c.abRead (c.abWrite + 1) < 32768
  /-- a slot is ready for a position that waits -/
  ready : ∀ k, (c.audioBuffer k).ready = true →
    c.playing = true ∧ ∃ seqno, bufIdx seqno = k ∧ a.waiting seqno = true
  /-- a position that waits is in the window, first of its slot, and the slot is its own -/
  waiting : c.playing = true → ∀ seqno, a.waiting seqno = true →
    ahead c.abRead seqno < ahead c.abRead (c.abWrite + 1) ∧ FirstOfSlot c.abRead seqno ∧
    (c.audioBuffer (bufIdx seqno)).ready = true ∧
    a.last seqno = some (c.audioBuffer (bufIdx seqno)).data

namespace Slots

variable {c c' : Rtp} {a : Accepted} {seqno : Seq}

theorem same (hs : Rtp.Same c c') (h : Slots c a) : Slots c' a where
  short := by
    rw [hs.playing, hs.abRead, hs.abWrite]
    exact h.short
  ready := by
    intro k hk
    rw [hs.playing]
    exact h.ready k ((hs.ready k).symm.trans hk)
  waiting := by
    rw [hs.playing, hs.abRead, hs.abWrite]
    intro hplay q hq
    rw [hs.ready, hs.data]
    exact h.waiting hplay q hq

/-- The slot at `ab_read` is ready for `ab_read` only. -/
theorem ready_at_read (h : Slots c a) (hready : (c.audioBuffer (bufIdx c.abRead)).ready = true) :
    a.waiting c.abRead = true ∧ a.last c.abRead = some (c.audioBuffer (bufIdx c.abRead)).data := by
  obtain ⟨hplay, q, hslot, hq⟩ := h.ready _ hready
  obtain ⟨-, hfirst, -, hlast⟩ := h.waiting hplay q hq
  have hhead : c.abRead = q := by
    by_contra hne
    have hpos : 0 < ahead c.abRead q := Nat.pos_of_ne_zero fun h0 => hne (ahead_eq_zero_iff.mp h0)
    exact hfirst c.abRead (by rwa [ahead_self]) hslot.symm
  rw [← hhead] at hq hlast
  exact ⟨hq, hlast⟩

/-- Once `ab_read` is left, and its slot is not ready, the others are as before. -/
theorem leave (h : Slots c a) (hpop : c.Populated) (hplay : c'.playing = c.playing)
    (hread : c'.abRead = c.abRead + 1) (hwrite : c'.abWrite = c.abWrite)
    (hslot : (c'.audioBuffer (bufIdx c.abRead)).ready = false)
    (hothers : ∀ k, k ≠ bufIdx c.abRead → c'.audioBuffer k = c.audioBuffer k) :
    Slots c' (a.leave c.abRead) where
  short := by
    intro hp
    have hshort := h.short (hplay ▸ hp)
    have hlast := Rtp.populated_iff.mp hpop
    have hlong : ahead c.abRead (c.abWrite + 1) = ahead c.abRead c.abWrite + 1 :=
      ahead_succ_right (by omega)
    rw [hread, hwrite, ahead_succ_left (by omega)]
    omega
  ready := by
    intro k hk
    have hk' : k ≠ bufIdx c.abRead := by
      rintro rfl
      rw [hslot] at hk
      cases hk
    rw [hothers k hk'] at hk
    obtain ⟨hp, q, hq, hw⟩ := h.ready k hk
    refine ⟨hplay.trans hp, q, hq, ?_⟩
    have hne : q ≠ c.abRead := by
      rintro rfl
      exact hk' hq.symm
    exact (if_neg hne).trans hw
  waiting := by
    intro hp q hq
    have hne : q ≠ c.abRead := by
      rintro rfl
      simp [Accepted.leave] at hq
    obtain ⟨hin, hfirst, hready, hlast⟩ := h.waiting (hplay ▸ hp) q ((if_neg hne).symm.trans hq)
    have hpos : 0 < ahead c.abRead q :=
      Nat.pos_of_ne_zero fun h0 => hne (ahead_eq_zero_iff.mp h0).symm
    have hother : bufIdx q ≠ bufIdx c.abRead := fun he => hfirst c.abRead (by rwa [ahead_self]) he.symm
    rw [hread, hwrite, hothers _ hother]
    refine ⟨?_, hfirst.succ hne.symm, hready, hlast⟩
    rw [ahead_succ_left hpos, ahead_succ_left (by omega)]
    omega

/-- What is passed to `data_cb` is what was accepted. -/
theorem pushFrame {o : RtpObs} {hold now : BitVec 32} (h : Slots c a) (hplay : c.playing = true)
    (hpop : c.Populated) (hf : c.pushFrame hold now = some (c', o)) :
    ∃ a', watchPcm a o = some a' ∧ Slots c' a' := by
  have hunready : (c.unready.audioBuffer (bufIdx c.abRead)).ready = false := by
    simp [Rtp.unready, Rtp.setSlot]
  have hothers : ∀ k, k ≠ bufIdx c.abRead → c.unready.audioBuffer k = c.audioBuffer k :=
    fun k hk => if_neg hk
  unfold Rtp.pushFrame at hf
  split at hf
  · cases hf
    exact ⟨_, rfl, h.leave hpop rfl rfl rfl hunready hothers⟩
  split at hf
  · rename_i hready
    cases hf
    exact ⟨_, if_pos (h.ready_at_read hready).2, h.leave hpop rfl rfl rfl hunready hothers⟩
  rename_i hready
  rw [Bool.not_eq_true] at hready
  split at hf
  · -- silence: no packet waits, or the slot would be ready
    cases hf
    have hno : a.waiting c.abRead = false := by
      by_contra hw
      obtain ⟨-, -, hr, -⟩ := h.waiting hplay c.abRead ((Bool.not_eq_false _).mp hw)
      rw [hready] at hr
      cases hr
    have hleave : a.leave c.abRead = a := by
      unfold Accepted.leave
      congr
      funext q
      split
      · rename_i hq
        rw [hq, hno]
      · rfl
    refine ⟨a, by simp [watchPcm, hno], ?_⟩
    rw [← hleave]
    exact h.leave hpop rfl rfl rfl hready fun k _ => rfl
  · cases hf

/-- A packet stored in a slot that is free for it. -/
theorem store (h : Slots c a) (hplay : c.playing = true) (harr : c.arrival seqno ≠ .late)
    (hfirst : FirstOfSlot c.abRead seqno) (rtptime : BitVec 32) (pcm : List UInt8) :
    ahead c.abRead (c.writeAfter seqno) < 32768 ∧
      Slots ({ c with abWrite := c.writeAfter seqno }.store seqno rtptime pcm)
        (a.accept seqno pcm) := by
  have hshort := h.short hplay
  have hnear := hfirst.near
  -- the window reaches at least as far as before, and has the packet
  obtain ⟨hlast, hlong, hkeep, hin⟩ : ahead c.abRead (c.writeAfter seqno) < 32768 ∧
      ahead c.abRead (c.writeAfter seqno + 1) < 32768 ∧
      ahead c.abRead (c.abWrite + 1) ≤ ahead c.abRead (c.writeAfter seqno + 1) ∧
      ahead c.abRead seqno < ahead c.abRead (c.writeAfter seqno + 1) := by
    have hsucc : ahead c.abRead (seqno + 1) = ahead c.abRead seqno + 1 :=
      ahead_succ_right (by omega)
    rcases Rtp.arrival_cases hshort seqno with ⟨-, hw, hd⟩ | ⟨-, hw, hd⟩ | ⟨-, hw, hd⟩ | ⟨hb, -⟩
    · rw [hw]; omega
    · rw [hw]; omega
    · have := ahead_pred (a := c.abRead) (b := c.abWrite) (by omega)
      rw [hw]; omega
    · exact absurd hb harr
  refine ⟨hlast, fun _ => hlong, ?_, ?_⟩
  · intro k hk
    refine ⟨hplay, ?_⟩
    by_cases hslot : bufIdx seqno = k
    · exact ⟨seqno, hslot, if_pos rfl⟩
    · have hk' : (c.audioBuffer k).ready = true := by
        simpa [Rtp.store, Rtp.setSlot, Ne.symm hslot] using hk
      obtain ⟨-, q, hq, hwait⟩ := h.ready k hk'
      refine ⟨q, hq, ?_⟩
      show (if q = seqno then true else a.waiting q) = true
      rw [hwait, ite_self]
  · intro _ q hq
    by_cases heq : q = seqno
    · subst heq
      exact ⟨hin, hfirst, by simp [Rtp.store, Rtp.setSlot],
        by simp [Accepted.accept, Rtp.store, Rtp.setSlot]⟩
    · obtain ⟨hin', hfirst', hready, hlast'⟩ := h.waiting hplay q ((if_neg heq).symm.trans hq)
      -- the earlier of the two positions is the first of its slot
      have hother : bufIdx q ≠ bufIdx seqno := by
        intro hslot
        rcases Nat.lt_trichotomy (ahead c.abRead q) (ahead c.abRead seqno) with hlt | he | hlt
        · exact hfirst q hlt hslot
        · exact heq (ahead_inj he)
        · exact hfirst' seqno hlt hslot.symm
      refine ⟨Nat.lt_of_lt_of_le hin' hkeep, hfirst', ?_, ?_⟩
      · simpa [Rtp.store, Rtp.setSlot, hother] using hready
      · simpa [Accepted.accept, heq, Rtp.store, Rtp.setSlot, hother] using hlast'

/-- A packet that finds its slot free keeps the link. -/
theorem receive (h : Slots c a) (seqno : Seq) (hplay : c.playing = true)
    (hfree : c.arrival seqno ≠ .late → FirstOfSlot c.abRead seqno) (rtptime : BitVec 32)
    (pcm : List UInt8) (clock : ℕ → BitVec 32) :
    ∃ a', Runs.watch watchPcm a (c.receive seqno rtptime pcm clock).2 = some a' ∧
      Slots (c.receive seqno rtptime pcm clock).1 a' := by
  apply Rtp.watch_receive
  · exact fun a first last => rfl
  · exact fun c c' a hs h => h.same hs
  · exact fun c a c' o hold now h hp hpop hf => h.pushFrame hp hpop hf
  · exact fun harr => ⟨rfl, h⟩
  · intro harr
    obtain ⟨hlast, hstore⟩ := h.store hplay harr (hfree harr) rtptime pcm
    exact ⟨hlast, a.accept seqno pcm, rfl, hstore⟩

/-- Playback starts with no slot ready. -/
theorem startAt (h : Slots c a) (hstop : c.playing = false) (seqno : Seq) :
    Slots (c.startAt seqno) .nothing where
  short := by
    intro _
    show ahead seqno (seqno - 1 + 1) < 32768
    rw [BitVec.sub_add_cancel, ahead_self]
    decide
  ready := by
    intro k hk
    have hplay := (h.ready k hk).1
    rw [hstop] at hplay
    cases hplay
  waiting := by
    intro _ q hq
    cases hq

end Slots

theorem firstOfSlot_of_all {r seqno : Seq}
    (h : ((List.range (ahead r seqno)).all fun j =>
      bufIdx (r + BitVec.ofNat 16 j) != bufIdx seqno) = true) : FirstOfSlot r seqno := by
  intro q hq
  rw [List.all_eq_true] at h
  have hne := h (ahead r q) (List.mem_range.mpr hq)
  rwa [add_ahead, bne_iff_ne] at hne

theorem rtpStep_slots {decode : List UInt8 → List UInt8} {c : Rtp} {a : Accepted} {e : RtpEvent}
    (h : Slots c a) (hfree : slotFree c e = true) :
    ∃ a', Runs.watch watchPcm a (rtpStep decode c e).2 = some a' ∧
      Slots (rtpStep decode c e).1 a' := by
  cases e with
  | packet seqno rtptime data clock =>
      simp only [rtpStep, Rtp.bufferPutPacket]
      split
      · rename_i hplay
        simp only [slotFree, hplay, Bool.not_true, Bool.false_or, Bool.or_eq_true,
          beq_iff_eq] at hfree
        apply h.receive seqno hplay
        intro harr
        exact firstOfSlot_of_all (hfree.resolve_left harr)
      split
      · rename_i hplay _
        have hstart := h.startAt ((Bool.not_eq_true _).mp hplay) seqno
        obtain ⟨a', hw, h'⟩ := hstart.receive seqno rfl
          (fun _ q hq => absurd hq (by show ¬ ahead seqno q < ahead seqno seqno; simp))
          rtptime (decode data) clock
        exact ⟨a', hw, h'⟩
      · exact ⟨a, rfl, h⟩
  | flush seqno rtptime now =>
      refine ⟨a, rfl, ?_⟩
      simp only [rtpStep, Rtp.rtpFlush]
      split
      · exact h
      · -- `buffer_reset` leaves no slot ready
        exact ⟨fun hp => absurd hp Bool.false_ne_true, fun k hk => absurd hk Bool.false_ne_true,
          fun hp => absurd hp Bool.false_ne_true⟩
  | record seqno rtptime now =>
      exact ⟨a, rfl, ⟨h.short, h.ready, h.waiting⟩⟩
  | sync rtpNowLatency remote rtpNow flags =>
      simp only [rtpStep, Rtp.syncPacket]
      split
      · exact ⟨a, rfl, h⟩
      · refine ⟨a, ?_, ⟨h.short, h.ready, h.waiting⟩⟩
        split <;> rfl
  | timing reference remote now =>
      refine ⟨a, rfl, ?_⟩
      simp only [rtpStep, Rtp.timingPacket]
      split
      · exact h
      · exact ⟨h.short, h.ready, h.waiting⟩

/-- Every position is passed its own PCM, and no packet accepted is lost, in every run in which
each packet accepted while playing finds its slot free. -/
theorem pcm_identity (decode : List UInt8 → List UInt8) (latency frameSize : BitVec 32)
    (evs : List RtpEvent)
    (hfree : (rtpMachine decode).Along (fun c e => slotFree c e = true)
      (rtpInit latency frameSize) evs) :
    PcmIdentity decode (rtpInit latency frameSize) evs := by
  have hinit : Slots (rtpInit latency frameSize) .nothing :=
    ⟨fun hp => absurd hp Bool.false_ne_true, fun k hk => absurd hk Bool.false_ne_true,
      fun hp => absurd hp Bool.false_ne_true⟩
  obtain ⟨a, hwatch, h⟩ := (rtpMachine decode).run_watched (δ := watchPcm) (R := Slots)
    (P := fun c e => slotFree c e = true) (fun c a e h he => rtpStep_slots h he) hinit hfree
  exact ⟨a, hwatch, fun hplay seqno hw => (h.waiting hplay seqno hw).1⟩

/-- Packets out of order across the wrap, one of them twice, one too late, and a flush. -/
theorem pcm_identity_run :
    PcmIdentity id (rtpInit 0 352) (synced ++ [numbered 65535, numbered 2, numbered 1, numbered 1,
      numbered 65534, .flush 5 0 1000, numbered 5, numbered 6]) :=
  pcm_identity _ _ _ _ (by decide)

/-- Packet 376 is stored in the slot of packet 1, which is missing, and is played in its
place. -/
theorem pcm_overwritten :
    ¬ PcmIdentity id (rtpInit 0 352) (synced ++ [numbered 0, numbered 2, numbered 376]) := by
  rintro ⟨a, hwatch, -⟩
  have hnone : (Runs.watch watchPcm .nothing ((rtpMachine id).run (rtpInit 0 352)
      (synced ++ [numbered 0, numbered 2, numbered 376])).2).isNone = true := by
    decide
  rw [hwatch] at hnone
  cases hnone

end SqueezeliteMuse
