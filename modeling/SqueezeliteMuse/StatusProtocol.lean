/-
SqueezeliteMuse/StatusProtocol.lean

The status protocol: the decoder is started once for a stream, and can be started.

`decode.state` is `DECODE_READY` between the opening of a codec and the start of the decoder.  The
decoder is started by the pass that finds the stream running, or at its end; it finds the end in
one pass only, and it does not find the stream running before more bytes have come than
`stream.threshold`.  So that the decoder can be started, `streambuf` must hold more than that, and
when the pass comes that finds the end, the codec must be open and `autostart` down to 0 or 1
(`Slim.keepsStart`).

`Fills` is what holds of the stream while it comes in, `Startable` what holds of the player with
it.  In a state in which the decoder is expected to start (`Expects`), the rest of the pass and
another one start it (`starts_of_expects`).

Main result: `status_protocol`, with `status_lost` for what goes wrong without the conditions.
-/
import SqueezeliteMuse.StatusReports

namespace SqueezeliteMuse

open Reports

variable {x : SlimSetup} {s : Slim} {l : Pass} {e : SlimEvent} {r : Slim × List SlimObs}

/-! ### One start -/

/-- The decoder is started once at most, from one strm 's' to the next, or to strm 'q' or 'f'. -/
def watchStarted (b : Bool) : SlimObs → Option Bool
  | .opened | .ordered => some false
  | .started => if b then none else some true
  | _ => some b

/-- No codec is opened by codc once the decoder was started with `autostart` 1.  With `autostart`
0, STMl has been sent, and the decoder is not started again. -/
def Slim.startsOnce (x : SlimSetup) (s : Slim) : SlimEvent → Bool
  | .codc format _ _ => !x.known format || !s.started || s.sentSTMl
  | _ => true

/-- Whether the decoder was started, and that it is not about to be again. -/
structure StartedOnce (s : Slim) (b : Bool) : Prop where
  seen : b = s.started
  once : s.output.decodeState = .ready → s.started = true → s.sentSTMl = true

/-- At the end of a pass packets are sent, and nothing is started. -/
theorem watchStarted_passEnd (s : Slim) (l : Pass) (b : Bool) :
    Runs.watch watchStarted b (s.passEnd l).2 = some b := by
  have hstat : ∀ (due : Bool) (event : UpdateStat) (b : Bool),
      Runs.watch watchStarted b (s.stat due event) = some b := by
    intro due event
    refine Runs.watch_ignored fun o ho b => ?_
    obtain ⟨-, rfl⟩ := mem_stat ho
    rfl
  refine watch_passEnd s l (fun _ _ => rfl) ?_
  rcases l.sendDSCO with - | code
  · simp only [Runs.watch_append, Option.toList_none, List.map_nil, Runs.watch_nil,
      Option.bind_some, hstat]
    rfl
  · simp only [Runs.watch_append, Option.toList_some, List.map_cons, List.map_nil,
      Runs.watch_cons, Runs.watch_nil, watchStarted, Option.bind_some, hstat]

theorem startedOnce_step {b : Bool} (h : StartedOnce s b) (hact : Acts x s e r)
    (hkeep : s.startsOnce x e = true) :
    ∃ b', Runs.watch watchStarted b r.2 = some b' ∧ StartedOnce r.1 b' := by
  have hkept : ∀ {s' : Slim}, s'.started = s.started → s'.sentSTMl = s.sentSTMl →
      (s'.output.decodeState = .ready → s.output.decodeState = .ready) → StartedOnce s' b := by
    intro s' hs hl hd
    exact ⟨h.seen.trans hs.symm, fun hr hst => hl.trans (h.once (hd hr) (hs ▸ hst))⟩
  cases hact with
  | ignored => exact ⟨b, rfl, h⟩
  | top _ _ | poll _ =>
      refine ⟨b, Runs.watch_ignored (fun o ho b => ?_) b, hkept rfl rfl id⟩
      rw [mem_threaded ho]
      rfl
  | timeout | cont _ _ => exact ⟨b, rfl, hkept rfl rfl id⟩
  | unseen ho => exact ⟨b, rfl, hkept rfl rfl fun hr => ho.decodeState.symm.trans hr⟩
  | decode n bs _ =>
      exact ⟨b, rfl, hkept rfl rfl fun hr => (decodeState_decoded _ bs).symm.trans hr⟩
  | decodeDone ok hrun =>
      refine ⟨b, rfl, hkept rfl rfl fun hr => ?_⟩
      have hdone := (decodeState_decodeDone hrun ok).symm.trans hr
      rcases ok with - | - <;> cases hdone
  | passStream _ => exact ⟨b, rfl, hkept rfl rfl id⟩
  | @passDecode l hp =>
      have hupdate := decodeState_updateDecode s.output (s.starts l)
      rcases hstarts : s.starts l with - | -
      · refine ⟨b, by simp [Slim.passDecode, hstarts], ?_, fun hr hst => ?_⟩
        · show b = (s.started || s.starts l)
          rw [hstarts, Bool.or_false]
          exact h.seen
        · have hst : (s.started || s.starts l) = true := hst
          rw [hstarts, Bool.or_false] at hst
          have hready : s.output.decodeState = .ready := by
            have hr : (s.output.updateDecode (s.starts l)).decodeState = .ready := hr
            rw [hupdate] at hr
            rcases hd : s.output.decodeState <;> rw [hd] at hr <;> first | rfl | cases hr
          show (s.sentSTMl || _) = true
          rw [h.once hready hst, Bool.true_or]
      · -- it was not started before
        have hdue : s.startDue l = true := (Bool.and_eq_true_iff.mp hstarts).1
        obtain ⟨hsent, hready⟩ := startDue_iff s l hdue
        have hfirst : s.started = false := by
          rcases hst : s.started with - | -
          · rfl
          · rw [h.once hready hst] at hsent
            cases hsent
        refine ⟨true, ?_, ?_, fun hr _ => ?_⟩
        · simp [Slim.passDecode, hstarts, watchStarted, h.seen, hfirst]
        · show true = (s.started || s.starts l)
          rw [hstarts, Bool.or_true]
        · have hr : (s.output.updateDecode (s.starts l)).decodeState = .ready := hr
          rw [hupdate, hready, hstarts] at hr
          cases hr
  | passOutput timeout tick hp => exact ⟨b, rfl, hkept rfl rfl id⟩
  | @passEnd l hp =>
      exact ⟨b, watchStarted_passEnd s l b, hkept rfl rfl id⟩
  | strmStart a hp =>
      by_cases hrefused : a.refused = true
      · simp only [Slim.strmStart, if_pos hrefused]
        exact ⟨b, rfl, hkept rfl rfl id⟩
      · simp only [Slim.strmStart, if_neg hrefused]
        refine ⟨false, ?_, rfl, fun _ hst => by cases hst⟩
        rcases a.target.failed with - | - <;> rfl
  | strmStop hp => exact ⟨false, rfl, rfl, fun hr _ => by cases hr⟩
  | codc format size channels hp =>
      have hkept := remembers_codecOpen x.known format size channels s
      refine ⟨b, rfl, h.seen.trans hkept.started.symm, fun hr hst => ?_⟩
      rw [hkept.started] at hst
      rw [hkept.sentSTMl]
      rw [decodeState_codecOpen] at hr
      split at hr
      · rename_i hknown
        simpa [Slim.startsOnce, hknown, hst] using hkeep
      · cases hr

/-! ### A buffer of any size -/

/-- A buffer in good order, or one of size 0. -/
def Buffer.Sized (b : Buffer) : Prop :=
  b.Wf ∨ (b.size = 0 ∧ b.readp = b.buf ∧ b.writep = b.buf ∧ b.wrap = b.buf)

/-- There are bytes in the buffer, and there is no room for more. -/
def Buffer.Full (b : Buffer) : Prop := bufUsed b ≠ 0 ∧ bufSpace b = 0

namespace Buffer.Sized

variable {b : Buffer}

theorem init (blk : Block) (size : ℕ) : (bufInit blk size).Sized := by
  rcases Nat.eq_zero_or_pos size with rfl | hpos
  · exact .inr ⟨rfl, rfl, rfl, rfl⟩
  · exact .inl (wf_bufInit blk hpos)

theorem flush (h : b.Sized) : (bufFlush b).Sized := by
  rcases h with h | ⟨hsize, -, -, hwrap⟩
  · exact .inl (wf_bufFlush h)
  · exact .inr ⟨hsize, rfl, rfl, hwrap⟩

theorem adjust (h : b.Sized) (mod : ℕ) : (bufAdjust b mod).Sized := by
  by_cases hfits : 0 < mod ∧ mod ≤ b.size
  · rcases h with h | ⟨hsize, -⟩
    · exact .inl (wf_bufAdjust h hfits.1 hfits.2)
    · omega
  · have hzero : b.size / mod * mod = 0 := by
      rcases Nat.eq_zero_or_pos mod with rfl | hpos
      · exact Nat.mul_zero _
      · rw [Nat.div_eq_of_lt (by omega), Nat.zero_mul]
    refine .inr ⟨hzero, rfl, rfl, ?_⟩
    show b.buf + b.size / mod * mod = b.buf
    rw [hzero, Nat.add_zero]

/-- Bytes come where there is room. -/
theorem append (h : b.Sized) {bs : List UInt8} (hne : bs ≠ [])
    (hle : bs.length ≤ min (bufSpace b) (bufContWrite b)) :
    (bufIncWritep (bufStore b bs) bs.length).Sized ∧
      bufUsed (bufIncWritep (bufStore b bs) bs.length) = bufUsed b + bs.length := by
  rcases h with h | ⟨hsize, -⟩
  · exact ⟨.inl (wf_bufAppend h hle), used_bufAppend h hle⟩
  · have hpos := List.length_pos_of_ne_nil hne
    unfold bufSpace at hle
    omega

theorem consume (h : b.Sized) {n : ℕ} (hn : n ≤ bufUsed b) :
    (bufIncReadp b n).Sized ∧ bufUsed (bufIncReadp b n) = bufUsed b - n := by
  rcases h with h | ⟨hsize, hread, hwrite, hwrap⟩
  · exact ⟨.inl (wf_bufIncReadp h (Nat.le_trans hn (Nat.le_of_lt h.used_lt))),
      used_bufIncReadp h hn⟩
  · have hused : bufUsed b = 0 := by
      unfold bufUsed
      rw [if_pos (by omega), hread, hwrite, Nat.sub_self]
    obtain rfl : n = 0 := by omega
    have hsame : bufIncReadp b 0 = b := by
      have hptr : (if b.readp + 0 ≥ b.wrap then b.readp + 0 - b.size else b.readp + 0) = b.readp := by
        rw [hsize]
        split <;> rfl
      unfold bufIncReadp
      rw [hptr]
    rw [hsame]
    exact ⟨.inr ⟨hsize, hread, hwrite, hwrap⟩, by omega⟩

end Buffer.Sized

theorem used_bufFlush (b : Buffer) : bufUsed (bufFlush b) = 0 := by simp [bufUsed, bufFlush]

theorem used_bufAdjust (b : Buffer) (mod : ℕ) : bufUsed (bufAdjust b mod) = 0 := by
  simp [bufUsed, bufAdjust]

/-- A codec that is opened finds `streambuf` as it was, or empty. -/
theorem codecBuffer_cases {b : Buffer} (h : b.Sized) (codec : Option UInt8)
    (format size channels : UInt8) :
    (codecBuffer codec format size channels b).Sized ∧
      (codecBuffer codec format size channels b = b ∨
        bufUsed (codecBuffer codec format size channels b) = 0) := by
  unfold codecBuffer
  dsimp only
  split
  · split
    · exact ⟨(h.adjust 1).adjust _, .inr (used_bufAdjust _ _)⟩
    · exact ⟨h.adjust _, .inr (used_bufAdjust _ _)⟩
  · split
    · exact ⟨h.adjust 1, .inr (used_bufAdjust _ _)⟩
    · exact ⟨h, .inl rfl⟩

/-! ### The stream comes in -/

/-- The stream has not got to its body. -/
def StreamState.head : StreamState → Bool
  | .sendHeaders | .recvHeaders | .streamingWait => true
  | _ => false

/-- What holds of a stream while it comes in.  `delivered` and `endedOk` are those of the player. -/
structure Fills (s : Streamer) (delivered endedOk : Bool) : Prop where
  sized : s.streambuf.Sized
  used_le : bufUsed s.streambuf ≤ s.bytes
  head : s.state.head = true → s.bytes = 0 ∧ delivered = false
  wait : s.state = .streamingWait → s.polling = none
  buffering : s.state = .streamingBuffering → s.bytes ≤ s.threshold
  room : s.state = .streamingBuffering → bufUsed s.streambuf ≠ 0 →
    s.threshold + 2 ≤ s.streambuf.size
  polling : s.polling ≠ none → ¬ s.streambuf.Full
  asleep : s.state.toend = true → s.polling = none ∨ s.fd = false
  ended : endedOk = true → s.state.toend = true

namespace Fills

variable {s s' : Streamer} {delivered endedOk : Bool}

/-- While the stream is buffered, `streambuf` does not get full. -/
theorem not_full (h : Fills s delivered endedOk) (hbuffer : s.state = .streamingBuffering) :
    ¬ s.streambuf.Full := by
  rintro ⟨hused, hspace⟩
  have hle := h.used_le
  have hbytes := h.buffering hbuffer
  have hroom := h.room hbuffer hused
  unfold bufSpace at hspace
  omega

/-- A stream that the thread does something about is not full. -/
theorem awake_not_full (h : Fills s delivered endedOk) (hawake : s.Awake) :
    ¬ s.streambuf.Full := by
  rcases hawake.2 with hpoll | ⟨-, hspace⟩
  · exact h.polling hpoll
  · rintro ⟨-, hfull⟩
    unfold Streamer.space at hspace
    rw [hfull, Nat.zero_min] at hspace
    exact hspace rfl

/-- Nothing is seen of the stream but that `streambuf` has been emptied, or has less in it. -/
theorem keep {b : Buffer} {polling : Option Bool} (h : Fills s delivered endedOk) (hsized : b.Sized)
    (hused : bufUsed b ≤ bufUsed s.streambuf) (hfull : b.Full → s.streambuf.Full)
    (hsize : bufUsed b ≠ 0 → b.size = s.streambuf.size)
    (hpoll : polling = s.polling ∨ polling = none) (autostart : ℤ) :
    Fills { s with streambuf := b, polling := polling, autostart := autostart }
      delivered endedOk where
  sized := hsized
  used_le := Nat.le_trans hused h.used_le
  head := h.head
  wait := fun hw => hpoll.elim (fun hp => hp.trans (h.wait hw)) id
  buffering := h.buffering
  room := by
    intro hb hu
    show s.threshold + 2 ≤ b.size
    have hu : bufUsed b ≠ 0 := hu
    rw [hsize hu]
    exact h.room hb (by omega)
  polling := by
    intro hp hf
    rcases hpoll with heq | heq
    · exact h.polling (heq ▸ hp) (hfull hf)
    · exact hp heq
  asleep := fun hend => (h.asleep hend).imp_left fun hp => hpoll.elim (fun heq => heq.trans hp) id
  ended := h.ended

/-- No byte has come, and the thread is not in `poll`. -/
theorem still {ended : Bool} (h : Fills s delivered endedOk) (hbytes : s'.bytes = s.bytes)
    (hthreshold : s'.threshold = s.threshold) (hbuf : s'.streambuf = s.streambuf)
    (hpoll : s'.polling = none) (hhead : s'.state.head = true → s.state.head = true)
    (hbuffer : s'.state = .streamingBuffering →
      s.state = .streamingBuffering ∨ s.state.head = true)
    (hended : ended = true → s'.state.toend = true) : Fills s' delivered ended where
  sized := by
    rw [hbuf]
    exact h.sized
  used_le := by
    rw [hbuf, hbytes]
    exact h.used_le
  head := by
    rw [hbytes]
    exact fun hh => h.head (hhead hh)
  wait := fun _ => hpoll
  buffering := by
    intro hb
    rw [hbytes, hthreshold]
    rcases hbuffer hb with hb' | hh
    · exact h.buffering hb'
    · have hzero := (h.head hh).1
      omega
  room := by
    intro hb hu
    rw [hbuf] at hu ⊢
    rw [hthreshold]
    rcases hbuffer hb with hb' | hh
    · exact h.room hb' hu
    · -- nothing has come yet
      have hle := h.used_le
      have hzero := (h.head hh).1
      omega
  polling := fun hp => absurd hpoll hp
  asleep := fun _ => .inl hpoll
  ended := hended

/-- A section of the stream thread. -/
theorem threaded {cut : Bool} (h : Fills s delivered endedOk) (hsec : s.Section cut false s')
    (hroom : s.polling ≠ none → s.state = .streamingBuffering →
      s.threshold + 2 ≤ s.streambuf.size) {e : Bool}
    (hended : e = true → endedOk = true ∨ s'.state = .disconnect) :
    Fills s' (delivered || decide (s.bytes < s'.bytes)) e := by
  have hgoes : s.Awake → endedOk = false := by
    intro hawake
    rcases hok : endedOk with - | -
    · rfl
    · exact absurd hawake (not_awake (h.ended hok) (h.asleep (h.ended hok)))
  have hover : s.Awake → e = true → s'.state.toend = true := by
    intro hawake he
    rcases hended he with hok | hst
    · rw [hgoes hawake] at hok
      cases hok
    · rw [hst]
      rfl
  -- when no byte has come
  have hsame : s'.bytes = s.bytes → (delivered || decide (s.bytes < s'.bytes)) = delivered := by
    intro hb
    rw [hb]
    simp
  cases hsec with
  | stays hstill =>
      rw [hsame hstill.same.bytes]
      refine h.still hstill.same.bytes hstill.same.threshold hstill.same.streambuf hstill.polling
        (fun hh => hstill.state ▸ hh) (fun hb => .inl (hstill.state ▸ hb)) fun he => ?_
      rcases hended he with hok | hst
      · rw [hstill.state]
        exact h.ended hok
      · rw [hst]
        rfl
  | polls out hfd hspace hidle _ =>
      rw [hsame rfl]
      refine ⟨h.sized, h.used_le, h.head, fun hw => ?_, h.buffering, h.room, fun _ => ?_,
        fun hend => ?_, hover ⟨hfd, .inr ⟨hidle, hspace⟩⟩⟩
      · rw [show s.state = .streamingWait from hw] at hidle
        cases hidle
      · exact h.awake_not_full ⟨hfd, .inr ⟨hidle, hspace⟩⟩
      · exact absurd ⟨hfd, .inr ⟨hidle, hspace⟩⟩ (not_awake (s := s) hend (h.asleep hend))
  | heads hawake hsame' hstep _ hpoll =>
      rw [hsame hsame'.bytes]
      have hhead : s.state.head = true := by
        rcases hstep with ⟨hst, -⟩ | ⟨hst, -⟩ <;> rw [hst] <;> rfl
      exact h.still hsame'.bytes hsame'.threshold hsame'.streambuf hpoll (fun _ => hhead)
        (fun _ => .inr hhead) (hover hawake)
  | body bs hawake hfile hrecv hearly hne hle hbytes hthreshold hbuf _ hstep _ _ hpoll =>
      have hhead : s.state.head = false := by
        rcases hst : s.state
        case sendHeaders => exact absurd (hearly hst) Bool.false_ne_true
        case recvHeaders => exact absurd hst hrecv
        case streamingWait =>
          have hw := hfile (h.wait hst)
          rw [hst] at hw
          cases hw
        all_goals rfl
      have hstate : s'.state = .streamingHttp ∨ s'.state = s.state := by
        rw [hstep]
        split
        · exact .inl rfl
        · exact .inr rfl
      obtain ⟨hsized, hused⟩ := h.sized.append hne hle
      have hbuffer : s'.state = .streamingBuffering → s.state = .streamingBuffering ∧
          ¬ s.bytes + bs.length > s.threshold := by
        intro hb
        rw [hstep] at hb
        split at hb
        · cases hb
        · rename_i hno
          exact ⟨hb, fun hgt => hno ⟨hb, hgt⟩⟩
      have hnot : s'.state.head = false := by
        rcases hstate with hst | hst <;> rw [hst]
        · rfl
        · exact hhead
      refine ⟨hbuf ▸ hsized, ?_, fun hh => ?_, fun _ => hpoll, fun hb => ?_, fun hb _ => ?_,
        fun hp => absurd hpoll hp, fun _ => .inl hpoll, hover hawake⟩
      · rw [hbuf, hused, hbytes]
        have hle := h.used_le
        omega
      · rw [hnot] at hh
        cases hh
      · rw [hbytes, hthreshold]
        exact Nat.not_lt.mp (hbuffer hb).2
      · rw [hbuf, hthreshold]
        refine hroom (fun hp => ?_) (hbuffer hb).1
        rw [hfile hp] at hbuffer
        cases (hbuffer hb).1
  | ends hawake hsame' hst hpoll =>
      rw [hsame hsame'.bytes]
      refine h.still hsame'.bytes hsame'.threshold hsame'.streambuf hpoll (fun hh => ?_)
        (fun hb => ?_) (hover hawake)
      · rw [hst] at hh
        cases hh
      · rw [hst] at hb
        cases hb
  | cuts _ hawake hsame' hstep hfd hpoll =>
      rw [hsame hsame'.bytes]
      refine h.still hsame'.bytes hsame'.threshold hsame'.streambuf hpoll (fun hh => ?_)
        (fun hb => ?_) (hover hawake)
      · rcases hstep with hst | ⟨hst, -⟩
        · rw [hst] at hh
          cases hh
        · rw [hst]
          rfl
      · rcases hstep with hst | ⟨hst, -⟩
        · rw [hst] at hb
          cases hb
        · rw [hst]
          exact .inr rfl

/-- The controller takes note of the end. -/
theorem update (h : Fills s delivered endedOk) : Fills s.update.1 delivered endedOk := by
  have hstate : s.update.1.state = if s.state = .disconnect then .stopped else s.state := by
    show s.settle.state = _
    unfold Streamer.settle
    split <;> rfl
  have hrest : s.update.1.streambuf = s.streambuf ∧ s.update.1.bytes = s.bytes ∧
      s.update.1.threshold = s.threshold ∧ s.update.1.polling = s.polling ∧
      s.update.1.fd = s.fd := by
    show s.settle.streambuf = _ ∧ s.settle.bytes = _ ∧ s.settle.threshold = _ ∧
      s.settle.polling = _ ∧ s.settle.fd = _
    unfold Streamer.settle
    split <;> exact ⟨rfl, rfl, rfl, rfl, rfl⟩
  obtain ⟨hbuf, hbytes, hthreshold, hpoll, hfd⟩ := hrest
  constructor
  · exact hbuf ▸ h.sized
  · rw [hbuf, hbytes]
    exact h.used_le
  · rw [hstate, hbytes]
    split
    · exact fun hh => by cases hh
    · exact h.head
  · rw [hstate, hpoll]
    split
    · exact fun hw => by cases hw
    · exact h.wait
  · rw [hstate, hbytes, hthreshold]
    split
    · exact fun hb => by cases hb
    · exact h.buffering
  · rw [hstate, hbuf, hthreshold]
    split
    · exact fun hb => by cases hb
    · exact h.room
  · rw [hpoll, hbuf]
    exact h.polling
  · rw [hstate, hpoll, hfd]
    split
    · rename_i hd
      exact fun _ => h.asleep (by rw [hd]; rfl)
    · exact h.asleep
  · rw [hstate]
    split
    · exact fun _ => rfl
    · exact h.ended

/-- The controller closes the stream. -/
theorem close (h : Fills s delivered endedOk) : Fills s.close delivered endedOk where
  sized := h.sized
  used_le := h.used_le
  head := fun hh => by cases hh
  wait := fun hw => by cases hw
  buffering := fun hb => by cases hb
  room := fun hb => by cases hb
  polling := h.polling
  asleep := fun _ => .inr rfl
  ended := fun _ => rfl

/-- cont -/
theorem cont (h : Fills s delivered endedOk) (metaint : ℕ) :
    Fills (s.processCont metaint).1 delivered endedOk := by
  obtain ⟨hbytes, hthreshold, hbuf, -, hfd, hpoll, hstep⟩ := processCont_cases s metaint
  rcases hstep with hstep | ⟨hwait, hstep⟩
  · constructor
    · exact hbuf ▸ h.sized
    · rw [hbuf, hbytes]
      exact h.used_le
    · rw [hstep, hbytes]
      exact h.head
    · rw [hstep, hpoll]
      exact h.wait
    · rw [hstep, hbytes, hthreshold]
      exact h.buffering
    · rw [hstep, hbuf, hthreshold]
      exact h.room
    · rw [hpoll, hbuf]
      exact h.polling
    · rw [hstep, hpoll, hfd]
      exact h.asleep
    · rw [hstep]
      exact h.ended
  · have hhead : s.state.head = true := by
      rw [hwait]
      rfl
    refine h.still hbytes hthreshold hbuf (hpoll.trans (h.wait hwait)) (fun _ => hhead)
      (fun _ => .inr hhead) fun hok => ?_
    have hend := h.ended hok
    rw [hwait] at hend
    cases hend

/-- The decoder takes bytes. -/
theorem drain (h : Fills s delivered endedOk) (n : ℕ) :
    Fills (s.drain n).1 delivered endedOk := by
  unfold Streamer.drain
  split
  · rename_i hn
    obtain ⟨hsized, hused⟩ := h.sized.consume hn
    refine h.keep hsized (by omega) (fun hfull => ?_) (fun _ => rfl) (.inl rfl) s.autostart
    obtain ⟨hsome, hroom⟩ := hfull
    have hsize : (bufIncReadp s.streambuf n).size = s.streambuf.size := rfl
    unfold bufSpace at hroom
    rw [hsize] at hroom
    refine ⟨by omega, ?_⟩
    unfold bufSpace
    omega
  · exact h

/-- A codec is opened, and `autostart` set. -/
theorem adjusted (h : Fills s delivered endedOk) {b : Buffer} (hsized : b.Sized)
    (hb : b = s.streambuf ∨ bufUsed b = 0) (autostart : ℤ) :
    Fills { s with streambuf := b, autostart := autostart } delivered endedOk := by
  rcases hb with rfl | hzero
  · exact h.keep h.sized (Nat.le_refl _) id (fun _ => rfl) (.inl rfl) autostart
  · exact h.keep hsized (by omega) (fun hfull => absurd hzero hfull.1)
      (fun hused => absurd hzero hused) (.inl rfl) autostart

/-- strm 's': nothing has come, and nothing has ended, of the stream that is asked for. -/
theorem opened (h : Fills s delivered endedOk) (a : StrmStart)
    (hsleep : a.target = .unreachable → s.polling = none ∨ s.fd = false) :
    Fills (s.opened a) false false := by
  have hflush := used_bufFlush s.streambuf
  have hempty : ∀ {st : Streamer}, st.streambuf = bufFlush s.streambuf → st.bytes = 0 →
      st.state ≠ .streamingWait → (st.state.toend = true → st.fd = false) →
      Fills st false false := by
    intro st hbuf hbytes hwait hend
    refine ⟨hbuf ▸ h.sized.flush, ?_, fun _ => ⟨hbytes, rfl⟩, fun hw => absurd hw hwait, fun _ => ?_,
      fun _ hu => ?_, fun _ hfull => ?_, fun he => .inr (hend he), fun hok => by cases hok⟩
    · rw [hbuf]
      omega
    · omega
    · rw [hbuf] at hu
      exact absurd hflush hu
    · rw [hbuf] at hfull
      exact absurd hflush hfull.1
  unfold Streamer.opened
  rcases htarget : a.target with wire | - | - | file
  · exact hempty rfl rfl (fun hw => by cases hw) fun he => by cases he
  · exact ⟨h.sized, h.used_le, fun hh => (by cases hh), fun hw => (by cases hw),
      fun hb => (by cases hb), fun hb => (by cases hb), h.polling, fun _ => hsleep htarget,
      fun hok => (by cases hok)⟩
  · -- the stream that was goes on
    exact ⟨h.sized, h.used_le, fun hh => ⟨(h.head hh).1, rfl⟩, h.wait, h.buffering, h.room,
      h.polling, h.asleep, fun hok => (by cases hok)⟩
  · rcases file with - | wire
    · exact hempty rfl rfl (fun hw => by cases hw) fun _ => rfl
    · exact hempty rfl rfl (fun hw => by cases hw) fun he => by cases he

end Fills

/-! ### The decoder can be started -/

/-- A decoder run is in progress, or its end is not reported yet. -/
def Output.decoding (s : Output) : Bool :=
  match s.decodeState with
  | .running | .complete | .error => true
  | _ => false

/-- `autostart` has come down. -/
def Slim.mayStart (s : Slim) : Prop := s.stream.autostart = 0 ∨ s.stream.autostart = 1

instance : DecidablePred Slim.mayStart := fun _ => inferInstanceAs (Decidable (_ ∨ _))

/-- The decoder is expected to start: a codec is open and ready, `autostart` has come down, and
the stream has delivered data, and has ended normally or filled `streambuf`. -/
structure Expects (s : Slim) : Prop where
  ready : s.output.decodeState = .ready
  auto : s.mayStart
  delivered : s.delivered = true
  enough : s.endedOk = true ∨ s.stream.streambuf.Full

/-- The decoder of a stream can be started.  strm 's' for a codec that is told later finds no
decoder run left over; no codec is opened once the decoder was started; the thread sends the
request before it reads; `streambuf` holds more than the threshold; and when a pass finds the
normal end of a stream that has delivered, and of which the decoder was not started, the codec is
open and `autostart` has come down. -/
def Slim.keepsStart (x : SlimSetup) (s : Slim) : SlimEvent → Bool
  | .strmStart a => a.refused || ((a.format ≠ 0x3f || !s.output.decoding) &&
      match a.target with
      | .unreachable => s.stream.polling.isNone || !s.stream.fd
      | _ => true)
  | .codc format _ _ => !x.known format || !s.started
  | .streamPoll p => !s.stream.readsEarly p &&
      (s.stream.state ≠ .streamingBuffering || s.stream.threshold + 2 ≤ s.stream.streambuf.size)
  | .passStream =>
      match s.pass with
      | .idle => !(s.stream.state = .disconnect && s.stream.disconnect = .ok && s.delivered &&
          !s.started) || (s.output.decodeState = .ready && s.mayStart)
      | _ => true
  | _ => true

/-- The normal end of the stream is there to be found, or a pass has found it and is about to
start the decoder. -/
def FindsEnd (s : Slim) : Prop :=
  s.stream.disconnect = .ok ∧
    (s.stream.state = .disconnect ∨
      ∃ l, s.pass = .stream l ∧ l.streamState = .disconnect ∧ s.output.decodeState = .ready ∧
        s.mayStart)

/-- What holds of the player, so that the decoder can be started. -/
structure Startable (s : Slim) : Prop where
  fills : Fills s.stream s.delivered s.endedOk
  fresh : s.output.decodeState = .ready → s.started = false
  begun : s.output.decoding = true → s.started = true
  unsent : s.sentSTMl = true → s.started = true ∨ (s.stream.fd = false ∧ s.delivered = false)
  closes : ∀ l, s.pass.decided = some l → l.streamDisconnect = true → s.started = true
  quiet : s.started = false → s.delivered = true → s.stream.state.toend = true →
    s.endedOk = false → ¬ s.stream.streambuf.Full
  found : s.started = false → s.delivered = true → s.endedOk = true → FindsEnd s

/-- A section of the stream thread. -/
theorem startable_threaded {st : Streamer} {cut : Bool} (h : Startable s)
    (hsec : s.stream.Section cut false st)
    (hroom : s.stream.polling ≠ none → s.stream.state = .streamingBuffering →
      s.stream.threshold + 2 ≤ s.stream.streambuf.size) : Startable (s.threaded st).1 := by
  have hfills := h.fills.threaded (e := (s.threaded st).1.endedOk) hsec hroom (by
    intro hend
    have hend : (s.endedOk || (s.stream.ends st && decide (st.state = .disconnect) &&
      decide (st.disconnect = .ok))) = true := hend
    simp only [Bool.or_eq_true, Bool.and_eq_true, decide_eq_true_eq] at hend
    exact hend.imp_right fun hnew => hnew.1.2)
  -- a stream that is left alone
  have hstill : s.stream.Still st → (s.threaded st).1.delivered = s.delivered ∧
      (s.threaded st).1.endedOk = s.endedOk := by
    intro hst
    have hends : s.stream.ends st = false :=
      Streamer.Section.not_ends (congrArg StreamState.toend hst.state) hst.fd
    constructor
    · show (s.delivered || decide (s.stream.bytes < st.bytes)) = s.delivered
      rw [hst.same.bytes]
      simp
    · show (s.endedOk || (s.stream.ends st && _ && _)) = s.endedOk
      rw [hends]
      simp
  have hasleep : s.stream.state.toend = true → s.stream.Still st := fun hend =>
    hsec.still (not_awake hend (h.fills.asleep hend))
  have hawake : s.stream.Awake → s.stream.Same st → ¬ st.streambuf.Full := by
    intro haw hsame
    rw [hsame.streambuf]
    exact h.fills.awake_not_full haw
  refine ⟨hfills, h.fresh, h.begun, ?_, h.closes, ?_, ?_⟩
  · intro hsent
    rcases h.unsent hsent with hst | ⟨hfd, hdel⟩
    · exact .inl hst
    · have hst := hsec.still fun haw => Bool.false_ne_true (hfd.symm.trans haw.1)
      exact .inr ⟨hst.fd.trans hfd, (hstill hst).1.trans hdel⟩
  · intro hnew hdel hend hok
    rcases hsec.outcome h.fills.asleep with ⟨-, -, hgoes⟩ | ⟨-, -, -, haw, hsame⟩ | ⟨-, -, haw, hsame⟩
    · have hend' : s.stream.state.toend = true := hgoes ▸ hend
      have hst := hasleep hend'
      obtain ⟨hd, he⟩ := hstill hst
      show ¬ st.streambuf.Full
      rw [hst.same.streambuf]
      exact h.quiet hnew (hd ▸ hdel) hend' (he ▸ hok)
    · exact hawake haw hsame
    · exact hawake haw hsame
  · intro hnew hdel hok
    rcases hold : s.endedOk with - | -
    · -- it has just ended
      have hok : (s.endedOk || (s.stream.ends st && decide (st.state = .disconnect) &&
        decide (st.disconnect = .ok))) = true := hok
      rw [hold, Bool.false_or] at hok
      simp only [Bool.and_eq_true, decide_eq_true_eq] at hok
      exact ⟨hok.2, .inl hok.1.2⟩
    · have hst := hasleep (h.fills.ended hold)
      have hdel := (hstill hst).1.symm.trans hdel
      obtain ⟨hcode, hfound⟩ := h.found hnew hdel hold
      refine ⟨hst.disconnect.trans hcode, ?_⟩
      rcases hfound with hd | ⟨l, hp, hl, hready, hauto⟩
      · exact .inl (hst.state.trans hd)
      · refine .inr ⟨l, hp, hl, hready, ?_⟩
        show st.autostart = 0 ∨ st.autostart = 1
        rw [hst.same.autostart]
        exact hauto

theorem decoding_congr {o o' : Output} (h : o'.decodeState = o.decodeState) :
    o'.decoding = o.decoding := by
  unfold Output.decoding
  rw [h]

/-- A decoder that is opened, or cannot be, is not running. -/
theorem decoding_opened {o : Output} {known : Bool}
    (h : o.decodeState = if known then .ready else .stopped) : o.decoding = false := by
  unfold Output.decoding
  rw [h]
  rcases known with - | - <;> rfl

/-- Nothing but the output, or where the pass is, and nothing that is about the decoder. -/
theorem Startable.keep {o : Output} {p : Controller} (h : Startable s)
    (hstate : o.decodeState = s.output.decodeState)
    (hcloses : ∀ l, p.decided = some l → l.streamDisconnect = true → s.started = true)
    (hpass : ∀ l, s.pass = .stream l → p = .stream l) (sentSTMu sentSTMo : Bool) :
    Startable { s with output := o, pass := p, sentSTMu := sentSTMu, sentSTMo := sentSTMo } where
  fills := h.fills
  fresh := fun hr => h.fresh (hstate.symm.trans hr)
  begun := fun hd => h.begun ((decoding_congr hstate).symm.trans hd)
  unsent := h.unsent
  closes := hcloses
  quiet := h.quiet
  found := by
    intro hnew hdel hok
    obtain ⟨hcode, hfound⟩ := h.found hnew hdel hok
    refine ⟨hcode, ?_⟩
    rcases hfound with hd | ⟨l, hp, hl, hready, hauto⟩
    · exact .inl hd
    · exact .inr ⟨l, hpass l hp, hl, hstate.trans hready, hauto⟩

/-- The section of the stream: the end is found with the codec open. -/
theorem startable_passStream (h : Startable s) (hp : s.pass = .idle)
    (hkeep : s.keepsStart x .passStream = true) : Startable s.passStream where
  fills := h.fills.update
  fresh := h.fresh
  begun := h.begun
  unsent := by
    have hfd : s.stream.update.1.fd = s.stream.fd := by
      show s.stream.settle.fd = _
      unfold Streamer.settle
      split <;> rfl
    show s.sentSTMl = true → s.started = true ∨ (s.stream.update.1.fd = false ∧ _)
    rw [hfd]
    exact h.unsent
  closes := fun l hl => by cases hl
  quiet := by
    intro hnew hdel hend hok
    have hbuf : s.stream.update.1.streambuf = s.stream.streambuf := by
      show s.stream.settle.streambuf = _
      unfold Streamer.settle
      split <;> rfl
    have hend : s.stream.settle.state.toend = true := hend
    show ¬ s.stream.update.1.streambuf.Full
    rw [hbuf]
    refine h.quiet hnew hdel ?_ hok
    unfold Streamer.settle at hend
    split at hend
    · rename_i hd
      rw [hd]
      rfl
    · exact hend
  found := by
    intro hnew hdel hok
    obtain ⟨hcode, hfound⟩ := h.found hnew hdel hok
    have hd : s.stream.state = .disconnect := by
      rcases hfound with hd | ⟨l, hl, -⟩
      · exact hd
      · rw [hp] at hl
        cases hl
    have hnew : s.started = false := hnew
    have hdel : s.delivered = true := hdel
    have hgo : s.output.decodeState = .ready ∧ s.mayStart := by
      simpa [Slim.keepsStart, hp, hd, hcode, hdel, hnew] using hkeep
    have hsettle : s.stream.update.1.disconnect = s.stream.disconnect ∧
        s.stream.update.1.autostart = s.stream.autostart := by
      show s.stream.settle.disconnect = _ ∧ s.stream.settle.autostart = _
      unfold Streamer.settle
      split <;> exact ⟨rfl, rfl⟩
    refine ⟨hsettle.1.trans hcode, .inr ⟨_, rfl, hd, hgo.1, ?_⟩⟩
    show s.stream.update.1.autostart = 0 ∨ s.stream.update.1.autostart = 1
    rw [hsettle.2]
    exact hgo.2

/-- The section of the decoder starts it, or leaves it as it is. -/
theorem startable_passDecode (h : Startable s) (hp : s.pass = .stream l) :
    Startable (s.passDecode l).1 := by
  have hupdate := decodeState_updateDecode s.output (s.starts l)
  have hstart : (s.passDecode l).1.started = (s.started || s.starts l) := rfl
  have hnot : (s.passDecode l).1.started = false → s.started = false ∧ s.starts l = false := by
    rw [hstart]
    exact Bool.or_eq_false_iff.mp
  refine ⟨h.fills, ?_, ?_, ?_, ?_, fun hnew => h.quiet (hnot hnew).1, ?_⟩
  · intro hr
    have hr : (s.output.updateDecode (s.starts l)).decodeState = .ready := hr
    rw [hupdate] at hr
    rcases hd : s.output.decodeState <;> rw [hd] at hr
    case ready =>
      rcases hs : s.starts l with - | -
      · rw [hstart, h.fresh hd, hs]
        rfl
      · rw [hs] at hr
        cases hr
    all_goals cases hr
  · intro hrun
    have hrun : (s.output.updateDecode (s.starts l)).decoding = true := hrun
    unfold Output.decoding at hrun
    rw [hupdate] at hrun
    rw [hstart]
    rcases hd : s.output.decodeState <;> rw [hd] at hrun
    case ready =>
      rcases hs : s.starts l with - | -
      · rw [hs] at hrun
        cases hrun
      · exact Bool.or_true _
    case running =>
      rw [h.begun (by unfold Output.decoding; rw [hd]), Bool.true_or]
    all_goals cases hrun
  · intro hsent
    have hsent : (s.sentSTMl || (s.startDue l && decide (s.stream.autostart = 0))) = true := hsent
    rw [hstart]
    rcases Bool.or_eq_true_iff.mp hsent with hold | hnow
    · rcases h.unsent hold with hst | hclosed
      · exact .inl (by rw [hst, Bool.true_or])
      · exact .inr hclosed
    · obtain ⟨hdue, hzero⟩ := Bool.and_eq_true_iff.mp hnow
      refine .inl ?_
      unfold Slim.starts
      rw [hdue, hzero]
      simp
  · intro l' hl' hclose
    obtain rfl := Option.some.inj hl'
    have hclose : ((decide (s.output.decodeState = .complete) ||
        decide (s.output.decodeState = .error)) && _) = true := hclose
    have hended := (Bool.and_eq_true_iff.mp hclose).1
    simp only [Bool.or_eq_true, decide_eq_true_eq] at hended
    have hrun : s.output.decoding = true := by
      unfold Output.decoding
      rcases hended with hd | hd <;> rw [hd]
    rw [hstart, h.begun hrun, Bool.true_or]
  · intro hnew hdel hok
    obtain ⟨hold, hno⟩ := hnot hnew
    obtain ⟨hcode, hfound⟩ := h.found hold hdel hok
    refine ⟨hcode, ?_⟩
    rcases hfound with hd | ⟨l', hl', hend, hready, hauto⟩
    · exact .inl hd
    · -- the pass that has found the end starts the decoder
      obtain rfl : l = l' := Controller.stream.inj (hp.symm.trans hl')
      have hdel : s.delivered = true := hdel
      have hunsent : s.sentSTMl = false := by
        rcases hs : s.sentSTMl with - | -
        · rfl
        · rcases h.unsent hs with hst | ⟨-, hd⟩
          · rw [hold] at hst
            cases hst
          · rw [hdel] at hd
            cases hd
      have hyes : s.starts l = true := by
        unfold Slim.starts Slim.startDue
        simpa [hend, hcode, hunsent, hready, Slim.mayStart] using hauto
      rw [hno] at hyes
      cases hyes

/-- strm 's': the decoder of the stream that is asked for was not started. -/
theorem startable_strmStart (h : Startable s) {a : StrmStart} (hp : s.pass = .idle)
    (hkeep : s.keepsStart x (.strmStart a) = true) : Startable (s.strmStart x.known a).1 := by
  simp only [Slim.keepsStart, Bool.or_eq_true, Bool.and_eq_true] at hkeep
  unfold Slim.strmStart
  split
  · -- only `autostart` is set
    have hfound : ∀ n, s.started = false → s.delivered = true → s.endedOk = true →
        FindsEnd { s with stream := { s.stream with autostart := n } } := by
      intro n hnew hdel hok
      obtain ⟨hcode, hd | ⟨l, hl, -⟩⟩ := h.found hnew hdel hok
      · exact ⟨hcode, .inl hd⟩
      · rw [hp] at hl
        cases hl
    exact ⟨h.fills.adjusted h.fills.sized (.inl rfl) a.autostart, h.fresh, h.begun, h.unsent,
      h.closes, h.quiet, hfound _⟩
  rename_i hok
  obtain ⟨hformat, htarget⟩ := hkeep.resolve_left hok
  have hcodec := stream_strmCodec x.known a s
  have hpass := (pass_strmCodec x.known a s).trans hp
  refine ⟨?_, fun _ => rfl, fun hrun => ?_, fun hsent => (by cases hsent), fun l hl => ?_,
    fun _ hdel => (by cases hdel), fun _ hdel => (by cases hdel)⟩
  · have hfills : Fills (s.strmCodec x.known a).stream s.delivered s.endedOk := by
      rw [hcodec]
      split
      · obtain ⟨hsized, hb⟩ := codecBuffer_cases h.fills.sized s.codec a.format a.pcmSampleSize
          a.pcmChannels
        exact h.fills.adjusted hsized hb a.autostart
      · exact h.fills.adjusted h.fills.sized (.inl rfl) a.autostart
    refine hfills.opened a fun hunreachable => ?_
    rw [hcodec]
    simpa [hunreachable] using htarget
  · have hrun : (s.strmCodec x.known a).output.decoding = true := hrun
    have hstate := decodeState_strmCodec x.known a s
    by_cases hlater : a.format = 0x3f
    · rw [if_pos hlater] at hstate
      rw [decoding_congr hstate] at hrun
      simp [hrun, hlater] at hformat
    · rw [if_neg hlater] at hstate
      rw [decoding_opened hstate] at hrun
      cases hrun
  · have hl : (s.strmCodec x.known a).pass.decided = some l := hl
    rw [hpass] at hl
    cases hl

/-- codc: the codec is opened before the decoder is started. -/
theorem startable_codc (h : Startable s) {format size channels : UInt8} (hp : s.pass = .idle)
    (hkeep : s.keepsStart x (.codc format size channels) = true) :
    Startable (s.codecOpen x.known format size channels) := by
  have hkept := remembers_codecOpen x.known format size channels s
  have hstream := stream_codecOpen x.known format size channels s
  have hstate := decodeState_codecOpen x.known format size channels s
  have hbuf : (s.codecOpen x.known format size channels).stream.streambuf.Sized ∧
      ((s.codecOpen x.known format size channels).stream.streambuf = s.stream.streambuf ∨
        bufUsed (s.codecOpen x.known format size channels).stream.streambuf = 0) := by
    rw [hstream]
    dsimp only
    split
    · exact codecBuffer_cases h.fills.sized _ _ _ _
    · exact ⟨h.fills.sized, .inl rfl⟩
  constructor
  · rw [hkept.delivered, hkept.endedOk]
    have hfills := h.fills.adjusted hbuf.1 hbuf.2 s.stream.autostart
    rw [hstream] at hfills ⊢
    exact hfills
  · intro hr
    rw [hkept.started]
    rw [hstate] at hr
    split at hr
    · rename_i hknown
      simpa [Slim.keepsStart, hknown] using hkeep
    · cases hr
  · intro hrun
    rw [decoding_opened hstate] at hrun
    cases hrun
  · rw [hkept.sentSTMl, hkept.started, hkept.delivered, hstream]
    exact h.unsent
  · rw [hkept.pass, hkept.started]
    exact h.closes
  · rw [hkept.started, hkept.delivered, hkept.endedOk]
    intro hnew hdel hend hok
    rcases hbuf.2 with hb | hzero
    · rw [hb]
      refine h.quiet hnew hdel ?_ hok
      rw [hstream] at hend
      exact hend
    · exact fun hfull => hfull.1 hzero
  · rw [hkept.started, hkept.delivered, hkept.endedOk]
    intro hnew hdel hok
    obtain ⟨hcode, hd | ⟨l, hl, -⟩⟩ := h.found hnew hdel hok
    · unfold FindsEnd
      rw [hstream]
      exact ⟨hcode, .inl hd⟩
    · rw [hp] at hl
      cases hl

theorem startable_step (h : Startable s) (hact : Acts x s e r)
    (hkeep : s.keepsStart x e = true) : Startable r.1 := by
  cases hact with
  | ignored => exact h
  | top file hpoll => exact startable_threaded h (section_top hpoll file) fun hp => absurd hpoll hp
  | poll p =>
      have hsec := section_afterPoll s.stream p
      simp only [Slim.keepsStart, Bool.and_eq_true, Bool.not_eq_true', Bool.or_eq_true,
        decide_eq_true_eq] at hkeep
      rw [hkeep.1] at hsec
      exact startable_threaded h hsec fun _ hb => hkeep.2.resolve_left fun hne => hne hb
  | timeout =>
      have hfills := h.fills.keep h.fills.sized (Nat.le_refl _) id (fun _ => rfl) (.inr rfl)
        s.stream.autostart
      exact ⟨hfills, h.fresh, h.begun, h.unsent, h.closes, h.quiet, h.found⟩
  | unseen ho => exact h.keep ho.decodeState h.closes (fun _ hl => hl) s.sentSTMu s.sentSTMo
  | decode n bs hrun =>
      have hstarted : s.started = true := h.begun (by unfold Output.decoding; rw [hrun])
      exact ⟨h.fills.drain n, fun hr => (by
          rw [show (_ : Output).decodeState = _ from decodeState_decoded s.output bs, hrun] at hr
          cases hr), fun _ => hstarted, fun _ => .inl hstarted, h.closes,
        fun hnew => absurd hstarted (by rw [show s.started = false from hnew]; decide),
        fun hnew => absurd hstarted (by rw [show s.started = false from hnew]; decide)⟩
  | decodeDone ok hrun =>
      have hstarted : s.started = true := h.begun (by unfold Output.decoding; rw [hrun])
      have hstate := decodeState_decodeDone hrun ok
      exact ⟨h.fills, fun hr => (by
          rw [show (_ : Output).decodeState = _ from hstate] at hr
          rcases ok with - | - <;> cases hr), fun _ => hstarted, h.unsent, h.closes, h.quiet,
        fun hnew => absurd hstarted (by rw [show s.started = false from hnew]; decide)⟩
  | passStream hp => exact startable_passStream h hp hkeep
  | passDecode hp => exact startable_passDecode h hp
  | @passOutput l timeout tick hp =>
      refine h.keep (decodeState_updateOutput s.output l.startOutput (s.underrun l) timeout)
        (fun l' hl' hclose => ?_) (fun l' hl' => ?_) _ _
      · obtain rfl := Option.some.inj hl'
        exact h.closes l (by rw [hp]; rfl) hclose
      · rw [hp] at hl'
        cases hl'
  | @passEnd l hp =>
      have hidle := h.keep (p := .idle) rfl (fun l' hl' => by cases hl') (fun l' hl' => by
        rw [hp] at hl'
        cases hl') s.sentSTMu s.sentSTMo
      unfold Slim.passEnd
      dsimp only
      split
      · -- a stream of which the decoder was started
        rename_i hclose
        have hstarted := h.closes l (by rw [hp]; rfl) hclose
        exact ⟨h.fills.close, h.fresh, h.begun, fun _ => .inl hstarted, hidle.closes,
          fun hnew => absurd hstarted (by rw [show s.started = false from hnew]; decide),
          fun hnew => absurd hstarted (by rw [show s.started = false from hnew]; decide)⟩
      · exact hidle
  | strmStart a hp => exact startable_strmStart h hp hkeep
  | strmStop hp =>
      have hflush := used_bufFlush s.stream.streambuf
      refine ⟨?_, fun _ => rfl, fun hrun => (by cases hrun), fun _ => .inr ⟨rfl, rfl⟩,
        fun l hl => ?_, fun _ hdel => (by cases hdel), fun _ hdel => (by cases hdel)⟩
      · exact ⟨h.fills.sized.flush, by rw [show (_ : Streamer).streambuf = bufFlush _ from rfl]; omega,
          fun hh => (by cases hh), fun hw => (by cases hw), fun hb => (by cases hb),
          fun hb => (by cases hb), fun _ hfull => hfull.1 hflush, fun _ => .inr rfl, fun _ => rfl⟩
      · rw [show s.strmStop.1.pass = .idle from hp] at hl
        cases hl
  | cont metaint hp =>
      obtain ⟨-, -, hbuf, hcode, hfd, -, hstep⟩ := processCont_cases s.stream metaint
      refine ⟨h.fills.cont metaint, h.fresh, h.begun, ?_, h.closes, ?_, ?_⟩
      · show _ → _ ∨ ((s.stream.processCont metaint).1.fd = false ∧ _)
        rw [hfd]
        exact h.unsent
      · intro hnew hdel hend hok
        show ¬ (s.stream.processCont metaint).1.streambuf.Full
        rw [hbuf]
        refine h.quiet hnew hdel ?_ hok
        have hend : (s.stream.processCont metaint).1.state.toend = true := hend
        rcases hstep with hstep | ⟨-, hstep⟩
        · rwa [hstep] at hend
        · rw [hstep] at hend
          cases hend
      · intro hnew hdel hok
        obtain ⟨hok', hd | ⟨l, hl, -⟩⟩ := h.found hnew hdel hok
        · refine ⟨hcode.trans hok', .inl ?_⟩
          rcases hstep with hstep | ⟨hwait, -⟩
          · exact hstep.trans hd
          · rw [hd] at hwait
            cases hwait
        · rw [hp] at hl
          cases hl
  | codc format size channels hp => exact startable_codc h hp hkeep

/-! ### Passes that start the decoder -/

/-- A section of an update pass. -/
def SlimEvent.isPass : SlimEvent → Bool
  | .passStream | .passDecode | .passOutput _ _ | .passEnd => true
  | _ => false

/-- Passes alone start the decoder. -/
def PassesStart (x : SlimSetup) (s : Slim) : Prop :=
  ∃ es : List SlimEvent, (∀ e ∈ es, e.isPass = true) ∧
    SlimObs.started ∈ ((slimMachine x).run s es).2

theorem PassesStart.now (he : e.isPass = true) (h : SlimObs.started ∈ (slimStep x s e).2) :
    PassesStart x s := by
  refine ⟨[e], fun e' he' => ?_, ?_⟩
  · rw [List.mem_singleton.mp he']
    exact he
  · exact List.mem_append_left _ h

theorem PassesStart.later (he : e.isPass = true) (h : PassesStart x (slimStep x s e).1) :
    PassesStart x s := by
  obtain ⟨es, hes, hlog⟩ := h
  refine ⟨e :: es, fun e' he' => ?_, List.mem_append_right _ hlog⟩
  rcases List.mem_cons.mp he' with rfl | he'
  · exact he
  · exact hes e' he'

/-- The next pass starts the decoder. -/
structure CanStart (s : Slim) : Prop where
  running : s.stream.state = .streamingHttp ∨ s.stream.state = .streamingFile ∨
    (s.stream.state = .disconnect ∧ s.stream.disconnect = .ok)
  unsent : s.sentSTMl = false
  ready : s.output.decodeState = .ready
  auto : s.mayStart

/-- A pass that has found the stream running, or at its normal end. -/
theorem started_passDecode (hp : s.pass = .stream l)
    (hl : l.streamState = .streamingHttp ∨ l.streamState = .streamingFile ∨
      (l.streamState = .disconnect ∧ s.stream.disconnect = .ok))
    (hunsent : s.sentSTMl = false) (hready : s.output.decodeState = .ready)
    (hauto : s.mayStart) : PassesStart x s := by
  refine .now (e := .passDecode) rfl ?_
  have hstarts : s.starts l = true := by
    unfold Slim.starts Slim.startDue
    rw [hunsent, hready]
    rcases hl with hl | hl | ⟨hl, hcode⟩
    · simpa [hl, Slim.mayStart] using hauto
    · simpa [hl, Slim.mayStart] using hauto
    · simpa [hl, hcode, Slim.mayStart] using hauto
  simp [slimStep, hp, Slim.passDecode, hstarts]

theorem CanStart.idle (h : CanStart s) (hp : s.pass = .idle) : PassesStart x s := by
  have hsettle : s.stream.update.1.disconnect = s.stream.disconnect ∧
      s.stream.update.1.autostart = s.stream.autostart := by
    show s.stream.settle.disconnect = _ ∧ s.stream.settle.autostart = _
    unfold Streamer.settle
    split <;> exact ⟨rfl, rfl⟩
  refine .later (e := .passStream) rfl ?_
  have hstep : slimStep x s .passStream = (s.passStream, []) := by simp [slimStep, hp]
  rw [hstep]
  refine started_passDecode rfl (h.running.imp_right (.imp_right fun hd => ⟨hd.1, ?_⟩)) h.unsent
    h.ready ?_
  · exact hsettle.1.trans hd.2
  · show s.stream.update.1.autostart = 0 ∨ s.stream.update.1.autostart = 1
    rw [hsettle.2]
    exact h.auto

theorem CanStart.output (h : CanStart s) (hp : s.pass = .output l)
    (hopen : l.streamDisconnect = false) : PassesStart x s := by
  refine .later (e := .passEnd) rfl ?_
  have hstep : slimStep x s .passEnd = s.passEnd l := by simp [slimStep, hp]
  have hstream : (s.passEnd l).1.stream = s.stream := by
    show (if _ then _ else _) = _
    rw [hopen]
    rfl
  rw [hstep]
  refine CanStart.idle ⟨?_, h.unsent, h.ready, ?_⟩ rfl
  · rw [hstream]
    exact h.running
  · unfold Slim.mayStart
    rw [hstream]
    exact h.auto

theorem CanStart.decode (h : CanStart s) (hp : s.pass = .decode l)
    (hopen : l.streamDisconnect = false) : PassesStart x s := by
  refine .later (e := .passOutput false false) rfl ?_
  have hstep : slimStep x s (.passOutput false false) = (s.passOutput l false false, []) := by
    simp [slimStep, hp]
  rw [hstep]
  exact CanStart.output ⟨h.running, h.unsent, h.ready, h.auto⟩ rfl hopen

theorem CanStart.stream (h : CanStart s) (hp : s.pass = .stream l) : PassesStart x s := by
  have hstep : slimStep x s .passDecode = s.passDecode l := by simp [slimStep, hp]
  rcases hstarts : s.starts l with - | -
  · -- this pass has found the stream too early
    refine .later (e := .passDecode) rfl ?_
    rw [hstep]
    have hready : (s.passDecode l).1.output.decodeState = .ready := by
      show (s.output.updateDecode (s.starts l)).decodeState = .ready
      rw [decodeState_updateDecode, h.ready, hstarts]
      rfl
    have hsent : (s.passDecode l).1.sentSTMl = false := by
      show (s.sentSTMl || (s.startDue l && decide (s.stream.autostart = 0))) = false
      rw [h.unsent, Bool.false_or]
      by_contra hdue
      rw [Bool.not_eq_false, Bool.and_eq_true] at hdue
      have hyes : s.starts l = true := by
        unfold Slim.starts
        rw [hdue.1, hdue.2]
        rfl
      rw [hstarts] at hyes
      cases hyes
    refine CanStart.decode ⟨h.running, hsent, hready, h.auto⟩ rfl ?_
    show ((decide (s.output.decodeState = .complete) ||
      decide (s.output.decodeState = .error)) && _) = false
    rw [h.ready]
    rfl
  · refine .now (e := .passDecode) rfl ?_
    rw [hstep]
    simp [Slim.passDecode, hstarts]

/-- Where the decoder is expected to start, it does. -/
theorem starts_of_expects (h : Startable s) (hx : Expects s) : PassesStart x s := by
  have hnew := h.fresh hx.ready
  have hunsent : s.sentSTMl = false := by
    rcases hs : s.sentSTMl with - | -
    · rfl
    · rcases h.unsent hs with hst | ⟨-, hd⟩
      · rw [hnew] at hst
        cases hst
      · rw [hx.delivered] at hd
        cases hd
  -- the stream is running, or has been found at its end
  have hstream : (s.stream.state = .streamingHttp ∨ s.stream.state = .streamingFile ∨
        (s.stream.state = .disconnect ∧ s.stream.disconnect = .ok)) ∨
      ∃ l, s.pass = .stream l ∧ l.streamState = .disconnect ∧ s.stream.disconnect = .ok := by
    have hok : s.endedOk = true → _ := h.found hnew hx.delivered
    rcases hx.enough with hend | hfull
    · obtain ⟨hcode, hd | ⟨l, hl, hls, -⟩⟩ := hok hend
      · exact .inl (.inr (.inr ⟨hd, hcode⟩))
      · exact .inr ⟨l, hl, hls, hcode⟩
    · rcases hend : s.endedOk with - | -
      · have hhead : s.stream.state.head = false := by
          by_contra hh
          rw [Bool.not_eq_false] at hh
          have hnone := (h.fills.head hh).2
          rw [hx.delivered] at hnone
          cases hnone
        have htoend : s.stream.state.toend = false := by
          by_contra ht
          rw [Bool.not_eq_false] at ht
          exact h.quiet hnew hx.delivered ht hend hfull
        rcases hst : s.stream.state
        case streamingHttp => exact .inl (.inl rfl)
        case streamingFile => exact .inl (.inr (.inl rfl))
        case streamingBuffering => exact absurd hfull (h.fills.not_full hst)
        all_goals
          rw [hst] at hhead htoend
          first
            | exact absurd hhead (by decide)
            | exact absurd htoend (by decide)
      · obtain ⟨hcode, hd | ⟨l, hl, hls, -⟩⟩ := hok hend
        · exact .inl (.inr (.inr ⟨hd, hcode⟩))
        · exact .inr ⟨l, hl, hls, hcode⟩
  have hopen : ∀ l, s.pass.decided = some l → l.streamDisconnect = false := by
    intro l hl
    rcases hc : l.streamDisconnect with - | -
    · rfl
    · have hst := h.closes l hl hc
      rw [hnew] at hst
      cases hst
  rcases hstream with hrun | ⟨l, hp, hl, hcode⟩
  · have hcan : CanStart s := ⟨hrun, hunsent, hx.ready, hx.auto⟩
    rcases hp : s.pass with - | l | l | l
    · exact hcan.idle hp
    · exact hcan.stream hp
    · exact hcan.decode hp (hopen l (by rw [hp]; rfl))
    · exact hcan.output hp (hopen l (by rw [hp]; rfl))
  · exact started_passDecode hp (.inr (.inr ⟨hl, hcode⟩)) hunsent hx.ready hx.auto

/-! ### The protocol -/

/-- The player as it begins, with the buffers and the rates it is given. -/
def slimBegin (stream output : Block) (streamSize outputSize rate rateDelay : ℕ) (idle : Bool)
    (header : ℕ → UInt8) : Slim :=
  slimInit (streamInit stream streamSize header)
    (outputInit output outputSize rate rateDelay idle)

section Begin

variable (stream output : Block) (streamSize outputSize rate rateDelay : ℕ) (idle : Bool)
  (header : ℕ → UInt8)

theorem startable_begin :
    Startable (slimBegin stream output streamSize outputSize rate rateDelay idle header) := by
  have hused : bufUsed (bufInit stream streamSize) = 0 := by simp [bufUsed, bufInit]
  refine ⟨⟨.init stream streamSize, ?_, fun hh => (by cases hh), fun _ => rfl, fun hb => (by cases hb),
    fun hb => (by cases hb), fun hp => absurd rfl hp, fun _ => .inl rfl, fun hok => (by cases hok)⟩,
    fun hr => (by cases hr), fun hrun => (by cases hrun), fun hsent => (by cases hsent),
    fun l hl => (by cases hl), fun _ hdel => (by cases hdel), fun _ hdel => (by cases hdel)⟩
  exact Nat.le_of_eq hused

/-- In every run whose steps keep to the conditions, the decoder is started at most once for a
stream, and can be started; each decoder run that ends by itself gives one STMd or STMn, and each
end of the stream that is not ordered gives one DSCO; and STMl, STMu and STMo are sent once, in
any run. -/
theorem status_protocol (x : SlimSetup) (es : List SlimEvent) :
    let s := slimBegin stream output streamSize outputSize rate rateDelay idle header
    ((slimMachine x).Along (fun s e => s.startsOnce x e = true) s es →
        (Runs.watch watchStarted false ((slimMachine x).run s es).2).isSome = true) ∧
      ((slimMachine x).Along (fun s e => s.keepsStart x e = true) s es →
        Expects ((slimMachine x).run s es).1 → PassesStart x ((slimMachine x).run s es).1) ∧
      ((slimMachine x).Along (fun s e => s.keepsDecodeEnd e = true) s es →
        (Runs.watch (onTime decodeSignal) none ((slimMachine x).run s es).2).isSome = true) ∧
      ((slimMachine x).Along (fun s e => s.keepsStreamEnd e = true) s es →
        (Runs.watch (onTime streamSignal) none ((slimMachine x).run s es).2).isSome = true) ∧
      (Runs.watch watchSent ⟨false, false, false⟩ ((slimMachine x).run s es).2).isSome = true := by
  intro s
  refine ⟨fun hkeep => ?_, fun hkeep hx => ?_, fun hkeep => ?_, fun hkeep => ?_, ?_⟩
  · have hbegin : StartedOnce s false := ⟨rfl, fun hr => by cases hr⟩
    obtain ⟨b, hw, -⟩ := (slimMachine x).run_watched
      (fun s b e h hk => startedOnce_step h (slimStep_acts x s e) hk) hbegin hkeep
    rw [hw]
    rfl
  · refine starts_of_expects ?_ hx
    exact (slimMachine x).run_invariant
      (fun s e h hk => startable_step h (slimStep_acts x s e) hk)
      (startable_begin stream output streamSize outputSize rate rateDelay idle header) hkeep
  · have hbegin : DecodeDue s none := ⟨settled_of_not_decided rfl, .before rfl⟩
    obtain ⟨d, hw, -⟩ := (slimMachine x).run_watched
      (fun s d e h hk => decodeDue_step h (slimStep_acts x s e) hk) hbegin hkeep
    rw [hw]
    rfl
  · have hbegin : StreamDue s none :=
      ⟨.before rfl, fun l hl => (by cases hl), fun _ => .inl rfl, fun l hl => (by cases hl)⟩
    obtain ⟨d, hw, -⟩ := (slimMachine x).run_watched
      (fun s d e h hk => streamDue_step h (slimStep_acts x s e) hk) hbegin hkeep
    rw [hw]
    rfl
  · have hbegin : SentDue s ⟨false, false, false⟩ := sentDue_idle rfl
    obtain ⟨f, hw, -⟩ := (slimMachine x).run_watched
      (fun s f e h _ => sentDue_step h (slimStep_acts x s e)) hbegin
      ((slimMachine x).along_true s es)
    rw [hw]
    rfl

end Begin

/-- A build that knows all codecs. -/
def allCodecs : SlimSetup := ⟨fun _ => true, fun _ _ => 0⟩

/-- A player with a `streambuf` of 4 bytes. -/
def smallPlayer : Slim :=
  slimBegin ⟨16, fun _ => 0⟩ ⟨64, fun _ => 0⟩ 4 64 44100 0 false fun _ => 0

/-- strm 's' for mp3. -/
def strmMp3 (autostart : ℤ) (threshold : ℕ) (target : Target) : SlimEvent :=
  .strmStart ⟨autostart, [], 109, 0, 0, threshold, target, 0, 0, .none, 0, false, 0⟩

/-- A file that fills `streambuf` before a pass has seen it. -/
theorem status_protocol_file :
    let es := [strmMp3 3 1 (.file (some [1, 2, 3, 4])), .streamTop (.data 2)]
    (Runs.watch watchStarted false ((slimMachine allCodecs).run smallPlayer es).2).isSome = true ∧
      PassesStart allCodecs ((slimMachine allCodecs).run smallPlayer es).1 ∧
      (Runs.watch (onTime decodeSignal) none
        ((slimMachine allCodecs).run smallPlayer es).2).isSome = true ∧
      (Runs.watch (onTime streamSignal) none
        ((slimMachine allCodecs).run smallPlayer es).2).isSome = true ∧
      (Runs.watch watchSent ⟨false, false, false⟩
        ((slimMachine allCodecs).run smallPlayer es).2).isSome = true := by
  intro es
  obtain ⟨hstart, hcan, hdecode, hstream, hsent⟩ := status_protocol ⟨16, fun _ => 0⟩
    ⟨64, fun _ => 0⟩ 4 64 44100 0 false (fun _ => 0) allCodecs es
  exact ⟨hstart (by decide), hcan (by decide) ⟨rfl, .inr rfl, rfl, .inr ⟨by decide, by decide⟩⟩,
    hdecode (by decide), hstream (by decide), hsent⟩

/-- A stream that is still buffered, and a decoder that waits for it. -/
structure Buffers (s : Slim) : Prop where
  state : s.stream.state = .streamingBuffering
  ready : s.output.decodeState = .ready
  found : ∀ l, s.pass.begun = some l → l.streamState = .streamingBuffering
  leaves : ∀ l, s.pass.decided = some l → l.streamDisconnect = false

/-- A pass does not start the decoder of a stream that is still buffered. -/
theorem buffers_step (h : Buffers s) (hact : Acts x s e r) (he : e.isPass = true) :
    Buffers r.1 ∧ SlimObs.started ∉ r.2 := by
  cases hact with
  | ignored => exact ⟨h, List.not_mem_nil⟩
  | unseen ho => exact ⟨⟨h.state, ho.decodeState.trans h.ready, h.found, h.leaves⟩, List.not_mem_nil⟩
  | passStream hp =>
      have hsettle : s.stream.settle = s.stream := by
        unfold Streamer.settle
        rw [h.state]
        rfl
      refine ⟨⟨?_, h.ready, fun l hl => ?_, fun l hl => (by cases hl)⟩, List.not_mem_nil⟩
      · show s.stream.settle.state = _
        rw [hsettle]
        exact h.state
      · obtain rfl := Option.some.inj hl
        exact h.state
  | @passDecode l hp =>
      have hl := h.found l (by rw [hp]; rfl)
      have hstarts : s.starts l = false := by
        unfold Slim.starts Slim.startDue
        rw [hl]
        rfl
      refine ⟨⟨h.state, ?_, fun l' hl' => ?_, fun l' hl' => ?_⟩, ?_⟩
      · show (s.output.updateDecode (s.starts l)).decodeState = _
        rw [decodeState_updateDecode, h.ready, hstarts]
        rfl
      · obtain rfl := Option.some.inj hl'
        exact hl
      · obtain rfl := Option.some.inj hl'
        show ((decide (s.output.decodeState = .complete) ||
          decide (s.output.decodeState = .error)) && _) = false
        rw [h.ready]
        rfl
      · simp [Slim.passDecode, hstarts]
  | @passOutput l timeout tick hp =>
      refine ⟨⟨h.state, h.ready, fun l' hl' => ?_, fun l' hl' => ?_⟩, List.not_mem_nil⟩
      · obtain rfl := Option.some.inj hl'
        exact h.found l (by rw [hp]; rfl)
      · obtain rfl := Option.some.inj hl'
        exact h.leaves l (by rw [hp]; rfl)
  | @passEnd l hp =>
      have hopen := h.leaves l (by rw [hp]; rfl)
      have hstream : (s.passEnd l).1.stream = s.stream := by
        show (if _ then _ else _) = _
        rw [hopen]
        rfl
      refine ⟨⟨by rw [hstream]; exact h.state, h.ready, fun l' hl' => (by cases hl'),
        fun l' hl' => (by cases hl')⟩, fun hmem => ?_⟩
      simp only [Slim.passEnd, hopen, Bool.false_and, Bool.false_eq_true, if_false,
        List.nil_append, List.mem_append, List.mem_singleton, List.mem_map, reduceCtorEq,
        and_false, exists_false, false_or, or_false] at hmem
      rcases hmem with (((((hm | hm) | hm) | hm) | hm) | hm) | hm
      all_goals cases (mem_stat hm).2
  | _ => cases he

theorem not_passesStart (h : Buffers s) : ¬ PassesStart x s := by
  rintro ⟨es, hes, hmem⟩
  induction es generalizing s with
  | nil => cases hmem
  | cons e es ih =>
      obtain ⟨hnext, hnot⟩ := buffers_step h (slimStep_acts x s e) (hes e List.mem_cons_self)
      rcases List.mem_append.mp hmem with hm | hm
      · exact hnot hm
      · exact ih hnext (fun e' he' => hes e' (List.mem_cons_of_mem e he')) hm

/-- A pass with nothing in between. -/
def onePass : List SlimEvent := [.passStream, .passDecode, .passOutput false false, .passEnd]

/-- The thread finds the request can be sent, or finds `r`. -/
def threadTurn (pollout : Bool) (r : Incoming) : List SlimEvent :=
  [.streamTop .wouldBlock, .streamPoll ⟨!pollout, pollout, false, true, r, .wouldBlock⟩]

/-- A stream with a threshold of a KB fills the small player, behind a header of five bytes. -/
def bufferedRun : List SlimEvent :=
  strmMp3 1 1 (.connected [72, 13, 10, 13, 10, 1, 2, 3]) :: threadTurn true .wouldBlock ++
    (List.replicate 5 (threadTurn false (.data 0))).flatten ++ threadTurn false (.data 5)

/-- codc once the decoder was started starts it again; with a threshold that `streambuf` does not
hold, the decoder is never started; strm 'q' before the pass takes the end of a decoder run away;
and a connection that is closed in the response header gives no DSCO. -/
theorem status_lost :
    Runs.watch watchStarted false ((slimMachine allCodecs).run smallPlayer
      (strmMp3 3 1 (.file (some [])) :: onePass ++ .codc 109 0 0 :: onePass)).2 = none ∧
    (Expects ((slimMachine allCodecs).run smallPlayer bufferedRun).1 ∧
      ¬ PassesStart allCodecs ((slimMachine allCodecs).run smallPlayer bufferedRun).1) ∧
    Runs.watch (onTime decodeSignal) none ((slimMachine allCodecs).run smallPlayer
      (strmMp3 3 1 (.file (some [])) :: onePass ++ .decodeDone true :: .strmStop :: onePass ++
        onePass)).2 = none ∧
    Runs.watch (onTime streamSignal) none ((slimMachine allCodecs).run smallPlayer
      (strmMp3 0 1 (.connected []) :: threadTurn true .wouldBlock ++ threadTurn false .closed ++
        onePass ++ onePass)).2 = none := by
  refine ⟨by decide, ⟨⟨rfl, .inr rfl, rfl, .inr ⟨by decide, by decide⟩⟩, ?_⟩, by decide, by decide⟩
  exact not_passesStart ⟨rfl, rfl, fun l hl => (by cases hl), fun l hl => (by cases hl)⟩

end SqueezeliteMuse
