/-
SqueezeliteMuse/UpdateSteps.lean

What one event can do to the player.

The stream thread and the output are large, but of a section of theirs the controller sees little:
the state of the stream and whether it has been closed, the bytes that have come, the state of the
decoder, and whether `outputbuf` is empty.  `Streamer.Section` lists what a section of the thread
can do to these, and `Output.Unseen` is all that matters of a section of the output.  `Acts` is
the list of events that do something; what follows about the player is by cases on it.

Main results: `section_top`, `section_afterPoll`, `slimStep_acts`.
-/
import SqueezeliteMuse.Update
import SqueezeliteMuse.TrackStart

namespace SqueezeliteMuse

variable {toGain : ℕ → ℕ → ℤ}

/-! ### The output -/

/-- A section that the controller does not find out about. -/
structure Output.Unseen (s s' : Output) : Prop where
  decodeState : s'.decodeState = s.decodeState
  empty : s.decodeState = .stopped → bufUsed s.outputbuf = 0 → bufUsed s'.outputbuf = 0

theorem decodeState_skipAhead (s : Output) (frames : ℕ) :
    (s.skipAhead frames).1.decodeState = s.decodeState := by
  unfold Output.skipAhead
  split <;> rfl

theorem decodeState_beginFrames (s : Output) (avail now : ℕ) :
    (s.beginFrames avail now).1.decodeState = s.decodeState := by
  have hstart := (same_startBuffer s (bufUsed s.outputbuf / BYTES_PER_FRAME)).decodeState
  have hskip := decodeState_skipAhead (s.startBuffer (bufUsed s.outputbuf / BYTES_PER_FRAME))
    (bufUsed s.outputbuf / BYTES_PER_FRAME)
  exact (same_pauseFor _ _ _ _).decodeState.trans (hskip.trans hstart)

theorem decodeState_writeChunk (silence : Bool) (answer : ℤ) (x : Playing) (cont : ℕ) :
    (Playing.writeChunk silence answer x cont).1.out.decodeState = x.out.decodeState := by
  unfold Playing.writeChunk
  split
  · rfl
  · split <;> rfl

variable (toGain) in
theorem decodeState_round (silence : Bool) (now : ℕ) (answer : ℤ) (x : Playing) :
    (Playing.round toGain silence now answer x).1.out.decodeState = x.out.decodeState := by
  unfold Playing.round
  split
  · exact decodeState_writeChunk _ _ _ _
  split
  · show (x.out.startTrack now).1.decodeState = _
    unfold Output.startTrack
    split <;> rfl
  · refine (decodeState_writeChunk _ _ _ _).trans ?_
    obtain ⟨-, ⟨-, -, hsame⟩ | ⟨-, -, -, hsame⟩⟩ := fadeChunk_cases toGain x x.out.contFrames
    · exact hsame.decodeState
    · exact hsame.decodeState

theorem decodeState_loop (silence : Bool) (now fuel : ℕ) (answers : ℕ → ℤ) (x : Playing) :
    (Playing.loop toGain silence now fuel answers x).1.out.decodeState = x.out.decodeState := by
  induction fuel generalizing answers x with
  | zero => rfl
  | succ fuel ih =>
      have hround := decodeState_round toGain silence now (answers 0) x
      rw [Playing.loop]
      split
      · rfl
      · dsimp only
        split
        · exact (ih _ _).trans hround
        · exact hround

/-- The output thread. -/
theorem unseen_outputFrames (s : Output) (avail now : ℕ) (answers : ℕ → ℤ) :
    s.Unseen (s.outputFrames toGain avail now answers).1 where
  decodeState := (decodeState_loop _ _ _ _ _).trans (decodeState_beginFrames s avail now)
  empty := by
    intro _ hu
    -- with no frame to play there is silence, which takes none
    obtain ⟨hsilent, hsame, -⟩ := beginFrames_empty hu avail now
    have hout := (loop_silent toGain now (s.beginFrames avail now).2.1 answers
      (s.playing (s.beginFrames avail now).1 (s.beginFrames avail now).2.1) .none).1
    simp only [Output.outputFrames, hsilent]
    rw [hout]
    show bufUsed (s.beginFrames avail now).1.outputbuf = 0
    rw [hsame.outputbuf]
    exact hu

theorem unseen_publish (s : Output) (rate : ℕ) (first second : Option Block) :
    s.Unseen (s.publish rate first second).1 := by
  unfold Output.publish
  split
  · rename_i hrun
    refine ⟨?_, fun hstop => by rw [hrun.1] at hstop; cases hstop⟩
    dsimp only
    split
    · rfl
    · unfold Output.checkfadeStart
      split
      · rfl
      split
      · split
        · split <;> rfl
        · split <;> rfl
      · rfl
  · exact ⟨rfl, fun _ hu => hu⟩

theorem unseen_play (s : Output) (p : Play) : s.Unseen (s.control p.control) := by
  cases p <;> exact ⟨rfl, fun _ hu => hu⟩

/-- Frames that are decoded go to `outputbuf`. -/
theorem decodeState_decoded (s : Output) (bs : List UInt8) :
    (s.decoded bs).decodeState = s.decodeState := by
  unfold Output.decoded
  split <;> rfl

/-- A decoder run has ended by itself. -/
theorem decodeState_decodeDone {s : Output} (hrun : s.decodeState = .running) (ok : Bool) :
    (s.decodeDone ok).decodeState = if ok then .complete else .error := by
  unfold Output.decodeDone
  rw [if_pos hrun]
  dsimp only
  split
  · rfl
  · exact (same_checkfadeEnd _).decodeState

/-! ### The stream thread -/

/-- The connection is at its end, or broken. -/
def RecvResult.over : RecvResult → Bool
  | .bytes [] | .error => true
  | _ => false

namespace Streamer

/-- The thread reads from the connection after `poll`. -/
def reads (s : Streamer) (p : Poll) : Bool :=
  s.polling.isSome && s.fd && !(p.pollout && s.polling = some true && s.state = .sendHeaders) &&
    (p.pollin || p.pollhup)

/-- The connection is over in the response header. -/
def endsInHeader (s : Streamer) (p : Poll) : Bool :=
  s.state = .recvHeaders && (recvBytes s.wire 1 p.first).over

/-- The connection is over at the length of a metadata block, or within the block. -/
def endsInMeta (s : Streamer) (p : Poll) : Bool :=
  s.state ≠ .recvHeaders && s.metaInterval ≠ 0 && s.metaNext = 0 &&
    if s.metaLeft = 0 then
      match recvBytes s.wire 1 p.first with
      | .bytes (c :: _) =>
          16 * c.toNat ≠ 0 && (recvBytes (s.wire.drop 1) (16 * c.toNat) p.second).over
      | r => r.over
    else (recvBytes s.wire s.metaLeft p.second).over

/-- The response header ends where it is too long already. -/
def endsTooLong (s : Streamer) (p : Poll) : Bool :=
  s.state = .recvHeaders && s.headerLen + 1 > MAX_HEADER - 1 && s.endtok + 1 = 4 &&
    match recvBytes s.wire 1 p.first with
    | .bytes (c :: _) => c = 13 || c = 10
    | _ => false

/-- The stream ends where the thread does not leave `DISCONNECT`. -/
def cutOff (s : Streamer) (p : Poll) : Bool :=
  s.reads p && (s.endsInHeader p || s.endsInMeta p || s.endsTooLong p)

/-- The thread reads before it has sent the request. -/
def readsEarly (s : Streamer) (p : Poll) : Bool := s.reads p && s.state = .sendHeaders

/-- The thread has something to do: it was in `poll`, or is free to read. -/
def Awake (s : Streamer) : Prop :=
  s.fd = true ∧ (s.polling ≠ none ∨ (s.state.idle = false ∧ s.space ≠ 0))

/-- What the controller sees of a stream, but for where it is. -/
structure Same (s s' : Streamer) : Prop where
  bytes : s'.bytes = s.bytes
  threshold : s'.threshold = s.threshold
  streambuf : s'.streambuf = s.streambuf
  autostart : s'.autostart = s.autostart

/-- The thread is out of `poll`, and has done nothing that is seen. -/
structure Still (s s' : Streamer) : Prop where
  same : s.Same s'
  state : s'.state = s.state
  disconnect : s'.disconnect = s.disconnect
  fd : s'.fd = s.fd
  polling : s'.polling = none

/-- What a section of the thread can do.  `cut` and `early` are whether it ends the stream
unnoticed, and whether it reads before the request. -/
inductive Section (s : Streamer) (cut early : Bool) : Streamer → Prop
  /-- nothing, or nothing that is seen: a byte of the header, or of metadata -/
  | stays {s' : Streamer} : s.Still s' → Section s cut early s'
  | polls (out : Bool) : s.fd = true → s.space ≠ 0 → s.state.idle = false →
      s.state ≠ .streamingFile → Section s cut early { s with polling := some out }
  /-- on from the request to the response header, and on to the body -/
  | heads {s' : Streamer} : s.Awake → s.Same s' →
      (s.state = .sendHeaders ∧ s'.state = .recvHeaders) ∨
        (s.state = .recvHeaders ∧
          (s'.state = .streamingWait ∨ s'.state = .streamingBuffering)) →
      s'.fd = s.fd → s'.polling = none → Section s cut early s'
  /-- bytes of the body -/
  | body {s' : Streamer} (bs : List UInt8) : s.Awake →
      (s.polling = none → s.state = .streamingFile) → s.state ≠ .recvHeaders →
      (s.state = .sendHeaders → early = true) → bs ≠ [] → bs.length ≤ s.space →
      s'.bytes = s.bytes + bs.length → s'.threshold = s.threshold →
      s'.streambuf = bufIncWritep (bufStore s.streambuf bs) bs.length →
      s'.autostart = s.autostart →
      s'.state = (if s.state = .streamingBuffering ∧ s.bytes + bs.length > s.threshold
        then .streamingHttp else s.state) →
      s'.disconnect = s.disconnect → s'.fd = s.fd → s'.polling = none → Section s cut early s'
  /-- the end, with the code of it -/
  | ends {s' : Streamer} : s.Awake → s.Same s' → s'.state = .disconnect → s'.polling = none →
      Section s cut early s'
  /-- the end, unnoticed -/
  | cuts {s' : Streamer} : cut = true → s.Awake → s.Same s' →
      s'.state = .stopped ∨
        (s.state = .recvHeaders ∧
          (s'.state = .streamingWait ∨ s'.state = .streamingBuffering)) →
      s'.fd = false → s'.polling = none → Section s cut early s'

end Streamer

variable {s : Streamer} {cut early : Bool}

/-- The section at the top of the loop. -/
theorem section_top (hpoll : s.polling = none) (file : Incoming) :
    s.Section false false (s.top file).1 := by
  unfold Streamer.top
  split
  · exact .stays ⟨⟨rfl, rfl, rfl, rfl⟩, rfl, rfl, rfl, hpoll⟩
  rename_i hgo
  simp only [not_or, Bool.not_eq_false] at hgo
  obtain ⟨hfd, hspace, hidle⟩ := hgo
  rw [Bool.not_eq_true] at hidle
  have hawake : s.Awake := ⟨hfd, .inr ⟨hidle, hspace⟩⟩
  split
  · rename_i hfile
    rcases hr : recvBytes s.wire s.space file with bs | - | -
    · rcases bs with - | ⟨b, bs⟩
      · exact .ends hawake ⟨rfl, rfl, rfl, rfl⟩ rfl hpoll
      · have hle := (recvBytes_eq hr).2
        refine .body (b :: bs) hawake (fun _ => hfile) (by rw [hfile]; decide) (fun h => ?_)
          (List.cons_ne_nil b bs) hle rfl rfl rfl rfl ?_ rfl rfl hpoll
        · rw [hfile] at h
          cases h
        · show s.state = _
          rw [if_neg (by rw [hfile]; exact fun h => by cases h.1)]
    · exact .ends hawake ⟨rfl, rfl, rfl, rfl⟩ rfl hpoll
    · exact .ends hawake ⟨rfl, rfl, rfl, rfl⟩ rfl hpoll
  · rename_i hfile
    exact .polls _ hfd hspace hidle hfile

/-- A call of `recv`, by what it finds. -/
theorem received_cases {R : Streamer → Prop} {failed closed : Streamer} {len : ℕ} {r : Incoming}
    {take : List UInt8 → Streamer × List StreamObs} (hs : R s)
    (hover : (recvBytes s.wire len r).over = true → R failed ∧ R closed)
    (htake : ∀ b bs, recvBytes s.wire len r = .bytes (b :: bs) → R (take (b :: bs)).1) :
    R (s.received len r failed closed take).1 := by
  unfold Streamer.received
  rcases hr : recvBytes s.wire len r with bs | - | -
  · rcases bs with - | ⟨b, bs⟩
    · exact (hover (by rw [hr]; rfl)).2
    · exact htake b bs hr
  · exact hs
  · exact (hover (by rw [hr]; rfl)).1

theorem Streamer.Same.trans {s₁ s₂ s₃ : Streamer} (h : s₁.Same s₂) (h' : s₂.Same s₃) :
    s₁.Same s₃ :=
  ⟨h'.bytes.trans h.bytes, h'.threshold.trans h.threshold, h'.streambuf.trans h.streambuf,
    h'.autostart.trans h.autostart⟩

/-- A byte of the response header leaves all but the end of the stream alone. -/
theorem storeHeader_same (s : Streamer) (c : UInt8) :
    s.Same (s.storeHeader c) ∧ (s.storeHeader c).polling = s.polling ∧
      (s.storeHeader c).endtok = s.endtok ∧
      (if s.headerLen + 1 > MAX_HEADER - 1 then (s.storeHeader c).state = .disconnect ∧
          (s.storeHeader c).fd = false
        else (s.storeHeader c).state = s.state ∧ (s.storeHeader c).fd = s.fd ∧
          (s.storeHeader c).disconnect = s.disconnect) := by
  unfold Streamer.storeHeader
  split
  · exact ⟨⟨rfl, rfl, rfl, rfl⟩, rfl, rfl, rfl, rfl⟩
  · exact ⟨⟨rfl, rfl, rfl, rfl⟩, rfl, rfl, rfl, rfl, rfl⟩

section Reading

variable {t : Streamer}

/-- A byte of the response header. -/
theorem section_headerByte {c : UInt8} (hawake : t.Awake) (hstill : t.Still s)
    (hhead : t.state = .recvHeaders)
    (hcut : s.headerLen + 1 > MAX_HEADER - 1 → s.endtok + 1 = 4 → (c = 13 ∨ c = 10) →
      cut = true) :
    t.Section cut early (s.headerByte c).1 := by
  obtain ⟨hstored, hpolled, htok, hlong⟩ := storeHeader_same s c
  have hpoll := hpolled.trans hstill.polling
  have hsame := hstill.same.trans hstored
  -- the byte is not the end of the header
  have hgoes : ∀ n, t.Section cut early { s.storeHeader c with endtok := n } := by
    intro n
    have hsame' : t.Same { s.storeHeader c with endtok := n } := hsame.trans ⟨rfl, rfl, rfl, rfl⟩
    split at hlong
    · exact .ends hawake hsame' hlong.1 hpoll
    · exact .stays ⟨hsame', hlong.1.trans hstill.state, hlong.2.2.trans hstill.disconnect,
        hlong.2.1.trans hstill.fd, hpoll⟩
  unfold Streamer.headerByte
  split
  swap
  · exact hgoes _
  rename_i hline
  split
  swap
  · exact hgoes _
  rename_i hend
  rw [htok] at hend
  have hstart : (s.storeHeader c).endHeader.state = .streamingWait ∨
      (s.storeHeader c).endHeader.state = .streamingBuffering := by
    show (if _ then _ else _) = _ ∨ (if _ then _ else _) = _
    split
    · exact .inl rfl
    · exact .inr rfl
  have hsame' : t.Same (s.storeHeader c).endHeader := hsame.trans ⟨rfl, rfl, rfl, rfl⟩
  split at hlong
  · -- the connection is closed, but not the stream
    rename_i hmax
    exact .cuts (hcut hmax hend hline.2) hawake hsame' (.inr ⟨hhead, hstart⟩) hlong.2 hpoll
  · exact .heads hawake hsame' (.inr ⟨hhead, hstart⟩) (hlong.2.1.trans hstill.fd) hpoll

/-- The connection is over where the thread does not leave `DISCONNECT`. -/
theorem section_cut (hawake : t.Awake) (hstill : t.Still s) (hcut : cut = true) :
    t.Section cut early (s.disconnectWith .stopped .localDisconnect) :=
  .cuts hcut hawake (hstill.same.trans ⟨rfl, rfl, rfl, rfl⟩) (.inl rfl) rfl hstill.polling

theorem still_recvMetaEnd (hstill : t.Still s) : t.Still s.recvMetaEnd.1 := by
  have hmeta : ∀ h l m n, t.Still { s with
      header := h, headerLen := l, metaSend := m, metaNext := n } :=
    fun _ _ _ _ => ⟨hstill.same.trans ⟨rfl, rfl, rfl, rfl⟩, hstill.state, hstill.disconnect,
      hstill.fd, hstill.polling⟩
  unfold Streamer.recvMetaEnd
  split
  · dsimp only
    split
    · exact hmeta _ _ _ _
    · exact hmeta _ _ _ _
  · exact hstill

theorem section_recvMetaBlock (hawake : t.Awake) (hstill : t.Still s) {r : Incoming}
    (hcut : s.metaLeft ≠ 0 → (recvBytes s.wire s.metaLeft r).over = true → cut = true) :
    t.Section cut early (s.recvMetaBlock r).1 := by
  unfold Streamer.recvMetaBlock
  split
  · rename_i hleft
    apply received_cases
    · exact .stays hstill
    · intro hover
      exact ⟨section_cut hawake hstill (hcut hleft hover),
        section_cut hawake hstill (hcut hleft hover)⟩
    · intro b bs _
      exact .stays (still_recvMetaEnd ⟨hstill.same.trans ⟨rfl, rfl, rfl, rfl⟩, hstill.state,
        hstill.disconnect, hstill.fd, hstill.polling⟩)
  · exact .stays (still_recvMetaEnd hstill)

theorem section_recvBody (hawake : t.Awake) (hstill : t.Still s) (hpoll : t.polling ≠ none)
    (hhead : t.state ≠ .recvHeaders) (hearly : t.state = .sendHeaders → early = true) (r : Incoming) :
    t.Section cut early (s.recvBody r).1 := by
  unfold Streamer.recvBody
  apply received_cases
  · exact .stays hstill
  · intro _
    exact ⟨.ends hawake (hstill.same.trans ⟨rfl, rfl, rfl, rfl⟩) rfl hstill.polling,
      .ends hawake (hstill.same.trans ⟨rfl, rfl, rfl, rfl⟩) rfl hstill.polling⟩
  · intro b bs hr
    have hle := (recvBytes_eq hr).2
    have hspace : s.bodySpace ≤ t.space := by
      have hsame : t.space = s.space := by
        unfold Streamer.space
        rw [hstill.same.streambuf]
      rw [hsame]
      unfold Streamer.bodySpace
      split <;> omega
    refine .body (b :: bs) hawake (fun h => absurd h hpoll) hhead hearly
      (List.cons_ne_nil b bs) (Nat.le_trans hle hspace) ?_ hstill.same.threshold ?_ hstill.same.autostart ?_ hstill.disconnect hstill.fd
      hstill.polling
    · show s.bytes + (b :: bs).length = _
      rw [hstill.same.bytes]
    · show bufIncWritep (bufStore s.streambuf (b :: bs)) (b :: bs).length = _
      rw [hstill.same.streambuf]
    · show (if _ then _ else s.state) = _
      rw [hstill.state, hstill.same.bytes, hstill.same.threshold]

end Reading

/-- Metadata: the length of a block, unless one has begun, and bytes of it. -/
theorem section_recvMeta {t : Streamer} (hawake : t.Awake) (hstill : t.Still s)
    {p : Streamer.Poll}
    (hcut : (if s.metaLeft = 0 then
      match recvBytes s.wire 1 p.first with
      | .bytes (c :: _) =>
          16 * c.toNat ≠ 0 && (recvBytes (s.wire.drop 1) (16 * c.toNat) p.second).over
      | r => r.over
    else (recvBytes s.wire s.metaLeft p.second).over) = true → cut = true) :
    t.Section cut early (s.recvMeta p.first p.second).1 := by
  unfold Streamer.recvMeta
  split
  · rename_i hleft
    rw [if_pos hleft] at hcut
    apply received_cases
    · exact .stays hstill
    · intro hover
      have hend : cut = true := by
        apply hcut
        rcases hr : recvBytes s.wire 1 p.first with bs | - | -
        · rcases bs with - | ⟨c, bs⟩
          · rfl
          · rw [hr] at hover
            cases hover
        · rw [hr] at hover
          cases hover
        · rfl
      exact ⟨section_cut hawake hstill hend, section_cut hawake hstill hend⟩
    · intro c bs hr
      rw [hr] at hcut
      show t.Section cut early ((s.startMeta c).recvMetaBlock p.second).1
      refine section_recvMetaBlock (s := s.startMeta c) hawake ⟨hstill.same.trans ⟨rfl, rfl, rfl, rfl⟩, hstill.state,
        hstill.disconnect, hstill.fd, hstill.polling⟩ fun hmore hover => hcut ?_
      rw [Bool.and_eq_true, decide_eq_true_eq]
      exact ⟨hmore, hover⟩
  · rename_i hleft
    rw [if_neg hleft] at hcut
    exact section_recvMetaBlock hawake hstill fun _ hover => hcut hover

/-- The section after `poll`. -/
theorem section_afterPoll (s : Streamer) (p : Streamer.Poll) :
    s.Section (s.cutOff p) (s.readsEarly p) (s.afterPoll p).1 := by
  unfold Streamer.afterPoll
  rcases hpoll : s.polling with - | out
  · exact .stays ⟨⟨rfl, rfl, rfl, rfl⟩, rfl, rfl, rfl, hpoll⟩
  dsimp only
  have hstill : s.Still { s with polling := none } := ⟨⟨rfl, rfl, rfl, rfl⟩, rfl, rfl, rfl, rfl⟩
  split
  · exact .stays hstill
  rename_i hfd
  rw [Bool.not_eq_false] at hfd
  have hpolled : s.polling ≠ none := by
    rw [hpoll]
    exact Option.some_ne_none out
  have hawake : s.Awake := ⟨hfd, .inl hpolled⟩
  split
  · rename_i hsend
    unfold Streamer.sendHeader
    split
    · exact .heads hawake ⟨rfl, rfl, rfl, rfl⟩ (.inl ⟨hsend.2, rfl⟩) rfl rfl
    · exact .ends hawake ⟨rfl, rfl, rfl, rfl⟩ rfl rfl
  rename_i hsend
  split
  swap
  · exact .stays hstill
  rename_i hevent
  have hreads : s.reads p = true := by
    unfold Streamer.reads
    rw [hpoll, hfd, hevent]
    rcases hout : p.pollout && out with - | -
    · rcases out with - | -
      · simp
      · simp [(Bool.and_true _).symm.trans hout]
    · have hstate : s.state ≠ .sendHeaders := fun h => hsend ⟨hout, h⟩
      simp [hstate]
  split
  · rename_i hhead
    unfold Streamer.recvHeader
    apply received_cases
    · exact .stays hstill
    · intro hover
      have hcut : s.cutOff p = true := by
        have hends : s.endsInHeader p = true := by
          unfold Streamer.endsInHeader
          rw [show s.state = .recvHeaders from hhead]
          exact hover
        simp [Streamer.cutOff, hreads, hends]
      exact ⟨section_cut hawake hstill hcut, section_cut hawake hstill hcut⟩
    · intro c bs hr
      refine section_headerByte hawake hstill hhead fun hmax hend hline => ?_
      have hlong : s.endsTooLong p = true := by
        have hr : recvBytes s.wire 1 p.first = .bytes (c :: bs) := hr
        simp only [Streamer.endsTooLong, hr, show s.state = .recvHeaders from hhead]
        rw [show s.endtok + 1 = 4 from hend]
        simpa using ⟨hmax, hline⟩
      simp [Streamer.cutOff, hreads, hlong]
  rename_i hhead
  split
  · rename_i hmeta
    refine section_recvMeta hawake hstill fun hover => ?_
    have hends : s.endsInMeta p = true := by
      unfold Streamer.endsInMeta
      rw [show s.metaNext = 0 from hmeta.2]
      simpa [show s.state ≠ .recvHeaders from hhead, show s.metaInterval ≠ 0 from hmeta.1]
        using hover
    simp [Streamer.cutOff, hreads, hends]
  · refine section_recvBody hawake hstill hpolled hhead (fun hstate => ?_) p.first
    unfold Streamer.readsEarly
    rw [hreads, hstate]
    rfl

/-- The thread does nothing in a stream that is at its end. -/
theorem not_awake (hend : s.state.toend = true) (hsleep : s.polling = none ∨ s.fd = false) :
    ¬ s.Awake := by
  rintro ⟨hfd, hpoll | ⟨hidle, -⟩⟩
  · rcases hsleep with h | h
    · exact hpoll h
    · rw [hfd] at h
      cases h
  · have hover : s.state.idle = true := by
      rcases hst : s.state <;> rw [hst] at hend <;> first | rfl | cases hend
    rw [hover] at hidle
    cases hidle

namespace Streamer.Section

variable {s' : Streamer}

/-- A thread that has nothing to do leaves the stream alone. -/
theorem still (h : s.Section cut early s') (hno : ¬ s.Awake) : s.Still s' := by
  cases h with
  | stays hstill => exact hstill
  | polls out hfd hspace hidle _ => exact absurd ⟨hfd, .inr ⟨hidle, hspace⟩⟩ hno
  | heads hawake => exact absurd hawake hno
  | body _ hawake => exact absurd hawake hno
  | ends hawake => exact absurd hawake hno
  | cuts _ hawake => exact absurd hawake hno

/-- A stream that has come to its end is left alone from then on. -/
theorem asleep (h : s.Section cut early s')
    (hsleep : s.state.toend = true → s.polling = none ∨ s.fd = false)
    (hend : s'.state.toend = true) : s'.polling = none ∨ s'.fd = false := by
  cases h with
  | stays hstill => exact .inl hstill.polling
  | polls out hfd hspace hidle _ =>
      exact absurd ⟨hfd, .inr ⟨hidle, hspace⟩⟩ (not_awake (s := s) hend (hsleep hend))
  | heads _ _ _ _ hpoll => exact .inl hpoll
  | body _ _ _ _ _ _ _ _ _ _ _ _ _ _ hpoll => exact .inl hpoll
  | ends _ _ _ hpoll => exact .inl hpoll
  | cuts _ _ _ _ hfd _ => exact .inr hfd

/-- A section in which the stream does not end leaves it at its end, or not. -/
theorem not_ends (hst : s'.state.toend = s.state.toend) (hfd : s'.fd = s.fd) :
    s.ends s' = false := by
  unfold Streamer.ends
  rw [hst, hfd]
  rcases s.fd <;> rcases s.state.toend <;> rfl

theorem autostart (h : s.Section cut early s') : s'.autostart = s.autostart := by
  cases h with
  | stays hstill => exact hstill.same.autostart
  | polls => rfl
  | heads _ hsame => exact hsame.autostart
  | body _ _ _ _ _ _ _ _ _ _ hauto => exact hauto
  | ends _ hsame => exact hsame.autostart
  | cuts _ _ hsame => exact hsame.autostart

/-- The stream ends in a section, leaving `DISCONNECT`; it ends unnoticed; or it does not. -/
theorem outcome (h : s.Section cut early s')
    (hsleep : s.state.toend = true → s.polling = none ∨ s.fd = false) :
    (s.ends s' = false ∧ (s.state.toend = true → s'.state = s.state) ∧
        s'.state.toend = s.state.toend) ∨
      (s.ends s' = true ∧ s.state.toend = false ∧ s'.state = .disconnect ∧ s.Awake ∧ s.Same s') ∨
      (cut = true ∧ s.state.toend = false ∧ s.Awake ∧ s.Same s') := by
  have hgoes : s.Awake → s.state.toend = false := by
    intro hawake
    by_contra hend
    rw [Bool.not_eq_false] at hend
    exact not_awake hend (hsleep hend) hawake
  cases h with
  | stays hstill =>
      have hst := congrArg StreamState.toend hstill.state
      exact .inl ⟨not_ends hst hstill.fd, fun _ => hstill.state, hst⟩
  | polls out _ _ _ _ => exact .inl ⟨not_ends rfl rfl, fun _ => rfl, rfl⟩
  | heads hawake _ hstep hfd _ =>
      have hst : s'.state.toend = s.state.toend := by
        rcases hstep with ⟨h₁, h₂⟩ | ⟨h₁, h₂ | h₂⟩ <;> rw [h₁, h₂] <;> rfl
      refine .inl ⟨not_ends hst hfd, fun hend => ?_, hst⟩
      rw [hgoes hawake] at hend
      cases hend
  | body _ hawake _ _ _ _ _ _ _ _ _ hstep _ hfd _ =>
      have hst : s'.state.toend = s.state.toend := by
        rw [hstep]
        split
        · rename_i hbuffer
          rw [hbuffer.1]
          rfl
        · rfl
      refine .inl ⟨not_ends hst hfd, fun hend => ?_, hst⟩
      rw [hgoes hawake] at hend
      cases hend
  | ends hawake hsame hst _ =>
      refine .inr (.inl ⟨?_, hgoes hawake, hst, hawake, hsame⟩)
      unfold Streamer.ends
      rw [hgoes hawake, hst]
      exact Bool.or_true _
  | cuts hcut hawake hsame => exact .inr (.inr ⟨hcut, hgoes hawake, hawake, hsame⟩)

end Streamer.Section

/-! ### Events -/

/-- What an event does, in each case. -/
inductive Acts (x : SlimSetup) (s : Slim) : SlimEvent → Slim × List SlimObs → Prop
  /-- nothing: it cannot happen here -/
  | ignored (e : SlimEvent) : Acts x s e (s, [])
  | top (file : Incoming) : s.stream.polling = none →
      Acts x s (.streamTop file) (s.threaded (s.stream.top file).1)
  | poll (p : Streamer.Poll) : Acts x s (.streamPoll p) (s.threaded (s.stream.afterPoll p).1)
  | timeout : Acts x s .pollTimeout ({ s with stream := { s.stream with polling := none } }, [])
  /-- a section of the output, or one of the controller that is about the output -/
  | unseen {e : SlimEvent} {o : Output} : s.output.Unseen o →
      Acts x s e ({ s with output := o }, [])
  | decode (n : ℕ) (bs : List UInt8) : s.output.decodeState = .running →
      Acts x s (.decode n bs)
        ({ s with stream := (s.stream.drain n).1, output := s.output.decoded bs }, [])
  | decodeDone (ok : Bool) : s.output.decodeState = .running →
      Acts x s (.decodeDone ok) ({ s with output := s.output.decodeDone ok }, [.decodeEnded ok])
  | passStream : s.pass = .idle → Acts x s .passStream (s.passStream, [])
  | passDecode {l : Pass} : s.pass = .stream l → Acts x s .passDecode (s.passDecode l)
  | passOutput {l : Pass} (timeout tick : Bool) : s.pass = .decode l →
      Acts x s (.passOutput timeout tick) (s.passOutput l timeout tick, [])
  | passEnd {l : Pass} : s.pass = .output l → Acts x s .passEnd (s.passEnd l)
  | strmStart (a : StrmStart) : s.pass = .idle → Acts x s (.strmStart a) (s.strmStart x.known a)
  | strmStop : s.pass = .idle → Acts x s .strmStop s.strmStop
  | cont (metaint : ℕ) : s.pass = .idle →
      Acts x s (.cont metaint) ({ s with stream := (s.stream.processCont metaint).1 }, [])
  | codc (format size channels : UInt8) : s.pass = .idle →
      Acts x s (.codc format size channels) (s.codecOpen x.known format size channels, [])

/-- A packet is processed between two passes. -/
theorem packet_acts (x : SlimSetup) {s : Slim} (hidle : s.pass = .idle) (e : SlimEvent) :
    Acts x s e (s.packet x e) := by
  cases e with
  | strmStart a => exact .strmStart a hidle
  | strmStop => exact .strmStop hidle
  | cont metaint => exact .cont metaint hidle
  | codc format size channels => exact .codc format size channels hidle
  | play p => exact .unseen (unseen_play s.output p)
  | _ => exact .ignored _

theorem slimStep_acts (x : SlimSetup) (s : Slim) (e : SlimEvent) :
    Acts x s e (slimStep x s e) := by
  cases e with
  | streamTop file =>
      show Acts x s _ (if s.stream.polling = none then _ else _)
      split
      · exact .top file ‹_›
      · exact .ignored _
  | streamPoll p => exact .poll p
  | pollTimeout => exact .timeout
  | publish rate first second => exact .unseen (unseen_publish s.output rate first second)
  | decode n bs =>
      show Acts x s _ (if s.output.decodeState = .running then _ else s, [])
      split
      · exact .decode n bs ‹_›
      · exact .ignored _
  | decodeDone ok =>
      show Acts x s _ ({ s with output := s.output.decodeDone ok },
        if s.output.decodeState = .running then [.decodeEnded ok] else [])
      split
      · exact .decodeDone ok ‹_›
      · rename_i hrun
        refine .unseen ?_
        unfold Output.decodeDone
        rw [if_neg hrun]
        exact ⟨rfl, fun _ hu => hu⟩
  | frames avail now answers => exact .unseen (unseen_outputFrames s.output avail now answers)
  | strmStart _ | strmStop | cont _ | codc _ _ _ | play _ | passStream | passDecode
  | passOutput _ _ | passEnd =>
      rcases hpass : s.pass with - | l | l | l
      all_goals
        simp only [slimStep, hpass]
        first
          | exact .ignored _
          | exact .passStream hpass
          | exact .passDecode hpass
          | exact .passOutput _ _ hpass
          | exact .passEnd hpass
          | exact packet_acts x hpass _

/-! ### Packets -/

/-- What the controller remembers, and where it is. -/
structure Remembers (s s' : Slim) : Prop where
  pass : s'.pass = s.pass
  sentSTMu : s'.sentSTMu = s.sentSTMu
  sentSTMo : s'.sentSTMo = s.sentSTMo
  sentSTMl : s'.sentSTMl = s.sentSTMl
  started : s'.started = s.started
  delivered : s'.delivered = s.delivered
  endedOk : s'.endedOk = s.endedOk

theorem remembers_codecOpen (known : UInt8 → Bool) (format size channels : UInt8) (s : Slim) :
    Remembers s (s.codecOpen known format size channels) := by
  unfold Slim.codecOpen
  split <;> exact ⟨rfl, rfl, rfl, rfl, rfl, rfl, rfl⟩

/-- Opening a codec adjusts `streambuf` at most. -/
theorem stream_codecOpen (known : UInt8 → Bool) (format size channels : UInt8) (s : Slim) :
    (s.codecOpen known format size channels).stream = { s.stream with
      streambuf := if known format then codecBuffer s.codec format size channels s.stream.streambuf
        else s.stream.streambuf } := by
  unfold Slim.codecOpen
  split <;> rfl

/-- `decode.state` when a codec is opened. -/
theorem decodeState_codecOpen (known : UInt8 → Bool) (format size channels : UInt8) (s : Slim) :
    (s.codecOpen known format size channels).output.decodeState =
      if known format then .ready else .stopped := by
  unfold Slim.codecOpen
  split <;> rfl

theorem pass_strmCodec (known : UInt8 → Bool) (a : StrmStart) (s : Slim) :
    (s.strmCodec known a).pass = s.pass := by
  unfold Slim.strmCodec
  dsimp only
  split
  · exact (remembers_codecOpen known _ _ _ _).pass
  · rfl

theorem pass_strmStart (known : UInt8 → Bool) (a : StrmStart) (s : Slim) :
    (s.strmStart known a).1.pass = s.pass := by
  unfold Slim.strmStart
  split
  · rfl
  · exact pass_strmCodec known a s

/-- `decode.state` after strm 's'. -/
theorem decodeState_strmCodec (known : UInt8 → Bool) (a : StrmStart) (s : Slim) :
    (s.strmCodec known a).output.decodeState =
      if a.format = 0x3f then s.output.decodeState
      else if known a.format then .ready else .stopped := by
  unfold Slim.strmCodec
  dsimp only
  split
  · exact decodeState_codecOpen known _ _ _ _
  · rename_i hformat
    exact (if_pos (not_not.mp hformat)).symm

/-- What strm 's' lets be seen. -/
theorem log_strmStart (known : UInt8 → Bool) (a : StrmStart) (s : Slim) :
    (s.strmStart known a).2 =
      if a.refused then [] else if a.target.failed then [.opened, .streamEnded] else [.opened] := by
  unfold Slim.strmStart
  split <;> rfl

/-- The stream that strm 's' finds: `autostart` is set, and `streambuf` is adjusted at most. -/
theorem stream_strmCodec (known : UInt8 → Bool) (a : StrmStart) (s : Slim) :
    (s.strmCodec known a).stream = { s.stream with
      autostart := a.autostart
      streambuf := if a.format ≠ 0x3f ∧ known a.format = true
        then codecBuffer s.codec a.format a.pcmSampleSize a.pcmChannels s.stream.streambuf
        else s.stream.streambuf } := by
  unfold Slim.strmCodec
  dsimp only
  split
  · rename_i hformat
    rw [stream_codecOpen]
    simp only [hformat, ne_eq, not_false_eq_true, true_and]
  · rename_i hformat
    simp only [hformat, false_and, if_false]

/-- cont tells a stream that waits for it to go on, and leaves any other where it is. -/
theorem processCont_cases (s : Streamer) (metaint : ℕ) :
    (s.processCont metaint).1.bytes = s.bytes ∧
      (s.processCont metaint).1.threshold = s.threshold ∧
      (s.processCont metaint).1.streambuf = s.streambuf ∧
      (s.processCont metaint).1.disconnect = s.disconnect ∧
      (s.processCont metaint).1.fd = s.fd ∧
      (s.processCont metaint).1.polling = s.polling ∧
      ((s.processCont metaint).1.state = s.state ∨
        (s.state = .streamingWait ∧ (s.processCont metaint).1.state = .streamingBuffering)) := by
  unfold Streamer.processCont
  split
  · dsimp only
    split
    · rename_i hwait
      exact ⟨rfl, rfl, rfl, rfl, rfl, rfl, .inr ⟨hwait, rfl⟩⟩
    · exact ⟨rfl, rfl, rfl, rfl, rfl, rfl, .inl rfl⟩
  · exact ⟨rfl, rfl, rfl, rfl, rfl, rfl, .inl rfl⟩

end SqueezeliteMuse
