/-
SqueezeliteMuse/StatusReports.lean

The reports of the update pass to the server.

The controller is a poller (`Lib.Reports`): the end of a decoder run is left for it in
`decode.state`, the end of the stream in `stream.state`, and it looks at each once in a pass.
What it finds is in the locals of the pass until the packets are sent (`Pass.decodeReport`,
`Pass.streamReport`).  A packet of the server can take away what it has not found yet, and the
stream can end without leaving anything to be found; `Slim.keepsDecodeEnd` and
`Slim.keepsStreamEnd` are the conditions that this does not happen.

STMl, STMu and STMo are sent once, as a flag says that they were: no condition is needed.

Main results: `decode_reported`, `stream_reported`, `sent_once`.
-/
import SqueezeliteMuse.UpdateSteps
import SqueezeliteMuse.Lib.Reports

namespace SqueezeliteMuse

open Reports

variable {x : SlimSetup} {s : Slim} {l : Pass} {e : SlimEvent} {r : Slim × List SlimObs}

/-! ### What a pass knows -/

/-- The locals of a pass that is behind the section of the decoder. -/
def Controller.decided : Controller → Option Pass
  | .decode l | .output l => some l
  | _ => none

/-- The locals of a pass that is behind the section of the stream. -/
def Controller.begun : Controller → Option Pass
  | .stream l | .decode l | .output l => some l
  | .idle => none

/-- STMd, or STMn, is to be sent. -/
def Pass.decodeReport (l : Pass) : Option Bool :=
  if l.sendSTMd then some true else if l.sendSTMn then some false else none

/-- A decoder that a pass has found stopped, or at its end, is stopped, and stays so until the
pass is over: a codec is opened by a packet. -/
structure Settled (s : Slim) : Prop where
  stopped : ∀ l, s.pass.decided = some l → l.decodeState = .stopped →
    s.output.decodeState = .stopped
  ended : ∀ l, s.pass.decided = some l →
    l.sendSTMd = true ∨ l.sendSTMn = true ∨ l.streamDisconnect = true → l.decodeState = .stopped
  one : ∀ l, s.pass.decided = some l → l.sendSTMd = true → l.sendSTMn = false

theorem settled_of_not_decided (h : s.pass.decided = none) : Settled s := by
  have hno : ∀ l, s.pass.decided ≠ some l := fun l hl => by
    rw [h] at hl
    cases hl
  exact ⟨fun l hl => absurd hl (hno l), fun l hl => absurd hl (hno l),
    fun l hl => absurd hl (hno l)⟩

theorem Settled.of_decodeState {s' : Slim} (h : Settled s) (hpass : s'.pass = s.pass)
    (hstate : s.output.decodeState = .stopped → s'.output.decodeState = .stopped) :
    Settled s' where
  stopped := fun l hl hst => hstate (h.stopped l (hpass ▸ hl) hst)
  ended := fun l hl => h.ended l (hpass ▸ hl)
  one := fun l hl => h.one l (hpass ▸ hl)

/-- The decoder is stopped when it is found at its end. -/
theorem decodeState_updateDecode (s : Output) (run : Bool) :
    (s.updateDecode run).decodeState =
      match s.decodeState with
      | .ready => if run then .running else .ready
      | .complete | .error => .stopped
      | d => d := by
  unfold Output.updateDecode
  rcases hd : s.decodeState with - | - | - | - | -
  · exact hd
  · dsimp only
    split
    · rfl
    · exact hd
  · exact hd
  · rfl
  · rfl

theorem settled_passDecode (s : Slim) (l : Pass) : Settled (s.passDecode l).1 where
  stopped := by
    intro l' hl' hst
    obtain rfl := Option.some.inj hl'
    exact hst
  ended := by
    intro l' hl' hend
    obtain rfl := Option.some.inj hl'
    show (s.output.updateDecode (s.starts l)).decodeState = .stopped
    rw [decodeState_updateDecode]
    have hover : s.output.decodeState = .complete ∨ s.output.decodeState = .error := by
      rcases hend with h | h | h
      · exact .inl (of_decide_eq_true h)
      · exact .inr (of_decide_eq_true h)
      · simpa using (Bool.and_eq_true_iff.mp h).1
    rcases hover with h | h <;> rw [h]
  one := by
    intro l' hl' hd
    obtain rfl := Option.some.inj hl'
    have hd : s.output.decodeState = .complete := of_decide_eq_true hd
    show decide (s.output.decodeState = .error) = false
    rw [hd]
    rfl

theorem decodeState_updateOutput (s : Output) (start underrun timeout : Bool) :
    (s.updateOutput start underrun timeout).decodeState = s.decodeState := rfl

/-- Whatever happens, what a pass has settled stays settled. -/
theorem settled_step (h : Settled s) (hact : Acts x s e r) : Settled r.1 := by
  have hidle : ∀ s' : Slim, s'.pass = .idle → Settled s' := fun s' hp =>
    settled_of_not_decided (by rw [hp]; rfl)
  cases hact with
  | ignored => exact h
  | top _ _ | poll _ | timeout | cont _ _ => exact h.of_decodeState rfl id
  | unseen ho => exact h.of_decodeState rfl fun hst => ho.decodeState.trans hst
  | decode n bs _ => exact h.of_decodeState rfl fun hst => (decodeState_decoded _ bs).trans hst
  | decodeDone ok hrun =>
      exact h.of_decodeState rfl fun hst => by rw [hrun] at hst; cases hst
  | passStream _ => exact settled_of_not_decided rfl
  | passDecode _ => exact settled_passDecode s _
  | @passOutput l _ _ hp =>
      have hdec : s.pass.decided = some l := by rw [hp]; rfl
      refine ⟨fun l' hl' hst => ?_, fun l' hl' hend => ?_, fun l' hl' hd => ?_⟩
      · obtain rfl := Option.some.inj hl'
        exact h.stopped l hdec hst
      · obtain rfl := Option.some.inj hl'
        exact h.ended l hdec hend
      · obtain rfl := Option.some.inj hl'
        exact h.one l hdec hd
  | passEnd _ => exact hidle _ rfl
  | strmStart a hp => exact hidle _ ((pass_strmStart x.known a s).trans hp)
  | strmStop hp => exact hidle _ hp
  | codc format size channels hp => exact hidle _ ((remembers_codecOpen x.known _ _ _ s).pass.trans hp)

/-! ### STMd and STMn -/

/-- What is seen, as far as it is about ends of decoder runs. -/
def decodeSignal : SlimObs → Signal Bool
  | .decodeEnded ok => .incident ok
  | .stat .STMd _ _ _ => .report true
  | .stat .STMn _ _ _ => .report false
  | .passed => .turn
  | _ => .other

/-- The end of a decoder run that is there to be found. -/
def Output.decodeEnd (s : Output) : Option Bool :=
  match s.decodeState with
  | .complete => some true
  | .error => some false
  | _ => none

/-- A packet that opens a codec, or stops the decoder, does not come while the end of a decoder
run is there to be found. -/
def Slim.keepsDecodeEnd (s : Slim) : SlimEvent → Bool
  | .strmStart a => a.refused || a.format = 0x3f || s.output.decodeEnd.isNone
  | .strmStop | .codc _ _ _ => s.output.decodeEnd.isNone
  | _ => true

/-- A pass, and the end of a decoder run that is to be reported. -/
structure DecodeDue (s : Slim) (d : Due Bool) : Prop where
  settled : Settled s
  polled : Polled s.output.decodeEnd (s.pass.decided.map Pass.decodeReport) d

theorem decodeEnd_congr {o o' : Output} (h : o'.decodeState = o.decodeState) :
    o'.decodeEnd = o.decodeEnd := by
  unfold Output.decodeEnd
  rw [h]

/-- A decoder that is opened, or cannot be, is not at its end. -/
theorem decodeEnd_opened {o : Output} {known : Bool}
    (h : o.decodeState = if known then .ready else .stopped) : o.decodeEnd = none := by
  unfold Output.decodeEnd
  rw [h]
  rcases known with - | - <;> rfl

/-- strm 's' opens a codec, or leaves the decoder alone. -/
theorem decodeEnd_strmStart (known : UInt8 → Bool) {a : StrmStart} {s : Slim}
    (h : s.keepsDecodeEnd (.strmStart a) = true) :
    (s.strmStart known a).1.output.decodeEnd = s.output.decodeEnd := by
  simp only [Slim.keepsDecodeEnd, Bool.or_eq_true, decide_eq_true_eq] at h
  have hcodec := decodeState_strmCodec known a s
  unfold Slim.strmStart
  split
  · rfl
  rename_i hok
  show (s.strmCodec known a).output.decodeEnd = _
  rcases h with (h | h) | h
  · exact absurd h hok
  · rw [if_pos h] at hcodec
    exact decodeEnd_congr hcodec
  · rw [Option.isNone_iff_eq_none.mp h]
    by_cases hformat : a.format = 0x3f
    · rw [if_pos hformat] at hcodec
      rw [decodeEnd_congr hcodec]
      exact Option.isNone_iff_eq_none.mp h
    · rw [if_neg hformat] at hcodec
      exact decodeEnd_opened hcodec

/-- A STAT packet that is sent, if it is. -/
theorem mem_stat {s : Slim} {due : Bool} {event : UpdateStat} {o : SlimObs}
    (h : o ∈ s.stat due event) :
    due = true ∧
      o = .stat event s.stream.autostart s.output.decodeState (bufUsed s.output.outputbuf) := by
  unfold Slim.stat at h
  split at h
  · exact ⟨‹_›, List.mem_singleton.mp h⟩
  · exact absurd h List.not_mem_nil

/-- A section of the stream thread shows the end of the stream at most. -/
theorem mem_threaded {st : Streamer} {o : SlimObs} (h : o ∈ (s.threaded st).2) :
    o = .streamEnded := by
  simp only [Slim.threaded] at h
  split at h
  · exact List.mem_singleton.mp h
  · exact absurd h List.not_mem_nil

/-- The packets at the end of a pass, in the order of the source, for an observer that minds
neither those that it ignores (`hother`) nor the end of the stream. -/
theorem watch_passEnd {α : Type} {δ : α → SlimObs → Option α} {a a' : α} (s : Slim) (l : Pass)
    (hend : l.streamDisconnect = true → s.stream.state.toend = false →
      δ a .streamEnded = some a)
    (hlog : Runs.watch δ a (l.sendDSCO.toList.map .dsco ++ s.stat l.sendSTMs .STMs ++
      s.stat l.sendSTMd .STMd ++ s.stat l.sendSTMt .STMt ++ s.stat l.sendSTMl .STMl ++
      s.stat l.sendSTMu .STMu ++ s.stat l.sendSTMo .STMo ++ s.stat l.sendSTMn .STMn ++
      [.passed]) = some a') :
    Runs.watch δ a (s.passEnd l).2 = some a' := by
  show Runs.watch δ a ((if _ then _ else _) ++ _) = some a'
  rw [Runs.watch_append]
  split
  · rename_i h
    rw [Bool.and_eq_true, Bool.not_eq_true'] at h
    rw [Runs.watch_cons, hend h.1 h.2]
    exact hlog
  · exact hlog

/-- STMd or STMn is sent at the end of a pass, if the pass has found the end of a run. -/
theorem decode_passEnd {waiting : Option Bool} {d : Due Bool} (s : Slim)
    (h : Polled waiting (some l.decodeReport) d)
    (hone : l.sendSTMd = true → l.sendSTMn = false) :
    ∃ d', Runs.watch (onTime decodeSignal) d (s.passEnd l).2 = some d' ∧
      Polled waiting none d' := by
  -- the packets that are about something else
  have hother : ∀ (due : Bool) (event : UpdateStat), event ≠ .STMd → event ≠ .STMn →
      ∀ d, Runs.watch (onTime decodeSignal) d (s.stat due event) = some d := by
    intro due event hd hn
    refine watch_other fun o ho => ?_
    obtain ⟨-, rfl⟩ := mem_stat ho
    cases event <;> first | rfl | contradiction
  have hdsco : ∀ d, Runs.watch (onTime decodeSignal) d (l.sendDSCO.toList.map .dsco) = some d := by
    refine watch_other fun o ho => ?_
    obtain ⟨code, -, rfl⟩ := List.mem_map.mp ho
    rfl
  have hreport : ∃ d', (Runs.watch (onTime decodeSignal) d (s.stat l.sendSTMd .STMd)).bind
        (fun d => Runs.watch (onTime decodeSignal) d (s.stat l.sendSTMn .STMn)) = some d' ∧
      Polled waiting (some none) d' := by
    unfold Pass.decodeReport at h
    rcases hd : l.sendSTMd with - | -
    · rw [hd] at h
      rcases hn : l.sendSTMn with - | -
      · rw [hn] at h
        exact ⟨d, rfl, h⟩
      · rw [hn] at h
        obtain ⟨hw, hpolled⟩ := h.report (f := decodeSignal) (o := .stat .STMn
          s.stream.autostart s.output.decodeState (bufUsed s.output.outputbuf)) rfl
        refine ⟨none, ?_, hpolled⟩
        simp [Slim.stat, hw]
    · rw [hd] at h
      obtain ⟨hw, hpolled⟩ := h.report (f := decodeSignal) (o := .stat .STMd
        s.stream.autostart s.output.decodeState (bufUsed s.output.outputbuf)) rfl
      refine ⟨none, ?_, hpolled⟩
      simp [Slim.stat, hw, hone hd]
  obtain ⟨d₁, hw₁, h₁⟩ := hreport
  obtain ⟨d₂, hw₂, h₂⟩ := h₁.turn (f := decodeSignal) (o := SlimObs.passed) rfl
  refine ⟨d₂, watch_passEnd s l (fun _ _ => rfl) ?_, h₂⟩
  simp only [Runs.watch_append, hdsco, Option.bind_some, Option.bind_fun_some,
    hother l.sendSTMs .STMs (by decide) (by decide), hother l.sendSTMt .STMt (by decide) (by decide),
    hother l.sendSTMl .STMl (by decide) (by decide), hother l.sendSTMu .STMu (by decide) (by decide),
    hother l.sendSTMo .STMo (by decide) (by decide)]
  rw [hw₁, Option.bind_some, Runs.watch_cons, hw₂]
  rfl

/-- The section of the decoder takes the end of a run to the locals. -/
theorem decodeReport_passDecode (s : Slim) (l : Pass) :
    (s.passDecode l).1.pass.decided.map Pass.decodeReport = some s.output.decodeEnd ∧
      (s.passDecode l).1.output.decodeEnd = none := by
  constructor
  · show some (if decide (s.output.decodeState = .complete) then some true
      else if decide (s.output.decodeState = .error) then some false else none) = _
    unfold Output.decodeEnd
    rcases s.output.decodeState with - | - | - | - | - <;> rfl
  · show (s.output.updateDecode (s.starts l)).decodeEnd = none
    unfold Output.decodeEnd
    rw [decodeState_updateDecode]
    rcases s.output.decodeState with - | - | - | - | -
    · rfl
    · rcases s.starts l with - | - <;> rfl
    · rfl
    · rfl
    · rfl

theorem decodeDue_step {d : Due Bool} (h : DecodeDue s d) (hact : Acts x s e r)
    (hkeep : s.keepsDecodeEnd e = true) :
    ∃ d', Runs.watch (onTime decodeSignal) d r.2 = some d' ∧ DecodeDue r.1 d' := by
  have hsettled := settled_step h.settled hact
  have hpolled := h.polled
  -- nothing that is about the decoder
  have hsame : ∀ s' : Slim, Settled s' → s'.pass = s.pass →
      s'.output.decodeEnd = s.output.decodeEnd → DecodeDue s' d := by
    intro s' hs' hp hd
    refine ⟨hs', ?_⟩
    rw [hp, hd]
    exact hpolled
  cases hact with
  | ignored => exact ⟨d, rfl, h⟩
  | top _ _ | poll _ =>
      refine ⟨d, watch_other (fun o ho => ?_) d, hsame _ hsettled rfl rfl⟩
      rw [mem_threaded ho]
      rfl
  | timeout | cont _ _ => exact ⟨d, rfl, hsame _ hsettled rfl rfl⟩
  | unseen ho => exact ⟨d, rfl, hsame _ hsettled rfl (decodeEnd_congr ho.decodeState)⟩
  | decode n bs _ =>
      exact ⟨d, rfl, hsame _ hsettled rfl (decodeEnd_congr (decodeState_decoded _ bs))⟩
  | decodeDone ok hrun =>
      have hnone : s.output.decodeEnd = none := by
        unfold Output.decodeEnd
        rw [hrun]
      rw [hnone] at hpolled
      obtain ⟨d', hw, hpolled'⟩ := hpolled.incident (f := decodeSignal)
        (o := .decodeEnded ok) rfl (fun ok' hlook => by
          -- a pass that has found the end of a run has stopped the decoder
          obtain ⟨l, hl, hreport⟩ := Option.map_eq_some_iff.mp hlook
          have hend : l.sendSTMd = true ∨ l.sendSTMn = true := by
            unfold Pass.decodeReport at hreport
            split at hreport
            · exact .inl ‹_›
            · split at hreport
              · exact .inr ‹_›
              · cases hreport
          have hstop := h.settled.stopped l hl
            (h.settled.ended l hl (hend.imp_right .inl))
          rw [hrun] at hstop
          cases hstop)
      refine ⟨d', by simpa using hw, hsettled, ?_⟩
      have hend : (s.output.decodeDone ok).decodeEnd = some ok := by
        unfold Output.decodeEnd
        rw [decodeState_decodeDone hrun]
        rcases ok with - | - <;> rfl
      rw [show (_ : Output) = s.output.decodeDone ok from rfl, hend]
      exact hpolled'
  | passStream hp =>
      refine ⟨d, rfl, hsettled, ?_⟩
      rw [hp] at hpolled
      exact hpolled
  | @passDecode l hp =>
      rw [hp] at hpolled
      obtain ⟨hlook, hnone⟩ := decodeReport_passDecode s l
      refine ⟨d, watch_other (fun o ho => ?_) d, hsettled, ?_⟩
      · have ho : o ∈ (if s.starts l then [SlimObs.started] else []) := ho
        split at ho
        · rw [List.mem_singleton.mp ho]
          rfl
        · exact absurd ho List.not_mem_nil
      · rw [hlook, hnone]
        exact hpolled.looks
  | @passOutput l timeout tick hp =>
      refine ⟨d, rfl, hsettled, ?_⟩
      rw [hp] at hpolled
      exact hpolled
  | @passEnd l hp =>
      have hone := h.settled.one l (by rw [hp]; rfl)
      rw [hp] at hpolled
      obtain ⟨d', hw, hpolled'⟩ := decode_passEnd s hpolled hone
      exact ⟨d', hw, hsettled, hpolled'⟩
  | strmStart a hp =>
      refine ⟨d, watch_other (fun o ho => ?_) d,
        hsame _ hsettled (pass_strmStart x.known a s) (decodeEnd_strmStart x.known hkeep)⟩
      rw [log_strmStart] at ho
      split at ho
      · exact absurd ho List.not_mem_nil
      · have ho : o = .opened ∨ o = .streamEnded := by
          split at ho
          · simpa using ho
          · exact .inl (List.mem_singleton.mp ho)
        rcases ho with rfl | rfl <;> rfl
  | strmStop hp =>
      have hnone : s.output.decodeEnd = none := Option.isNone_iff_eq_none.mp hkeep
      exact ⟨d, rfl, hsame _ hsettled rfl (by rw [hnone]; rfl)⟩
  | codc format size channels hp =>
      have hnone : s.output.decodeEnd = none := Option.isNone_iff_eq_none.mp hkeep
      exact ⟨d, rfl, hsame _ hsettled (remembers_codecOpen x.known _ _ _ s).pass
        (by
          rw [hnone]
          exact decodeEnd_opened (decodeState_codecOpen x.known format size channels s))⟩

/-! ### DSCO -/

/-- What is seen, as far as it is about ends of the stream. -/
def streamSignal : SlimObs → Signal Unit
  | .streamEnded => .incident ()
  | .dsco _ => .report ()
  | .passed => .turn
  | _ => .other

/-- The end of the stream that is there to be found. -/
def Streamer.streamEnd (s : Streamer) : Option Unit :=
  if s.state = .disconnect then some () else none

/-- DSCO is to be sent. -/
def Pass.streamReport (l : Pass) : Option Unit := l.sendDSCO.map fun _ => ()

/-- A stream is asked for that takes the place of one whose end has not been found, or cannot be
had while the thread is still in `poll`. -/
def Streamer.keepsEnd (s : Streamer) : Target → Bool
  | .noSocket => true
  | .unreachable => s.streamEnd.isNone && (s.polling.isNone || !s.fd)
  | .connected _ | .file _ => s.streamEnd.isNone

/-- The end of the stream is left in `DISCONNECT`, and stays there until a pass finds it: the
connection is not over in the response header or in a metadata block, no packet opens or closes a
stream before the pass, and the controller does not close the stream itself. -/
def Slim.keepsStreamEnd (s : Slim) : SlimEvent → Bool
  | .strmStart a => a.refused || s.stream.keepsEnd a.target
  | .strmStop => s.stream.streamEnd.isNone
  | .streamPoll p => !s.stream.cutOff p
  | .passDecode =>
      match s.pass with
      | .stream l => s.output.decodeEnd.isNone ||
          (l.streamState ≠ .streamingHttp && l.streamState ≠ .streamingFile)
      | _ => true
  | _ => true

/-- A pass, and the end of the stream that is to be reported. -/
structure StreamDue (s : Slim) (d : Due Unit) : Prop where
  polled : Polled s.stream.streamEnd (s.pass.begun.map Pass.streamReport) d
  found : ∀ l, s.pass.begun = some l → l.sendDSCO.isSome = true → s.stream.state = .stopped
  asleep : s.stream.state.toend = true → s.stream.polling = none ∨ s.stream.fd = false
  leaves : ∀ l, s.pass.decided = some l → l.streamDisconnect = false

theorem streamEnd_congr {st st' : Streamer} (h : st'.state = st.state) :
    st'.streamEnd = st.streamEnd := by
  unfold Streamer.streamEnd
  rw [h]

theorem streamEnd_none {st : Streamer} (h : st.state ≠ .disconnect) : st.streamEnd = none :=
  if_neg h

/-- Nothing that is about the stream. -/
theorem StreamDue.keep {d : Due Unit} {s' : Slim} (h : StreamDue s d) (hpass : s'.pass = s.pass)
    (hstate : s'.stream.state = s.stream.state)
    (hsleep : s.stream.polling = none ∨ s.stream.fd = false →
      s'.stream.polling = none ∨ s'.stream.fd = false) : StreamDue s' d where
  polled := by
    rw [hpass, streamEnd_congr hstate]
    exact h.polled
  found := fun l hl hsend => hstate.trans (h.found l (hpass ▸ hl) hsend)
  asleep := fun hend => hsleep (h.asleep (hstate ▸ hend))
  leaves := fun l hl => h.leaves l (hpass ▸ hl)

/-- A section of the stream thread. -/
theorem streamDue_threaded {d : Due Unit} {st : Streamer} {early : Bool} (h : StreamDue s d)
    (hsec : s.stream.Section false early st) :
    ∃ d', Runs.watch (onTime streamSignal) d (s.threaded st).2 = some d' ∧
      StreamDue (s.threaded st).1 d' := by
  have hasleep := hsec.asleep h.asleep
  rcases hsec.outcome h.asleep with ⟨hends, hstill, hgoes⟩ | ⟨hends, hwas, hst, -⟩ | ⟨hcut, -⟩
  · refine ⟨d, by simp [Slim.threaded, hends], ?_, ?_, hasleep, h.leaves⟩
    · have hsame : st.streamEnd = s.stream.streamEnd := by
        rcases hend : s.stream.state.toend with - | -
        · rw [hend] at hgoes
          have hno : ∀ t : Streamer, t.state.toend = false → t.streamEnd = none := by
            intro t ht
            refine streamEnd_none fun hd => ?_
            rw [hd] at ht
            cases ht
          rw [hno st hgoes, hno s.stream hend]
        · exact streamEnd_congr (hstill hend)
      show Polled st.streamEnd _ d
      rw [hsame]
      exact h.polled
    · intro l hl hsend
      have hstop := h.found l hl hsend
      exact (hstill (by rw [hstop]; rfl)).trans hstop
  · -- the end is found in a later section, not in this pass
    have hnone : s.stream.streamEnd = none := by
      refine streamEnd_none fun hd => ?_
      rw [hd] at hwas
      cases hwas
    have hpolled := h.polled
    rw [hnone] at hpolled
    have hnot : ∀ l, s.pass.begun = some l → l.sendDSCO.isSome ≠ true := by
      intro l hl hsend
      rw [h.found l hl hsend] at hwas
      cases hwas
    obtain ⟨d', hw, hpolled'⟩ := hpolled.incident (f := streamSignal) (o := .streamEnded) rfl
      (fun _ hlook => by
        obtain ⟨l, hl, hreport⟩ := Option.map_eq_some_iff.mp hlook
        obtain ⟨code, hcode, -⟩ := Option.map_eq_some_iff.mp hreport
        exact hnot l hl (by rw [hcode]; rfl))
    refine ⟨d', by simpa [Slim.threaded, hends] using hw, ?_, ?_, hasleep, h.leaves⟩
    · show Polled st.streamEnd _ d'
      rw [show st.streamEnd = some () from if_pos hst]
      exact hpolled'
    · exact fun l hl hsend => absurd hsend (hnot l hl)
  · cases hcut

/-- DSCO is sent at the end of a pass, if the pass has found the end of the stream. -/
theorem stream_passEnd {waiting : Option Unit} {d : Due Unit} (s : Slim)
    (h : Polled waiting (some l.streamReport) d) (hleaves : l.streamDisconnect = false) :
    ∃ d', Runs.watch (onTime streamSignal) d (s.passEnd l).2 = some d' ∧
      Polled waiting none d' := by
  have hother : ∀ (due : Bool) (event : UpdateStat) (d : Due Unit),
      Runs.watch (onTime streamSignal) d (s.stat due event) = some d := by
    intro due event
    refine watch_other fun o ho => ?_
    obtain ⟨-, rfl⟩ := mem_stat ho
    rfl
  obtain ⟨d₁, hw₁, h₁⟩ : ∃ d₁, Runs.watch (onTime streamSignal) d
      (l.sendDSCO.toList.map .dsco) = some d₁ ∧ Polled waiting (some none) d₁ := by
    unfold Pass.streamReport at h
    rcases hd : l.sendDSCO with - | code
    · rw [hd] at h
      exact ⟨d, rfl, h⟩
    · rw [hd] at h
      obtain ⟨hw, hpolled⟩ := h.report (f := streamSignal) (o := .dsco code) rfl
      exact ⟨none, by simpa using hw, hpolled⟩
  obtain ⟨d₂, hw₂, h₂⟩ := h₁.turn (f := streamSignal) (o := SlimObs.passed) rfl
  refine ⟨d₂, watch_passEnd s l (fun hclose _ => ?_) ?_, h₂⟩
  · rw [hleaves] at hclose
    cases hclose
  · simp only [Runs.watch_append, hother, hw₁, Option.bind_some]
    rw [Runs.watch_cons, hw₂]
    rfl

/-- strm 's', when the end of the stream that was is not lost by it. -/
theorem streamDue_strmStart {d : Due Unit} (known : UInt8 → Bool) {a : StrmStart}
    (h : StreamDue s d) (hidle : s.pass = .idle)
    (hkeep : s.keepsStreamEnd (.strmStart a) = true) :
    ∃ d', Runs.watch (onTime streamSignal) d (s.strmStart known a).2 = some d' ∧
      StreamDue (s.strmStart known a).1 d' := by
  have hcodec := stream_strmCodec known a s
  have hpolled := h.polled
  rw [hidle] at hpolled
  simp only [Slim.keepsStreamEnd, Bool.or_eq_true] at hkeep
  unfold Slim.strmStart
  split
  · exact ⟨d, rfl, h.keep rfl rfl id⟩
  rename_i hok
  have hkeep := hkeep.resolve_left hok
  have hpass := (pass_strmCodec known a s).trans hidle
  have hfirst : d.map Prod.fst = s.stream.streamEnd := by
    cases hpolled with
    | before hd => exact hd
  -- a pass has not begun
  have hdue : ∀ (s' : Slim) (d' : Due Unit), s'.pass = .idle →
      d'.map Prod.fst = s'.stream.streamEnd →
      (s'.stream.state.toend = true → s'.stream.polling = none ∨ s'.stream.fd = false) →
      StreamDue s' d' := by
    intro s' d' hp hd hsleep
    refine ⟨by rw [hp]; exact .before hd, fun l hl => ?_, hsleep, fun l hl => ?_⟩
    · rw [hp] at hl
      cases hl
    · rw [hp] at hl
      cases hl
  have hlog : ∀ t : Target, s.stream.streamEnd = none →
      Runs.watch (onTime streamSignal) d
        (if t.failed then [.opened, .streamEnded] else [.opened]) =
          some (if t.failed then some ((), false) else none) := by
    intro t hnone
    rw [hnone] at hfirst
    obtain rfl : d = none := Option.map_eq_none_iff.mp hfirst
    rcases t.failed with - | - <;> rfl
  rcases htarget : a.target with wire | - | - | file
  · rw [htarget] at hkeep
    refine ⟨_, hlog (.connected wire) (Option.isNone_iff_eq_none.mp hkeep),
      hdue _ _ hpass ?_ ?_⟩
    · simp [Streamer.opened, htarget, Streamer.sock, Streamer.streamEnd, Target.failed]
    · simp [Streamer.opened, htarget, Streamer.sock, StreamState.toend]
  · rw [htarget] at hkeep
    obtain ⟨hnone, hsleep⟩ := Bool.and_eq_true_iff.mp hkeep
    refine ⟨_, hlog .unreachable (Option.isNone_iff_eq_none.mp hnone),
      hdue _ _ hpass ?_ fun _ => ?_⟩
    · simp [Streamer.opened, htarget, Streamer.sockUnreachable, Streamer.streamEnd, Target.failed]
    · simpa [Streamer.opened, htarget, Streamer.sockUnreachable, hcodec] using hsleep
  · -- the stream that was goes on
    refine ⟨d, by rfl, hdue _ _ hpass ?_ ?_⟩
    · rw [hfirst]
      apply Eq.symm
      apply streamEnd_congr
      simp [Streamer.opened, htarget, hcodec]
    · simpa [Streamer.opened, htarget, hcodec] using h.asleep
  · rw [htarget] at hkeep
    refine ⟨_, hlog (.file file) (Option.isNone_iff_eq_none.mp hkeep),
      hdue _ _ hpass ?_ ?_⟩
    · rcases file with - | wire
      · simp [Streamer.opened, htarget, Streamer.file, Streamer.streamEnd, Target.failed]
      · simp [Streamer.opened, htarget, Streamer.file, Streamer.streamEnd, Target.failed]
    · rcases file with - | wire
      · simp [Streamer.opened, htarget, Streamer.file]
      · simp [Streamer.opened, htarget, Streamer.file, StreamState.toend]

theorem streamDue_step {d : Due Unit} (h : StreamDue s d) (hact : Acts x s e r)
    (hkeep : s.keepsStreamEnd e = true) :
    ∃ d', Runs.watch (onTime streamSignal) d r.2 = some d' ∧ StreamDue r.1 d' := by
  cases hact with
  | ignored => exact ⟨d, rfl, h⟩
  | top file hpoll => exact streamDue_threaded h (section_top hpoll file)
  | poll p =>
      have hsec := section_afterPoll s.stream p
      rw [(Bool.not_eq_true' _).mp hkeep] at hsec
      exact streamDue_threaded h hsec
  | timeout => exact ⟨d, rfl, h.keep rfl rfl fun _ => .inl rfl⟩
  | unseen _ => exact ⟨d, rfl, h.keep rfl rfl id⟩
  | decode n bs _ =>
      have hdrain : (s.stream.drain n).1.state = s.stream.state ∧
          (s.stream.drain n).1.polling = s.stream.polling ∧
          (s.stream.drain n).1.fd = s.stream.fd := by
        unfold Streamer.drain
        split <;> exact ⟨rfl, rfl, rfl⟩
      refine ⟨d, rfl, h.keep rfl hdrain.1 fun hsleep => ?_⟩
      rw [show (_ : Slim).stream = (s.stream.drain n).1 from rfl, hdrain.2.1, hdrain.2.2]
      exact hsleep
  | decodeDone ok _ => exact ⟨d, rfl, h.keep rfl rfl id⟩
  | passStream hp =>
      have hpolled := h.polled
      rw [hp] at hpolled
      have hreport : (s.passStream.pass.begun.map Pass.streamReport) = some s.stream.streamEnd := by
        show some ((if s.stream.state = .disconnect then some s.stream.disconnect
          else none).map fun _ => ()) = some (if s.stream.state = .disconnect then some () else none)
        split <;> rfl
      have hsettle : s.passStream.stream.state =
          if s.stream.state = .disconnect then .stopped else s.stream.state := by
        show s.stream.settle.state = _
        unfold Streamer.settle
        split <;> rfl
      have hkept : s.passStream.stream.polling = s.stream.polling ∧
          s.passStream.stream.fd = s.stream.fd := by
        show s.stream.settle.polling = _ ∧ s.stream.settle.fd = _
        unfold Streamer.settle
        split <;> exact ⟨rfl, rfl⟩
      refine ⟨d, rfl, ?_, ?_, ?_, fun l hl => by cases hl⟩
      · rw [hreport, streamEnd_none (by rw [hsettle]; split <;> first | assumption | decide)]
        exact hpolled.looks
      · intro l hl hsend
        obtain rfl := Option.some.inj hl
        have hsend : (if s.stream.state = .disconnect then some s.stream.disconnect
          else none).isSome = true := hsend
        rw [hsettle]
        split at hsend
        · rename_i hd
          exact if_pos hd
        · cases hsend
      · rw [hkept.1, hkept.2, hsettle]
        intro hend
        apply h.asleep
        split at hend
        · rename_i hd
          rw [hd]
          rfl
        · exact hend
  | @passDecode l hp =>
      have hpolled := h.polled
      rw [hp] at hpolled
      refine ⟨d, watch_other (fun o ho => ?_) d, hpolled, ?_, h.asleep, ?_⟩
      · have ho : o ∈ (if s.starts l then [SlimObs.started] else []) := ho
        split at ho
        · rw [List.mem_singleton.mp ho]
          rfl
        · exact absurd ho List.not_mem_nil
      · intro l' hl' hsend
        obtain rfl := Option.some.inj hl'
        exact h.found l (by rw [hp]; rfl) hsend
      · intro l' hl'
        obtain rfl := Option.some.inj hl'
        simp only [Slim.keepsStreamEnd, hp, Bool.or_eq_true, Bool.and_eq_true, ne_eq,
          decide_not, Bool.not_eq_true', decide_eq_false_iff_not] at hkeep
        show ((decide (s.output.decodeState = .complete) ||
            decide (s.output.decodeState = .error)) &&
          (decide (l.streamState = .streamingHttp) || decide (l.streamState = .streamingFile))) =
            false
        rcases hkeep with hnone | ⟨hhttp, hfile⟩
        · unfold Output.decodeEnd at hnone
          rcases hd : s.output.decodeState <;> rw [hd] at hnone <;> first | rfl | cases hnone
        · simp [hhttp, hfile]
  | @passOutput l timeout tick hp =>
      have hpolled := h.polled
      rw [hp] at hpolled
      refine ⟨d, rfl, hpolled, ?_, h.asleep, ?_⟩
      · intro l' hl' hsend
        obtain rfl := Option.some.inj hl'
        exact h.found l (by rw [hp]; rfl) hsend
      · intro l' hl'
        obtain rfl := Option.some.inj hl'
        exact h.leaves l (by rw [hp]; rfl)
  | @passEnd l hp =>
      have hleaves := h.leaves l (by rw [hp]; rfl)
      have hpolled := h.polled
      rw [hp] at hpolled
      obtain ⟨d', hw, hpolled'⟩ := stream_passEnd s hpolled hleaves
      have hstream : (s.passEnd l).1.stream = s.stream := by
        show (if _ then _ else _) = _
        rw [hleaves]
        rfl
      refine ⟨d', hw, ?_, fun l' hl' => (by cases hl'), ?_, fun l' hl' => (by cases hl')⟩
      · rw [hstream]
        exact hpolled'
      · rw [hstream]
        exact h.asleep
  | strmStart a hp => exact streamDue_strmStart x.known h hp hkeep
  | strmStop hp =>
      have hpolled := h.polled
      rw [hp, Option.isNone_iff_eq_none.mp hkeep] at hpolled
      refine ⟨d, rfl, ?_, fun l hl => ?_, fun _ => .inr rfl, fun l hl => ?_⟩
      · rw [show s.strmStop.1.pass = .idle from hp]
        exact hpolled
      · rw [show s.strmStop.1.pass = .idle from hp] at hl
        cases hl
      · rw [show s.strmStop.1.pass = .idle from hp] at hl
        cases hl
  | cont metaint hp =>
      obtain ⟨-, -, -, -, hfd, hpoll, hstep⟩ := processCont_cases s.stream metaint
      rcases hstep with hstep | ⟨hwait, hstep⟩
      · refine ⟨d, rfl, h.keep rfl hstep fun hsleep => ?_⟩
        rwa [show (_ : Slim).stream = (s.stream.processCont metaint).1 from rfl, hfd, hpoll]
      · -- it is not at its end before, and not behind
        have hpolled := h.polled
        rw [streamEnd_none (by rw [hwait]; decide)] at hpolled
        refine ⟨d, rfl, ?_, fun l hl hsend => ?_, fun hend => ?_, h.leaves⟩
        · rw [show (_ : Slim).stream = (s.stream.processCont metaint).1 from rfl,
            streamEnd_none (by rw [hstep]; decide)]
          exact hpolled
        · rw [h.found l hl hsend] at hwait
          cases hwait
        · rw [show (_ : Slim).stream = (s.stream.processCont metaint).1 from rfl, hstep] at hend
          cases hend
  | codc format size channels hp =>
      have hstream := stream_codecOpen x.known format size channels s
      refine ⟨d, rfl, h.keep (remembers_codecOpen x.known _ _ _ s).pass ?_ ?_⟩
      · rw [hstream]
      · rw [hstream]
        exact id

/-! ### STMl, STMu and STMo -/

/-- What has been sent for a stream. -/
structure Sent where
  stml : Bool
  stmu : Bool
  stmo : Bool

/-- STMl, STMu and STMo are sent once for a stream: STMl if the output is not to be started, STMu
when no decoder run is in progress or to come and `outputbuf` is empty. -/
def watchSent (f : Sent) : SlimObs → Option Sent
  | .opened => some ⟨false, false, false⟩
  | .stat .STMl autostart _ _ =>
      if f.stml = false ∧ autostart = 0 then some { f with stml := true } else none
  | .stat .STMu _ decode full =>
      if f.stmu = false ∧ decode = .stopped ∧ full = 0 then some { f with stmu := true } else none
  | .stat .STMo _ _ _ => if f.stmo = false then some { f with stmo := true } else none
  | _ => some f

/-- What has been sent: what the flags say, but for what is still to be sent in this pass. -/
def Slim.sentSoFar (s : Slim) : Sent :=
  match s.pass with
  | .idle | .stream _ => ⟨s.sentSTMl, s.sentSTMu, s.sentSTMo⟩
  | .decode l => ⟨s.sentSTMl && !l.sendSTMl, s.sentSTMu, s.sentSTMo⟩
  | .output l =>
      ⟨s.sentSTMl && !l.sendSTMl, s.sentSTMu && !l.sendSTMu, s.sentSTMo && !l.sendSTMo⟩

/-- A pass, and what has been sent. -/
structure SentDue (s : Slim) (f : Sent) : Prop where
  settled : Settled s
  sent : f = s.sentSoFar
  started : ∀ l, s.pass.decided = some l → l.sendSTMl = true →
    s.sentSTMl = true ∧ s.stream.autostart = 0
  underrun : ∀ l, s.pass = .output l → l.sendSTMu = true →
    s.sentSTMu = true ∧ l.decodeState = .stopped ∧ bufUsed s.output.outputbuf = 0
  outOfData : ∀ l, s.pass = .output l → l.sendSTMo = true → s.sentSTMo = true

/-- Nothing that is about what is sent. -/
theorem SentDue.keep {f : Sent} {st : Streamer} {o : Output} (h : SentDue s f)
    (hauto : st.autostart = s.stream.autostart)
    (hstop : s.output.decodeState = .stopped → o.decodeState = .stopped)
    (hempty : s.output.decodeState = .stopped → bufUsed s.output.outputbuf = 0 →
      bufUsed o.outputbuf = 0) : SentDue { s with stream := st, output := o } f where
  settled := h.settled.of_decodeState rfl hstop
  sent := h.sent
  started := fun l hl hsend => ⟨(h.started l hl hsend).1, hauto.trans (h.started l hl hsend).2⟩
  underrun := by
    intro l hl hsend
    obtain ⟨hsent, hdec, hu⟩ := h.underrun l hl hsend
    have hdecided : s.pass.decided = some l := by
      rw [show s.pass = .output l from hl]
      rfl
    exact ⟨hsent, hdec, hempty (h.settled.stopped l hdecided hdec) hu⟩
  outOfData := h.outOfData

/-- Between two passes nothing is still to be sent. -/
theorem sentDue_idle {s' : Slim} (hp : s'.pass = .idle) :
    SentDue s' ⟨s'.sentSTMl, s'.sentSTMu, s'.sentSTMo⟩ where
  settled := settled_of_not_decided (by rw [hp]; rfl)
  sent := by
    unfold Slim.sentSoFar
    rw [hp]
  started := fun l hl => by
    rw [hp] at hl
    cases hl
  underrun := fun l hl => by
    rw [hp] at hl
    cases hl
  outOfData := fun l hl => by
    rw [hp] at hl
    cases hl

/-- The flags are set when the packets are sent. -/
theorem sent_passEnd {f : Sent} (h : SentDue s f) (hp : s.pass = .output l) :
    Runs.watch watchSent f (s.passEnd l).2 = some ⟨s.sentSTMl, s.sentSTMu, s.sentSTMo⟩ := by
  have hdecided : s.pass.decided = some l := by
    rw [hp]
    rfl
  have hother : ∀ (due : Bool) (event : UpdateStat), event ≠ .STMl → event ≠ .STMu →
      event ≠ .STMo → ∀ f, Runs.watch watchSent f (s.stat due event) = some f := by
    intro due event hl hu ho f
    unfold Slim.stat
    split
    · cases event <;> first | rfl | contradiction
    · rfl
  have hdsco : ∀ f, Runs.watch watchSent f (l.sendDSCO.toList.map .dsco) = some f := by
    intro f
    rcases l.sendDSCO with - | code <;> rfl
  have hstml : ∀ u o, Runs.watch watchSent ⟨s.sentSTMl && !l.sendSTMl, u, o⟩
      (s.stat l.sendSTMl .STMl) = some ⟨s.sentSTMl, u, o⟩ := by
    intro u o
    rcases hsend : l.sendSTMl with - | -
    · simp [Slim.stat]
    · obtain ⟨hsent, hauto⟩ := h.started l hdecided hsend
      simp [Slim.stat, watchSent, hsent, hauto]
  have hstmu : ∀ t o, Runs.watch watchSent ⟨t, s.sentSTMu && !l.sendSTMu, o⟩
      (s.stat l.sendSTMu .STMu) = some ⟨t, s.sentSTMu, o⟩ := by
    intro t o
    rcases hsend : l.sendSTMu with - | -
    · simp [Slim.stat]
    · obtain ⟨hsent, hdec, hempty⟩ := h.underrun l hp hsend
      simp [Slim.stat, watchSent, hsent, h.settled.stopped l hdecided hdec, hempty]
  have hstmo : ∀ t u, Runs.watch watchSent ⟨t, u, s.sentSTMo && !l.sendSTMo⟩
      (s.stat l.sendSTMo .STMo) = some ⟨t, u, s.sentSTMo⟩ := by
    intro t u
    rcases hsend : l.sendSTMo with - | -
    · simp [Slim.stat]
    · simp [Slim.stat, watchSent, h.outOfData l hp hsend]
  have hsofar : f = ⟨s.sentSTMl && !l.sendSTMl, s.sentSTMu && !l.sendSTMu,
      s.sentSTMo && !l.sendSTMo⟩ := by
    rw [h.sent]
    unfold Slim.sentSoFar
    rw [hp]
  refine watch_passEnd s l (fun _ _ => rfl) ?_
  rw [hsofar]
  simp only [Runs.watch_append, hdsco, Option.bind_some, Option.bind_fun_some, hstml, hstmu, hstmo,
    hother l.sendSTMs .STMs (by decide) (by decide) (by decide),
    hother l.sendSTMd .STMd (by decide) (by decide) (by decide),
    hother l.sendSTMt .STMt (by decide) (by decide) (by decide),
    hother l.sendSTMn .STMn (by decide) (by decide) (by decide)]
  rfl

theorem startDue_iff (s : Slim) (l : Pass) (h : s.startDue l = true) :
    s.sentSTMl = false ∧ s.output.decodeState = .ready := by
  simp only [Slim.startDue, Bool.and_eq_true, Bool.not_eq_true', decide_eq_true_eq] at h
  exact ⟨h.1.2, h.2⟩

theorem sentDue_passDecode {f : Sent} (h : SentDue s f) (hp : s.pass = .stream l) :
    SentDue (s.passDecode l).1 f where
  settled := settled_passDecode s l
  sent := by
    rw [h.sent]
    show s.sentSoFar = ⟨(s.sentSTMl || (s.startDue l && s.stream.autostart = 0)) &&
      !(s.startDue l && s.stream.autostart = 0), s.sentSTMu, s.sentSTMo⟩
    unfold Slim.sentSoFar
    rw [hp]
    rcases hdue : s.startDue l && decide (s.stream.autostart = 0) with - | -
    · simp
    · simp [(startDue_iff s l (Bool.and_eq_true_iff.mp hdue).1).1]
  started := by
    intro l' hl' hsend
    obtain rfl := Option.some.inj hl'
    have hsend : (s.startDue l && decide (s.stream.autostart = 0)) = true := hsend
    refine ⟨?_, of_decide_eq_true (Bool.and_eq_true_iff.mp hsend).2⟩
    show (s.sentSTMl || (s.startDue l && decide (s.stream.autostart = 0))) = true
    rw [hsend, Bool.or_true]
  underrun := fun l' hl' => by cases hl'
  outOfData := fun l' hl' => by cases hl'

theorem sentDue_passOutput {f : Sent} (h : SentDue s f) (hp : s.pass = .decode l)
    (timeout tick : Bool) : SentDue (s.passOutput l timeout tick) f where
  settled := settled_step (x := ⟨fun _ => true, fun _ _ => 0⟩) h.settled (.passOutput timeout tick hp)
  sent := by
    rw [h.sent]
    show s.sentSoFar = ⟨s.sentSTMl && !l.sendSTMl, (s.sentSTMu || s.underrun l) && !s.underrun l,
      (s.sentSTMo || s.outOfData l) && !s.outOfData l⟩
    have hu : s.underrun l = true → s.sentSTMu = false := by
      intro hu
      simp only [Slim.underrun, Bool.and_eq_true, Bool.not_eq_true'] at hu
      exact hu.1.1.1.2
    have ho : s.outOfData l = true → s.sentSTMo = false := by
      intro ho
      simp only [Slim.outOfData, Bool.and_eq_true, Bool.not_eq_true'] at ho
      exact ho.1.1.2
    unfold Slim.sentSoFar
    rw [hp]
    rcases hdu : s.underrun l with - | -
    · rcases hdo : s.outOfData l with - | -
      · simp
      · simp [ho hdo]
    · rcases hdo : s.outOfData l with - | -
      · simp [hu hdu]
      · simp [hu hdu, ho hdo]
  started := by
    intro l' hl' hsend
    obtain rfl := Option.some.inj hl'
    exact h.started l (by rw [hp]; rfl) hsend
  underrun := by
    intro l' hl' hsend
    obtain rfl := Controller.output.inj hl'
    have hsend : s.underrun l = true := hsend
    refine ⟨?_, ?_⟩
    · show (s.sentSTMu || s.underrun l) = true
      rw [hsend, Bool.or_true]
    · simp only [Slim.underrun, Bool.and_eq_true, decide_eq_true_eq] at hsend
      exact ⟨hsend.2, hsend.1.1.2⟩
  outOfData := by
    intro l' hl' hsend
    obtain rfl := Controller.output.inj hl'
    have hsend : s.outOfData l = true := hsend
    show (s.sentSTMo || s.outOfData l) = true
    rw [hsend, Bool.or_true]

theorem sentDue_step {f : Sent} (h : SentDue s f) (hact : Acts x s e r) :
    ∃ f', Runs.watch watchSent f r.2 = some f' ∧ SentDue r.1 f' := by
  have hthread : ∀ {st : Streamer} {cut early : Bool}, s.stream.Section cut early st →
      ∃ f', Runs.watch watchSent f (s.threaded st).2 = some f' ∧
        SentDue (s.threaded st).1 f' := by
    intro st cut early hsec
    refine ⟨f, Runs.watch_ignored (fun o ho f => ?_) f, ?_⟩
    · rw [mem_threaded ho]
      rfl
    · have hkeep := h.keep hsec.autostart id fun _ hu => hu
      exact ⟨hkeep.settled.of_decodeState rfl id, hkeep.sent, hkeep.started, hkeep.underrun,
        hkeep.outOfData⟩
  cases hact with
  | ignored => exact ⟨f, rfl, h⟩
  | top file hpoll => exact hthread (section_top hpoll file)
  | poll p => exact hthread (section_afterPoll s.stream p)
  | timeout => exact ⟨f, rfl, h.keep rfl id fun _ hu => hu⟩
  | unseen ho => exact ⟨f, rfl, h.keep rfl (fun hst => ho.decodeState.trans hst) ho.empty⟩
  | decode n bs hrun =>
      have hauto : (s.stream.drain n).1.autostart = s.stream.autostart := by
        unfold Streamer.drain
        split <;> rfl
      exact ⟨f, rfl, h.keep hauto (fun hst => (decodeState_decoded _ bs).trans hst)
        fun hst => by rw [hrun] at hst; cases hst⟩
  | decodeDone ok hrun =>
      exact ⟨f, rfl, h.keep rfl (fun hst => by rw [hrun] at hst; cases hst)
        fun hst => by rw [hrun] at hst; cases hst⟩
  | passStream hp =>
      refine ⟨f, rfl, settled_of_not_decided rfl, ?_, fun l hl => (by cases hl),
        fun l hl => (by cases hl), fun l hl => (by cases hl)⟩
      rw [h.sent]
      unfold Slim.sentSoFar
      rw [hp]
      rfl
  | @passDecode l hp =>
      refine ⟨f, Runs.watch_ignored (fun o ho f => ?_) f, sentDue_passDecode h hp⟩
      have ho : o ∈ (if s.starts l then [SlimObs.started] else []) := ho
      split at ho
      · rw [List.mem_singleton.mp ho]
        rfl
      · exact absurd ho List.not_mem_nil
  | passOutput timeout tick hp => exact ⟨f, rfl, sentDue_passOutput h hp timeout tick⟩
  | passEnd hp => exact ⟨_, sent_passEnd h hp, sentDue_idle rfl⟩
  | strmStart a hp =>
      have hpass := (pass_strmStart x.known a s).trans hp
      refine ⟨_, ?_, sentDue_idle hpass⟩
      rw [h.sent]
      unfold Slim.sentSoFar
      rw [hp]
      by_cases hrefused : a.refused = true
      · simp only [Slim.strmStart, if_pos hrefused]
        rfl
      · simp only [Slim.strmStart, if_neg hrefused]
        rcases a.target.failed with - | - <;> rfl
  | strmStop hp =>
      refine ⟨_, ?_, sentDue_idle hp⟩
      rw [h.sent]
      unfold Slim.sentSoFar
      rw [hp]
      rfl
  | cont metaint hp =>
      refine ⟨_, ?_, sentDue_idle hp⟩
      rw [h.sent]
      unfold Slim.sentSoFar
      rw [hp]
      rfl
  | codc format size channels hp =>
      have hkept := remembers_codecOpen x.known format size channels s
      refine ⟨f, rfl, ?_⟩
      have hidle := sentDue_idle (hkept.pass.trans hp)
      rw [hkept.sentSTMl, hkept.sentSTMu, hkept.sentSTMo] at hidle
      rw [h.sent]
      unfold Slim.sentSoFar
      rw [hp]
      exact hidle

end SqueezeliteMuse
