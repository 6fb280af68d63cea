/-
SqueezeliteMuse/BtSource.lean

The Bluetooth source: discovery of the sink, and the A2DP state machine.

The stack reports on discovery and on A2DP, each in its own order.  A result is looked at in
`APP_AV_STATE_DISCOVERING` only; when discovery stops the source connects, if it has found its
sink, and otherwise starts discovery again, whatever the A2DP state is.  A connect request
that fails starts discovery as well, and leaves the state at `APP_AV_STATE_UNCONNECTED`.

`Finds` is what is to be of a step.  A connect request always names a device that was
discovered under the configured name.  The rest fails when discovery stops after a connection
was asked for, and when the sink answers a discovery that was started while unconnected.

Main result: `source_finds_iff`: every step of a run is as it is to be if and only if every
event of it comes in a state that it was written for (`Timely`).
-/
import SqueezeliteMuse.Lib.Runs

namespace SqueezeliteMuse

namespace BtSource

/-- `esp_bd_addr_t`. -/
abbrev BdAddr := BitVec 48

inductive AvState
  | idle | discovering | discovered | unconnected | connecting | connected | disconnecting
deriving DecidableEq

/-- The states of a connection: while it is made, while it stands, while it is taken down. -/
def AvState.busy : AvState → Bool
  | .connecting | .connected | .disconnecting => true
  | .idle | .discovering | .discovered | .unconnected => false

inductive MediaState
  | idle | starting | started | stopping | waitDisconnect
deriving DecidableEq

/-- `esp_a2d_connection_state_t`. -/
inductive ConnectionState
  | disconnected | connecting | connected | disconnecting
deriving DecidableEq

/-- `esp_a2d_media_ctrl_t`. -/
inductive MediaCtrl
  | checkSrcRdy | start | stop
deriving DecidableEq

/-! ### A result of the discovery -/

/-- A property of a device; the strength of its signal is only listed. -/
inductive DevProp
  | cod (val : BitVec 32)
  | eir (val : List UInt8)
  | bdname (val : List UInt8)
  | other

structure DiscRes where
  bda : BdAddr
  prop : List DevProp

inductive EirType
  | cmplLocalName | shortLocalName

/-- What the stack provides. -/
structure Stack where
  /-- `esp_bt_gap_is_valid_cod` -/
  isValidCod : BitVec 32 → Bool
  /-- `esp_bt_gap_get_cod_srvc` -/
  getCodSrvc : BitVec 32 → BitVec 32
  /-- `esp_bt_gap_resolve_eir_data` -/
  resolveEirData : List UInt8 → EirType → Option (List UInt8)

def ESP_BT_GAP_MAX_BDNAME_LEN : ℕ := 248
def ESP_BT_COD_SRVC_RENDERING : BitVec 32 := 0x20

/-- A name, cut to its buffer, up to its terminator. -/
def bufferName (val : List UInt8) : List UInt8 :=
  (val.take ESP_BT_GAP_MAX_BDNAME_LEN).takeWhile (· ≠ 0)

/-- What the loop over the properties collects: `cod`, `eir` and `s_peer_bdname`. -/
structure Scanned where
  cod : BitVec 32
  eir : Option (List UInt8)
  bdname : List UInt8

def Scanned.add (s : Scanned) : DevProp → Scanned
  | .cod val => { s with cod := val }
  | .eir val => { s with eir := some val }
  | .bdname val => { s with bdname := bufferName val }
  | .other => s

def DiscRes.scan (r : DiscRes) : Scanned := r.prop.foldl Scanned.add ⟨0, none, []⟩

section Names

variable (stack : Stack) (sinkName : Option (List UInt8))

/-- `get_name_from_eir`: the buffer stays as it is if there is no name. -/
def getNameFromEir (eir bdname : List UInt8) : List UInt8 :=
  match stack.resolveEirData eir .cmplLocalName with
  | some name => bufferName name
  | none =>
      match stack.resolveEirData eir .shortLocalName with
      | some name => bufferName name
      | none => bdname

/-- The name that a device is discovered under. -/
def DiscRes.name (r : DiscRes) : List UInt8 :=
  match r.scan.eir with
  | some eir => getNameFromEir stack eir r.scan.bdname
  | none => r.scan.bdname

def DiscRes.isRendering (r : DiscRes) : Bool :=
  stack.isValidCod r.scan.cod && stack.getCodSrvc r.scan.cod &&& ESP_BT_COD_SRVC_RENDERING != 0

/-- `squeezelite_conf.sink_name` is set, and is this name. -/
def isSinkName (name : List UInt8) : Bool :=
  match sinkName with
  | some sink => !sink.isEmpty && name == sink
  | none => false

/-- The device that is looked for. -/
def DiscRes.isTarget (r : DiscRes) : Bool := r.isRendering stack && isSinkName sinkName (r.name stack)

end Names

/-! ### The source -/

structure Source where
  /-- `bt_app_source_a2d_state` -/
  a2dState : AvState
  /-- `bt_app_source_media_state` -/
  mediaState : MediaState
  /-- `s_peer_bda` -/
  peerBda : BdAddr
  /-- `s_peer_bdname` -/
  peerBdname : List UInt8
  /-- `s_connecting_intv` -/
  connectingIntv : ℕ
  /-- the stack has reported that discovery has started, and not yet that it has stopped -/
  running : Bool
  /-- the devices that were discovered under the configured name -/
  found : List BdAddr

/-- What is asked of the stack; a request to discover is noted with the state it is made in. -/
inductive BtObs
  | startDiscovery (state : AvState)
  | cancelDiscovery
  | connect (bda : BdAddr)
  | disconnect (bda : BdAddr)
  | scanMode (discoverable : Bool)
  | mediaCtrl (cmd : MediaCtrl)
deriving DecidableEq

/-- What the A2DP state machine is given: the events of the stack, and the heart beat, with what
`output_stopped` and `esp_a2d_source_connect` return if they are called. -/
inductive AvEvent
  | connection (state : ConnectionState)
  | mediaCtrlAck (cmd : MediaCtrl) (success : Bool)
  | heartBeat (stopped : Bool) (connects : Bool)
  | audio

inductive BtEvent
  | stackUp
  | discRes (r : DiscRes)
  | discStarted
  | discStopped
  | a2d (e : AvEvent)

namespace Source

variable (stack : Stack) (sinkName : Option (List UInt8))

/-- `filter_inquiry_scan_result`. -/
def filterInquiryScanResult (t : Source) (r : DiscRes) : Source × List BtObs :=
  if t.a2dState ≠ .discovering then (t, [])
  else if r.isRendering stack = false then ({ t with peerBdname := r.scan.bdname }, [])
  else if isSinkName sinkName (r.name stack) then
    ({ t with peerBdname := r.name stack, peerBda := r.bda, a2dState := .discovered },
      [.cancelDiscovery])
  else ({ t with peerBdname := r.name stack }, [])

/-- `bt_app_gap_cb`, of a discovery that has stopped. -/
def discoveryStopped (t : Source) : Source × List BtObs :=
  if t.a2dState = .discovered then ({ t with a2dState := .connecting }, [.connect t.peerBda])
  else (t, [.startDiscovery t.a2dState])

def connectStateConnecting (t : Source) : ConnectionState → Source × List BtObs
  | .disconnected => ({ t with a2dState := .unconnected }, [])
  | .connecting => (t, [])
  | .connected => ({ t with a2dState := .connected, mediaState := .idle }, [.scanMode false])
  | .disconnecting => ({ t with a2dState := .disconnecting }, [])

def connectStateUnconnected (t : Source) : ConnectionState → Source × List BtObs
  | .connected => t.connectStateConnecting .connected
  | .disconnected | .connecting | .disconnecting => (t, [])

def connectStateConnected (t : Source) : ConnectionState → Source × List BtObs
  | .disconnected => ({ t with a2dState := .unconnected }, [.scanMode true])
  | .disconnecting => ({ t with a2dState := .disconnecting }, [])
  | .connecting | .connected => (t, [])

def connectStateDisconnecting (t : Source) : ConnectionState → Source × List BtObs
  | .disconnected => ({ t with a2dState := .unconnected }, [.scanMode true])
  | .connecting | .connected | .disconnecting => (t, [])

/-- `bt_app_av_media_proc`. -/
def mediaProc (t : Source) (e : AvEvent) : Source × List BtObs :=
  match t.mediaState, e with
  | .idle, .heartBeat stopped _ => (t, if stopped then [] else [.mediaCtrl .checkSrcRdy])
  | .idle, .mediaCtrlAck cmd success =>
      if cmd = .checkSrcRdy ∧ success then
        ({ t with mediaState := .starting }, [.mediaCtrl .start])
      else (t, [])
  | .starting, .mediaCtrlAck cmd success =>
      if cmd = .start ∧ success then ({ t with mediaState := .started }, [])
      else ({ t with mediaState := .idle }, [])
  | .started, .heartBeat stopped _ =>
      if stopped then ({ t with mediaState := .stopping }, [.mediaCtrl .stop]) else (t, [])
  | .stopping, .mediaCtrlAck cmd success =>
      if cmd = .stop ∧ success then ({ t with mediaState := .idle }, [])
      else (t, [.mediaCtrl .stop])
  | .waitDisconnect, _ => ({ t with a2dState := .disconnecting }, [.disconnect t.peerBda])
  | _, _ => (t, [])

def stateUnconnected (t : Source) : AvEvent → Source × List BtObs
  | .connection state => t.connectStateUnconnected state
  | .heartBeat _ connects =>
      if connects then
        ({ t with a2dState := .connecting, connectingIntv := 0 }, [.connect t.peerBda])
      else ({ t with a2dState := .unconnected }, [.connect t.peerBda, .startDiscovery .unconnected])
  | .mediaCtrlAck _ _ | .audio => (t, [])

def stateConnecting (t : Source) : AvEvent → Source × List BtObs
  | .connection state => t.connectStateConnecting state
  | .heartBeat _ _ =>
      if 2 ≤ t.connectingIntv + 1 then ({ t with a2dState := .unconnected, connectingIntv := 0 }, [])
      else ({ t with connectingIntv := t.connectingIntv + 1 }, [])
  | .mediaCtrlAck _ _ | .audio => (t, [])

def stateConnected (t : Source) : AvEvent → Source × List BtObs
  | .connection state => t.connectStateConnected state
  | .mediaCtrlAck cmd success => t.mediaProc (.mediaCtrlAck cmd success)
  | .heartBeat stopped connects => t.mediaProc (.heartBeat stopped connects)
  | .audio => (t, [])

def stateDisconnecting (t : Source) : AvEvent → Source × List BtObs
  | .connection state => t.connectStateDisconnecting state
  | .mediaCtrlAck _ _ | .heartBeat _ _ | .audio => (t, [])

/-- `bt_app_av_sm_hdlr`. -/
def avSmHdlr (t : Source) (e : AvEvent) : Source × List BtObs :=
  match t.a2dState with
  | .unconnected => t.stateUnconnected e
  | .connecting => t.stateConnecting e
  | .connected => t.stateConnected e
  | .disconnecting => t.stateDisconnecting e
  | .idle | .discovering | .discovered => (t, [])

/-- The devices that have been discovered under the configured name. -/
def note (t : Source) (r : DiscRes) : Source :=
  if isSinkName sinkName (r.name stack) then { t with found := r.bda :: t.found } else t

def step (t : Source) : BtEvent → Source × List BtObs
  | .stackUp =>
      ({ t with a2dState := .discovering }, [.scanMode true, .startDiscovery .discovering])
  | .discRes r => (t.note stack sinkName r).filterInquiryScanResult stack sinkName r
  | .discStarted => ({ t with running := true }, [])
  | .discStopped => { t with running := false }.discoveryStopped
  | .a2d e => t.avSmHdlr e

end Source

/-- Before the stack is up. -/
def sourceInit : Source where
  a2dState := .idle
  mediaState := .idle
  peerBda := 0
  peerBdname := []
  connectingIntv := 0
  running := false
  found := []

section Machine

variable (stack : Stack) (sinkName : Option (List UInt8))

def machine : Runs.Machine Source BtEvent BtObs where
  step := Source.step stack sinkName

/-! ### What is to be of a step -/

/-- The events that end the discovery that is going on. -/
def BtEvent.endsDiscovery : BtEvent → Bool
  | .stackUp | .discStopped => true
  | .discRes _ | .discStarted | .a2d _ => false

/-- A step of the discovery is as it is to be. -/
structure Finds (t : Source) (e : BtEvent) : Prop where
  /-- no discovery is started while a connection is made, stands, or is taken down -/
  restarts : ∀ state, .startDiscovery state ∈ (t.step stack sinkName e).2 → state.busy = false
  /-- a connection is requested to a device that was discovered under the configured name -/
  sought : ∀ bda, .connect bda ∈ (t.step stack sinkName e).2 → bda ∈ t.found
  /-- a device that is looked for leads to a connection request, when the discovery stops -/
  leads : ∀ r, e = .discRes r → r.isTarget stack sinkName = true → t.running = true →
    t.a2dState.busy = false → ∀ es : List BtEvent, (∀ e ∈ es, e.endsDiscovery = false) →
      ∃ bda, .connect bda ∈
        ((machine stack sinkName).run (t.step stack sinkName e).1 (es ++ [.discStopped])).2

/-- An event comes in a state that it was written for: discovery does not stop after a connection was
asked for, and the device looked for does not answer while unconnected. -/
def Timely (t : Source) : BtEvent → Prop
  | .discStopped => t.a2dState.busy = false
  | .discRes r => r.isTarget stack sinkName = true → t.running = true →
      t.a2dState ≠ .unconnected ∧ t.a2dState ≠ .idle
  | .stackUp | .discStarted | .a2d _ => True

instance (t : Source) (e : BtEvent) : Decidable (Timely stack sinkName t e) :=
  match e with
  | .discStopped => inferInstanceAs (Decidable (_ = _))
  | .discRes _ => inferInstanceAs (Decidable (_ → _ → _ ∧ _))
  | .stackUp | .discStarted | .a2d _ => .isTrue trivial

end Machine

/-! ### The state machine -/

/-- The sink is known. -/
def Source.Known (t : Source) : Prop :=
  t.a2dState ≠ .idle → t.a2dState ≠ .discovering → t.peerBda ∈ t.found

/-- What the A2DP state machine does once the sink is known: it keeps to it. -/
structure Keeps (t : Source) (r : Source × List BtObs) : Prop where
  peerBda : r.1.peerBda = t.peerBda
  found : r.1.found = t.found
  starts : ∀ state, .startDiscovery state ∈ r.2 → state = .unconnected
  connects : ∀ bda, .connect bda ∈ r.2 → bda = t.peerBda

namespace Keeps

variable {t : Source}

/-- A new state, and nothing asked of the stack that bears on discovery. -/
theorem quiet {t' : Source} {log : List BtObs} (hpeer : t'.peerBda = t.peerBda)
    (hfound : t'.found = t.found) (hstarts : ∀ state, .startDiscovery state ∉ log)
    (hconnects : ∀ bda, .connect bda ∉ log) : Keeps t (t', log) where
  peerBda := hpeer
  found := hfound
  starts state h := absurd h (hstarts state)
  connects bda h := absurd h (hconnects bda)

theorem connectStateConnecting (t : Source) (state : ConnectionState) :
    Keeps t (t.connectStateConnecting state) := by
  rcases state with - | - | - | - <;> exact quiet rfl rfl (by simp) (by simp)

theorem connectStateUnconnected (t : Source) (state : ConnectionState) :
    Keeps t (t.connectStateUnconnected state) := by
  rcases state with - | - | - | -
  · exact quiet rfl rfl (by simp) (by simp)
  · exact quiet rfl rfl (by simp) (by simp)
  · exact connectStateConnecting t .connected
  · exact quiet rfl rfl (by simp) (by simp)

theorem connectStateConnected (t : Source) (state : ConnectionState) :
    Keeps t (t.connectStateConnected state) := by
  rcases state with - | - | - | - <;> exact quiet rfl rfl (by simp) (by simp)

theorem connectStateDisconnecting (t : Source) (state : ConnectionState) :
    Keeps t (t.connectStateDisconnecting state) := by
  rcases state with - | - | - | - <;> exact quiet rfl rfl (by simp) (by simp)

theorem mediaProc (t : Source) (e : AvEvent) : Keeps t (t.mediaProc e) := by
  unfold Source.mediaProc
  split <;> try split
  all_goals exact quiet rfl rfl (by simp) (by simp)

theorem stateUnconnected (t : Source) (e : AvEvent) : Keeps t (t.stateUnconnected e) := by
  rcases e with state | ⟨cmd, success⟩ | ⟨stopped, connects⟩ | -
  · exact connectStateUnconnected t state
  · exact quiet rfl rfl (by simp) (by simp)
  · rcases connects with - | -
    · exact ⟨rfl, rfl, fun _ h => by simpa [Source.stateUnconnected] using h,
        fun _ h => by simpa [Source.stateUnconnected] using h⟩
    · exact ⟨rfl, rfl, fun _ h => by simp [Source.stateUnconnected] at h,
        fun _ h => by simpa [Source.stateUnconnected] using h⟩
  · exact quiet rfl rfl (by simp) (by simp)

theorem stateConnecting (t : Source) (e : AvEvent) : Keeps t (t.stateConnecting e) := by
  rcases e with state | ⟨cmd, success⟩ | ⟨stopped, connects⟩ | -
  · exact connectStateConnecting t state
  · exact quiet rfl rfl (by simp) (by simp)
  · rw [Source.stateConnecting]
    split <;> exact quiet rfl rfl (by simp) (by simp)
  · exact quiet rfl rfl (by simp) (by simp)

theorem stateConnected (t : Source) (e : AvEvent) : Keeps t (t.stateConnected e) := by
  rcases e with state | ⟨cmd, success⟩ | ⟨stopped, connects⟩ | -
  · exact connectStateConnected t state
  · exact mediaProc t _
  · exact mediaProc t _
  · exact quiet rfl rfl (by simp) (by simp)

theorem stateDisconnecting (t : Source) (e : AvEvent) : Keeps t (t.stateDisconnecting e) := by
  rcases e with state | ⟨cmd, success⟩ | ⟨stopped, connects⟩ | -
  · exact connectStateDisconnecting t state
  · exact quiet rfl rfl (by simp) (by simp)
  · exact quiet rfl rfl (by simp) (by simp)
  · exact quiet rfl rfl (by simp) (by simp)

end Keeps

/-- Until the sink is found, and until discovery has stopped, A2DP events are nothing. -/
theorem avSmHdlr_idle {t : Source} (h : t.a2dState = .idle ∨ t.a2dState = .discovering ∨
    t.a2dState = .discovered) (e : AvEvent) : t.avSmHdlr e = (t, []) := by
  rw [Source.avSmHdlr]
  rcases h with h | h | h <;> rw [h]

theorem avSmHdlr_keeps (t : Source) (e : AvEvent) : Keeps t (t.avSmHdlr e) := by
  rw [Source.avSmHdlr]
  split
  · exact .stateUnconnected t e
  · exact .stateConnecting t e
  · exact .stateConnected t e
  · exact .stateDisconnecting t e
  all_goals exact .quiet rfl rfl (by simp) (by simp)

section Steps

variable (stack : Stack) (sinkName : Option (List UInt8)) {t : Source}

/-- The device that is found is noted. -/
theorem filterInquiryScanResult_known (h : t.Known) (r : DiscRes) :
    ((t.note stack sinkName r).filterInquiryScanResult stack sinkName r).1.Known := by
  have hstate : (t.note stack sinkName r).a2dState = t.a2dState := by
    rw [Source.note]
    split <;> rfl
  have hpeer : (t.note stack sinkName r).peerBda = t.peerBda := by
    rw [Source.note]
    split <;> rfl
  have hfound : t.peerBda ∈ t.found → t.peerBda ∈ (t.note stack sinkName r).found := by
    intro hmem
    rw [Source.note]
    split
    · exact List.mem_cons_of_mem _ hmem
    · exact hmem
  rw [Source.filterInquiryScanResult]
  split
  · intro hidle hdisc
    rw [hstate] at hidle hdisc
    rw [hpeer]
    exact hfound (h hidle hdisc)
  · rename_i hno
    have hdisc : (t.note stack sinkName r).a2dState = .discovering := Decidable.not_not.mp hno
    split
    · exact fun _ hd => absurd hdisc hd
    · split
      · rename_i hname
        intro _ _
        show r.bda ∈ (t.note stack sinkName r).found
        rw [Source.note, if_pos hname]
        exact List.mem_cons_self
      · exact fun _ hd => absurd hdisc hd

theorem discoveryStopped_known (h : t.Known) : t.discoveryStopped.1.Known := by
  rw [Source.discoveryStopped]
  split
  · rename_i hd
    exact fun _ _ => h (by rw [hd]; exact nofun) (by rw [hd]; exact nofun)
  · exact h

theorem avSmHdlr_known (h : t.Known) (e : AvEvent) : (t.avSmHdlr e).1.Known := by
  by_cases hidle : t.a2dState = .idle ∨ t.a2dState = .discovering ∨ t.a2dState = .discovered
  · rw [avSmHdlr_idle hidle]
    exact h
  · obtain ⟨hpeer, hfound, -, -⟩ := avSmHdlr_keeps t e
    intro _ _
    rw [hpeer, hfound]
    exact h (fun hi => hidle (.inl hi)) fun hd => hidle (.inr (.inl hd))

/-- Every step keeps the sink known. -/
theorem Source.Known.step (h : t.Known) (e : BtEvent) : (t.step stack sinkName e).1.Known := by
  rcases e with - | r | - | - | e
  · exact fun _ hd => absurd rfl hd
  · exact filterInquiryScanResult_known stack sinkName h r
  · exact h
  · exact discoveryStopped_known (t := { t with running := false }) h
  · exact avSmHdlr_known h e

/-- A sink that is found is connected to when discovery stops, whatever comes before. -/
theorem discovered_leads (ht : t.a2dState = .discovered) {es : List BtEvent}
    (hes : ∀ e ∈ es, e.endsDiscovery = false) :
    ∃ bda, .connect bda ∈ ((machine stack sinkName).run t (es ++ [.discStopped])).2 := by
  induction es generalizing t with
  | nil =>
      refine ⟨t.peerBda, ?_⟩
      show _ ∈ { t with running := false }.discoveryStopped.2 ++ []
      rw [Source.discoveryStopped, if_pos ht]
      exact List.mem_cons_self
  | cons e es ih =>
      -- every other event leaves the state at `APP_AV_STATE_DISCOVERED`
      have hstays : (t.step stack sinkName e).1.a2dState = .discovered := by
        have hno := hes e List.mem_cons_self
        rcases e with - | r | - | - | e
        · cases hno
        · have hstate : (t.note stack sinkName r).a2dState = .discovered := by
            rw [Source.note]
            split <;> exact ht
          show ((t.note stack sinkName r).filterInquiryScanResult stack sinkName r).1.a2dState = _
          rw [Source.filterInquiryScanResult, if_pos (by rw [hstate]; exact nofun)]
          exact hstate
        · exact ht
        · cases hno
        · show (t.avSmHdlr e).1.a2dState = _
          rw [avSmHdlr_idle (.inr (.inr ht))]
          exact ht
      obtain ⟨bda, hbda⟩ := ih hstays fun e' he' => hes e' (List.mem_cons_of_mem e he')
      exact ⟨bda, List.mem_append_right _ hbda⟩

/-- The device that is looked for is found while discovering. -/
theorem filterInquiryScanResult_target {r : DiscRes} (hr : r.isTarget stack sinkName = true)
    (ht : t.a2dState = .discovering ∨ t.a2dState = .discovered) :
    (t.step stack sinkName (.discRes r)).1.a2dState = .discovered := by
  rw [DiscRes.isTarget, Bool.and_eq_true] at hr
  obtain ⟨hrendering, hname⟩ := hr
  have hstate : (t.note stack sinkName r).a2dState = t.a2dState := by
    rw [Source.note]
    split <;> rfl
  show ((t.note stack sinkName r).filterInquiryScanResult stack sinkName r).1.a2dState = _
  rw [Source.filterInquiryScanResult, hstate]
  rcases ht with ht | ht
  · rw [if_neg (by rw [ht]; exact fun h => h rfl), if_neg (by rw [hrendering]; exact nofun),
      if_pos hname]
  · rw [if_pos (by rw [ht]; exact nofun), hstate, ht]

/-- A result asks nothing of the stack but to end the discovery. -/
theorem discRes_quiet (r : DiscRes) : ∀ o ∈ (t.step stack sinkName (.discRes r)).2,
    o = .cancelDiscovery := by
  show ∀ o ∈ ((t.note stack sinkName r).filterInquiryScanResult stack sinkName r).2, _
  rw [Source.filterInquiryScanResult]
  split
  · exact nofun
  · split
    · exact nofun
    · split
      · exact fun o ho => List.mem_singleton.mp ho
      · exact nofun

/-- An event that comes in time is handled as it is to be. -/
theorem finds_of_timely (h : t.Known) {e : BtEvent} (he : Timely stack sinkName t e) :
    Finds stack sinkName t e := by
  rcases e with - | r | - | - | e
  · refine ⟨fun state hs => ?_, fun bda hb => ?_, fun r hr => (nomatch hr)⟩
    · simp only [Source.step, List.mem_cons, List.not_mem_nil, or_false, reduceCtorEq, false_or,
        BtObs.startDiscovery.injEq] at hs
      rw [hs]
      rfl
    · simp [Source.step] at hb
  · refine ⟨fun state hs => ?_, fun bda hb => ?_, fun r' hr' htarget hrun hbusy es hes => ?_⟩
    · cases discRes_quiet stack sinkName r _ hs
    · cases discRes_quiet stack sinkName r _ hb
    · cases hr'
      obtain ⟨hunconnected, hidle⟩ := he htarget hrun
      have hstate : t.a2dState = .discovering ∨ t.a2dState = .discovered := by
        rcases hs : t.a2dState with - | - | - | - | - | - | -
        · exact absurd hs hidle
        · exact .inl rfl
        · exact .inr rfl
        · exact absurd hs hunconnected
        all_goals rw [hs] at hbusy; cases hbusy
      exact discovered_leads stack sinkName
        (filterInquiryScanResult_target stack sinkName htarget hstate) hes
  · exact ⟨fun state hs => (nomatch hs), fun bda hb => (nomatch hb), fun r hr => (nomatch hr)⟩
  · refine ⟨fun state hs => ?_, fun bda hb => ?_, fun r hr => (nomatch hr)⟩
    all_goals simp only [Source.step, Source.discoveryStopped] at *
    · split at hs
      · cases List.mem_singleton.mp hs
      · cases List.mem_singleton.mp hs
        exact he
    · split at hb
      · rename_i hd
        cases List.mem_singleton.mp hb
        exact h (by rw [hd]; exact nofun) (by rw [hd]; exact nofun)
      · cases List.mem_singleton.mp hb
  · by_cases hidle : t.a2dState = .idle ∨ t.a2dState = .discovering ∨ t.a2dState = .discovered
    · have hnone : (t.step stack sinkName (.a2d e)).2 = [] := by
        show (t.avSmHdlr e).2 = []
        rw [avSmHdlr_idle hidle]
      refine ⟨fun state hs => ?_, fun bda hb => ?_, fun r hr => (nomatch hr)⟩
      · rw [hnone] at hs
        cases hs
      · rw [hnone] at hb
        cases hb
    · obtain ⟨-, -, hstarts, hconnects⟩ := avSmHdlr_keeps t e
      refine ⟨fun state hs => ?_, fun bda hb => ?_, fun r hr => (nomatch hr)⟩
      · rw [hstarts state hs]
        rfl
      · rw [hconnects bda hb]
        exact h (fun hi => hidle (.inl hi)) fun hd => hidle (.inr (.inl hd))

/-- A device that answers while unconnected is not looked at, and no request follows. -/
theorem discRes_ignored {r : DiscRes} (ht : t.a2dState = .unconnected ∨ t.a2dState = .idle) :
    ∀ bda, .connect bda ∉
      ((machine stack sinkName).run (t.step stack sinkName (.discRes r)).1 [.discStopped]).2 := by
  have hstate : (t.step stack sinkName (.discRes r)).1.a2dState = t.a2dState := by
    have hnote : (t.note stack sinkName r).a2dState = t.a2dState := by
      rw [Source.note]
      split <;> rfl
    show ((t.note stack sinkName r).filterInquiryScanResult stack sinkName r).1.a2dState = _
    rw [Source.filterInquiryScanResult, if_pos, hnote]
    rw [hnote]
    rcases ht with ht | ht <;> rw [ht] <;> exact nofun
  intro bda hb
  generalize (t.step stack sinkName (.discRes r)).1 = t' at hstate hb
  change _ ∈ { t' with running := false }.discoveryStopped.2 ++ [] at hb
  rw [Source.discoveryStopped, if_neg, List.append_nil] at hb
  · cases List.mem_singleton.mp hb
  · show ¬ t'.a2dState = _
    rw [hstate]
    rcases ht with ht | ht <;> rw [ht] <;> exact nofun

theorem timely_of_finds {e : BtEvent} (h : Finds stack sinkName t e) : Timely stack sinkName t e := by
  rcases e with - | r | - | - | e
  any_goals exact trivial
  · intro htarget hrun
    by_contra hno
    have ht : t.a2dState = .unconnected ∨ t.a2dState = .idle := by
      by_contra hboth
      exact hno ⟨fun h₁ => hboth (.inl h₁), fun h₂ => hboth (.inr h₂)⟩
    obtain ⟨bda, hbda⟩ := h.leads r rfl htarget hrun (by rcases ht with ht | ht <;> rw [ht] <;> rfl)
      [] (fun e he => (nomatch he))
    exact discRes_ignored stack sinkName ht bda hbda
  · show t.a2dState.busy = false
    by_cases hd : t.a2dState = .discovered
    · rw [hd]
      rfl
    · refine h.restarts t.a2dState ?_
      show _ ∈ { t with running := false }.discoveryStopped.2
      rw [Source.discoveryStopped, if_neg hd]
      exact List.mem_cons_self

end Steps

/-! ### The runs -/

theorem along_timely {stack : Stack} {sinkName : Option (List UInt8)} {es : List BtEvent}
    (h : (machine stack sinkName).Along (Finds stack sinkName) sourceInit es) :
    (machine stack sinkName).Along (Timely stack sinkName) sourceInit es :=
  (machine stack sinkName).along_of_invariant (I := Source.Known)
    (fun _ e hI _ => hI.step stack sinkName e)
    (fun _ _ _ hP => timely_of_finds stack sinkName hP) (fun hi => absurd rfl hi) h

/-- Every step of a run is as it is to be if and only if every event of it comes in time. -/
theorem source_finds_iff (stack : Stack) (sinkName : Option (List UInt8)) (es : List BtEvent) :
    (machine stack sinkName).Along (Finds stack sinkName) sourceInit es ↔
      (machine stack sinkName).Along (Timely stack sinkName) sourceInit es := by
  refine ⟨along_timely, fun h => ?_⟩
  exact (machine stack sinkName).along_of_invariant (I := Source.Known)
    (fun _ e hI _ => hI.step stack sinkName e)
    (fun _ _ hI hP => finds_of_timely stack sinkName hI hP) (fun hi => absurd rfl hi) h

/-- A stack that reads a class of device as it is laid out, and an EIR that is a name. -/
def plainStack : Stack where
  isValidCod cod := cod &&& 3 == 0
  getCodSrvc cod := (cod &&& 0xffe000) >>> 13
  resolveEirData eir _ := some eir

/-- A loudspeaker. -/
def speaker : DiscRes where
  bda := 0x112233445566
  prop := [.cod 0x240414, .bdname [83, 80, 75]]

/-- The loudspeaker is found, the connection fails, and so does the next request; it answers the
discovery that is then started. -/
def failsTwice : List BtEvent :=
  [.stackUp, .discStarted, .discRes speaker, .discStopped, .a2d (.connection .disconnected),
    .a2d (.heartBeat true false), .discStarted]

/-- The answer is not looked at; and when the discovery stops while the next connection is made, it is
started once more. -/
theorem source_loses_sink :
    ¬ (machine plainStack (some [83, 80, 75])).Along (Finds plainStack (some [83, 80, 75]))
        sourceInit (failsTwice ++ [.discRes speaker]) ∧
      ¬ (machine plainStack (some [83, 80, 75])).Along (Finds plainStack (some [83, 80, 75]))
        sourceInit (failsTwice ++ [.a2d (.heartBeat true true), .discStopped]) := by
  constructor
  · intro h
    exact absurd (along_timely h) (by decide)
  · intro h
    exact absurd (along_timely h) (by decide)

end BtSource

end SqueezeliteMuse
