/-
SqueezeliteMuse/WifiManager.lean

The WiFi manager: its queue of messages, its request bits, and the credentials it keeps.

What the credentials are is spread over three places: `wifi_manager_config_sta`, which a
user's request overwrites as it is posted, the configuration the driver was last given, and
what NVS holds.  A disconnected event does not say what it answers; the manager reads it off
`REQUEST_STA_CONNECT` and `REQUEST_DISCONNECT`, which earlier orders have set.  The model
carries what it answers along, and no function of the manager reads it.

`Follows` is what the user may expect of a step.  It fails when an order to connect is
handled while connected: the manager then orders a disconnect itself, which sets
`REQUEST_DISCONNECT` as the user's does, and the bit stays until some later event erases
the credentials.  It fails in the same way when a disconnect is ordered, by the user or by
a reboot, that no event will answer.

Main result: `credentials_follow`: every step of a run follows the user's orders if every
step of it is `Steady`.
-/
import SqueezeliteMuse.Lib.Runs

namespace SqueezeliteMuse

namespace Wifi

/-! ### Messages, and what a message finds -/

/-- The station's part of `wifi_config_t` that is saved. -/
structure Creds where
  ssid : List UInt8
  password : List UInt8
deriving DecidableEq

/-- What `memset` leaves. -/
def Creds.blank : Creds := ⟨[], []⟩

/-- `wifi_mode_t`. -/
inductive Mode
  | null | sta | ap | apsta
deriving DecidableEq

/-- `connection_request_made_by_code_t`. -/
inductive ConnectionRequest
  | user | autoReconnect | restoreConnection
deriving DecidableEq

/-- Who has ordered a disconnect. -/
inductive Origin
  | user | manager | reboot
deriving DecidableEq

/-- The messages that bear on the credentials.  `ORDER_DISCONNECT_STA` has no parameter, and the
parameters of the two events are not read for it: what they carry here is for the statements. -/
inductive Msg
  | loadAndRestoreSta
  | connectSta (request : ConnectionRequest)
  | disconnectSta (origin : Origin)
  | startAp
  | staDisconnected (answers : Option Origin)
  | staGotIp (network : Creds)
  | restart
  | other
deriving DecidableEq

/-- The station, as the driver has it. -/
inductive Link
  | idle | connecting | connected
deriving DecidableEq

/-- How far `wifi_manager_fetch_wifi_sta_config` gets. -/
inductive Fetch
  | closed | noSsid | noPassword | both
deriving DecidableEq

/-- How far `wifi_manager_save_sta_config` gets. -/
inductive Save
  | nothing | ssid | both
deriving DecidableEq

/-- What the calls return that are made while a message is handled. -/
structure Calls where
  setMode : Bool
  setConfig : Bool
  connect : Bool
  disconnect : Bool
  fetch : Fetch
  save : Save
  restart : Bool

structure Manager where
  /-- `wifi_manager_config_sta` -/
  config : Creds
  /-- what NVS holds -/
  stored : Creds
  /-- `WIFI_MANAGER_WIFI_CONNECTED_BIT` -/
  connected : Bool
  /-- `WIFI_MANAGER_REQUEST_STA_CONNECT_BIT` -/
  requestConnect : Bool
  /-- `WIFI_MANAGER_REQUEST_RESTORE_STA_BIT` -/
  restore : Bool
  /-- `WIFI_MANAGER_REQUEST_DISCONNECT_BIT` -/
  requestDisconnect : Bool
  mode : Mode
  retries : UInt8
  /-- `wifi_manager_queue` -/
  queue : List Msg
  /-- the configuration that the driver was last given -/
  driver : Creds
  link : Link
  /-- disconnected events that the driver has still to post, and what each answers -/
  leaving : List (Option Origin)
  /-- what the user has last asked for -/
  asked : Creds

/-- `wifi_manager_start`, and the first message of the task. -/
def boot (stored : Creds) : Manager where
  config := .blank
  stored := stored
  connected := false
  requestConnect := false
  restore := false
  requestDisconnect := false
  mode := .null
  retries := 0
  queue := [.loadAndRestoreSta]
  driver := .blank
  link := .idle
  leaving := []
  asked := .blank

namespace Manager

/-- `wifi_manager_send_message`. -/
def sendMessage (t : Manager) (m : Msg) : Manager := { t with queue := t.queue ++ [m] }

/-- `wifi_manager_fetch_wifi_sta_config`. -/
def fetchStaConfig (t : Manager) : Fetch → Manager × Bool
  | .closed => (t, false)
  | .noSsid => ({ t with config := .blank }, false)
  | .noPassword => ({ t with config := ⟨t.stored.ssid, []⟩ }, !t.stored.ssid.isEmpty)
  | .both => ({ t with config := t.stored }, !t.stored.ssid.isEmpty)

/-- `wifi_manager_save_sta_config`. -/
def saveStaConfig (t : Manager) : Save → Manager
  | .nothing => t
  | .ssid => { t with stored := ⟨t.config.ssid, t.stored.password⟩ }
  | .both => { t with stored := t.config }

/-- `wifi_manager_config_ap`. -/
def configAp (t : Manager) (r : Calls) : Manager :=
  if r.setMode then { t with mode := .apsta } else t

/-- `esp_wifi_connect`: an attempt that was under way has failed. -/
def espConnect (t : Manager) : Manager :=
  { t with
    link := .connecting
    leaving := t.leaving ++ if t.link = .idle then [] else [none] }

/-- `esp_wifi_disconnect`: an event answers it if there was something to disconnect. -/
def espDisconnect (t : Manager) (o : Origin) : Manager :=
  if t.link = .idle then t
  else { t with link := .idle, leaving := t.leaving ++ [some o] }

/-! ### The handlers -/

def loadAndRestoreSta (t : Manager) (r : Calls) : Manager :=
  if (t.fetchStaConfig r.fetch).2 then
    (t.fetchStaConfig r.fetch).1.sendMessage (.connectSta .restoreConnection)
  else (t.fetchStaConfig r.fetch).1.sendMessage .startAp

/-- The soft AP is not started, and the station neither. -/
def NeedsMode (t : Manager) : Prop := t.mode ≠ .apsta ∧ t.mode ≠ .sta

instance (t : Manager) : Decidable t.NeedsMode := inferInstanceAs (Decidable (_ ∧ _))

/-- The attempt of `ORDER_CONNECT_STA`: the mode, the configuration, and the call. -/
def attempt (t : Manager) (r : Calls) : Manager :=
  if t.NeedsMode ∧ r.setMode = false then t
  else
    let ready := { t with mode := if t.NeedsMode then .sta else t.mode }
    if r.setConfig then
      if r.connect then { ready with driver := t.config }.espConnect
      else { ready with driver := t.config }
    else ready

def connectSta (t : Manager) (r : Calls) (request : ConnectionRequest) : Manager :=
  let asking := match request with
    | .user => { t with requestConnect := true }
    | .restoreConnection => { t with restore := true }
    | .autoReconnect => t
  if t.connected then asking.sendMessage (.disconnectSta .manager) else asking.attempt r

/-- `ORDER_DISCONNECT_STA`: a call that fails aborts, and the device boots. -/
def disconnectSta (t : Manager) (r : Calls) (o : Origin) : Manager :=
  if r.disconnect then { t with requestDisconnect := true }.espDisconnect o
  else boot t.stored

def staDisconnected (maxRetry : ℕ) (t : Manager) (r : Calls) : Manager :=
  if t.requestConnect then
    if t.mode = .sta then { t with requestConnect := false }.sendMessage .loadAndRestoreSta
    else { t with requestConnect := false }
  else if t.requestDisconnect then
    (({ t with requestDisconnect := false, config := .blank }).saveStaConfig r.save).sendMessage
      .startAp
  else if t.retries.toNat < maxRetry then
    { t with retries := t.retries + 1 }.sendMessage (.connectSta .autoReconnect)
  else
    let lost := { t with retries := 0, restore := false }
    if t.mode = .apsta then lost else lost.configAp r

def staGotIp (t : Manager) (r : Calls) : Manager :=
  let saved :=
    if t.restore then { t with requestConnect := false, restore := false }
    else { t with requestConnect := false }.saveStaConfig r.save
  if r.setMode then { saved with mode := .sta } else saved

/-- The switch of `wifi_manager`. -/
def dispatch (maxRetry : ℕ) (t : Manager) (r : Calls) : Msg → Manager
  | .loadAndRestoreSta => t.loadAndRestoreSta r
  | .connectSta request => t.connectSta r request
  | .disconnectSta o => t.disconnectSta r o
  | .startAp => (t.configAp r).sendMessage .other
  | .staDisconnected _ => t.staDisconnected maxRetry r
  | .staGotIp _ => t.staGotIp r
  | .restart => if r.restart then boot t.stored else t
  | .other => t

end Manager

/-! ### What happens -/

inductive Event
  /-- `connect_post_handler` -/
  | userConnect (network : Creds)
  /-- `connect_delete_handler` -/
  | userDisconnect
  /-- `wifi_manager_reboot` -/
  | reboot
  /-- `wifi_manager_reboot_ota` -/
  | rebootOta
  /-- `polling_STA` -/
  | polling
  | orderLoad
  | orderAp
  | orderOther
  /-- `IP_EVENT_STA_GOT_IP` -/
  | gotIp
  /-- `WIFI_EVENT_STA_DISCONNECTED`, of a failed attempt or a lost connection -/
  | lost
  /-- `WIFI_EVENT_STA_DISCONNECTED`, of a connection or an attempt that was given up -/
  | left
  /-- the task takes a message -/
  | handle (r : Calls)

namespace Manager

variable (maxRetry : ℕ)

def step (t : Manager) : Event → Manager
  | .userConnect c => { t with config := c, asked := c }.sendMessage (.connectSta .user)
  | .userDisconnect => t.sendMessage (.disconnectSta .user)
  | .reboot => (t.sendMessage .restart).sendMessage (.disconnectSta .reboot)
  | .rebootOta => t.sendMessage .restart
  | .polling => t.sendMessage (.connectSta .autoReconnect)
  | .orderLoad => t.sendMessage .loadAndRestoreSta
  | .orderAp => t.sendMessage .startAp
  | .orderOther => t.sendMessage .other
  | .gotIp =>
      if t.link = .idle then t
      else { t with link := .connected, connected := true }.sendMessage (.staGotIp t.driver)
  | .lost =>
      if t.link = .idle then t
      else { t with link := .idle, connected := false }.sendMessage (.staDisconnected none)
  | .left =>
      match t.leaving with
      | [] => t
      | o :: rest => { t with leaving := rest, connected := false }.sendMessage (.staDisconnected o)
  | .handle r =>
      match t.queue with
      | [] => t
      | m :: q => { t with queue := q }.dispatch maxRetry r m

/-- The message that a step handles. -/
def handled (t : Manager) : Event → Option Msg
  | .handle _ => t.queue.head?
  | _ => none

end Manager

def machine (maxRetry : ℕ) : Runs.Machine Manager Event Unit where
  step t e := (t.step maxRetry e, [])

/-! ### What is to be of a step -/

/-- A step follows the user's orders. -/
structure Follows (maxRetry : ℕ) (t : Manager) (e : Event) : Prop where
  /-- what is stored is erased by a disconnected event that answers the user, and replaced by the
  network that an IP was got from -/
  kept : (t.step maxRetry e).stored = t.stored ∨
    (t.handled e = some (.staDisconnected (some .user)) ∧
      (t.step maxRetry e).stored.ssid = []) ∨
    ∃ c, t.handled e = some (.staGotIp c) ∧ (t.step maxRetry e).stored = c
  /-- a network that an IP was got from is stored -/
  stores : ∀ c, t.handled e = some (.staGotIp c) → (t.step maxRetry e).stored = c
  /-- the user's order leads to an attempt with what the user has asked for -/
  attempts : ∀ r, e = .handle r → t.queue.head? = some (.connectSta .user) →
    r.setMode = true → r.setConfig = true → r.connect = true →
      (t.step maxRetry e).driver = t.asked ∧ (t.step maxRetry e).link = .connecting

/-! ### Steps that are steady -/

def Msg.isGotIp : Msg → Bool
  | .staGotIp _ => true
  | _ => false

/-- The messages that read `wifi_manager_config_sta` on behalf of someone. -/
def Msg.needsConfig : Msg → Bool
  | .staGotIp _ => true
  | .connectSta .user => true
  | _ => false

/-- What a disconnected event answers. -/
def Msg.report : Msg → Option (Option Origin)
  | .staDisconnected answers => some answers
  | _ => none

namespace Manager

/-- The disconnected events on their way. -/
def pending (t : Manager) : List (Option Origin) := t.queue.filterMap Msg.report ++ t.leaving

/-- The driver takes the configuration. -/
def TakesConfig (t : Manager) (r : Calls) : Prop :=
  ¬ (t.NeedsMode ∧ r.setMode = false) ∧ r.setConfig = true

instance (t : Manager) (r : Calls) : Decidable (t.TakesConfig r) :=
  inferInstanceAs (Decidable (_ ∧ _))

/-- A message may be handled:

* an order to connect while not connected, when no disconnect is to be answered, and, if the
  connection counts as restored, with what is stored;
* an order to disconnect if it comes from the user and exactly one event will answer it, or if
  one is being answered;
* an order to load if it changes nothing or nothing waits for the configuration;
* an IP if the network can be saved. -/
def Handles (t : Manager) (r : Calls) : Msg → Prop
  | .connectSta p =>
      t.connected = false ∧ t.requestDisconnect = false ∧
        (t.restore = true ∨ p = .restoreConnection → t.config = t.stored) ∧
        (p = .restoreConnection → t.link = .idle ∨ t.driver = t.stored ∨ t.TakesConfig r)
  | .disconnectSta o =>
      t.requestDisconnect = true ∨
        (o = .user ∧ t.link ≠ .idle ∧ t.requestConnect = false ∧ t.pending = [])
  | .loadAndRestoreSta =>
      (t.fetchStaConfig r.fetch).1.config = t.config ∨ ∀ m ∈ t.queue, m.needsConfig = false
  | .staGotIp _ => t.restore = true ∨ r.save = .both
  | .startAp | .staDisconnected _ | .restart | .other => True

/-- The steps after which the request bits and `wifi_manager_config_sta` still mean what the next
handler takes them for. -/
def Steady (t : Manager) : Event → Prop
  | .userConnect c =>
      t.requestDisconnect = false ∧ (c = t.config ∨ ∀ m ∈ t.queue, m.isGotIp = false)
  | .gotIp => t.link ≠ .idle → t.config = t.driver
  | .handle r => ∀ m ∈ t.queue.head?, { t with queue := t.queue.tail }.Handles r m
  | .userDisconnect | .reboot | .rebootOta | .polling | .orderLoad | .orderAp | .orderOther
  | .lost | .left => True

instance (t : Manager) (r : Calls) (m : Msg) : Decidable (t.Handles r m) :=
  match m with
  | .connectSta _ => inferInstanceAs (Decidable (_ ∧ _ ∧ (_ → _) ∧ (_ → _)))
  | .disconnectSta _ => inferInstanceAs (Decidable (_ ∨ (_ ∧ _ ∧ _ ∧ _)))
  | .loadAndRestoreSta => inferInstanceAs (Decidable (_ ∨ _))
  | .staGotIp _ => inferInstanceAs (Decidable (_ ∨ _))
  | .startAp | .staDisconnected _ | .restart | .other => .isTrue trivial

instance (t : Manager) (e : Event) : Decidable (t.Steady e) :=
  match e with
  | .userConnect _ => inferInstanceAs (Decidable (_ ∧ (_ ∨ _)))
  | .gotIp => inferInstanceAs (Decidable (_ → _))
  | .handle _ => inferInstanceAs (Decidable (∀ m ∈ t.queue.head?, _))
  | .userDisconnect | .reboot | .rebootOta | .polling | .orderLoad | .orderAp | .orderOther
  | .lost | .left => .isTrue trivial

end Manager

namespace Manager

/-! ### What the steps keep -/

/-- A disconnect of the user's is being answered: by the one disconnected event on its way, behind
which nothing that needs the configuration comes. -/
structure Leaving (t : Manager) : Prop where
  requestConnect : t.requestConnect = false
  link : t.link = .idle
  pending : t.pending = [some .user]
  behind : t.queue.Pairwise fun m m' => m.report ≠ none → m'.needsConfig = false

/-- What steady steps keep. -/
structure Orderly (t : Manager) : Prop where
  gotIp : ∀ c, .staGotIp c ∈ t.queue → t.config = c
  order : .connectSta .user ∈ t.queue → t.config = t.asked
  leaving : t.requestDisconnect = true → t.Leaving
  restoring : t.restore = true →
    (t.link ≠ .idle → t.driver = t.stored) ∧ ∀ c, .staGotIp c ∈ t.queue → c = t.stored

theorem orderly_boot (stored : Creds) : (boot stored).Orderly where
  gotIp c hc := by simp [boot] at hc
  order h := by simp [boot] at h
  leaving h := nomatch h
  restoring h := nomatch h

section Messages

variable {t : Manager} {m : Msg}

theorem mem_sendMessage {m' : Msg} : m' ∈ (t.sendMessage m).queue ↔ m' ∈ t.queue ∨ m' = m := by
  show m' ∈ t.queue ++ [m] ↔ _
  rw [List.mem_append, List.mem_singleton]

theorem pending_sendMessage (hm : m.report = none) : (t.sendMessage m).pending = t.pending := by
  show (t.queue ++ [m]).filterMap Msg.report ++ t.leaving = _
  rw [List.filterMap_append, List.filterMap_cons_none hm, List.filterMap_nil, List.append_nil]
  rfl

theorem behind_sendMessage
    (h : t.queue.Pairwise fun m m' => m.report ≠ none → m'.needsConfig = false)
    (hm : m.needsConfig = false) :
    (t.sendMessage m).queue.Pairwise fun m m' => m.report ≠ none → m'.needsConfig = false := by
  show (t.queue ++ [m]).Pairwise _
  refine List.pairwise_append.mpr ⟨h, List.pairwise_singleton .., fun a _ b hb _ => ?_⟩
  rw [List.mem_singleton.mp hb]
  exact hm

theorem Leaving.sendMessage (h : t.Leaving) (hm : m.needsConfig = false)
    (hreport : m.report = none) : (t.sendMessage m).Leaving where
  requestConnect := h.requestConnect
  link := h.link
  pending := (pending_sendMessage hreport).trans h.pending
  behind := behind_sendMessage h.behind hm

/-- A message that nobody waits for. -/
theorem Orderly.sendMessage (h : t.Orderly) (hm : m.needsConfig = false)
    (hreport : m.report = none) : (t.sendMessage m).Orderly where
  gotIp c hc := by
    rcases mem_sendMessage.mp hc with hc | rfl
    · exact h.gotIp c hc
    · cases hm
  order ho := by
    rcases mem_sendMessage.mp ho with ho | rfl
    · exact h.order ho
    · cases hm
  leaving hd := (h.leaving hd).sendMessage hm hreport
  restoring hr := by
    refine ⟨(h.restoring hr).1, fun c hc => ?_⟩
    rcases mem_sendMessage.mp hc with hc | rfl
    · exact (h.restoring hr).2 c hc
    · cases hm

/-- A disconnected event: if a disconnect is being answered, it is still to be by one event. -/
theorem Orderly.report {o : Option Origin} (h : { t with requestDisconnect := false }.Orderly)
    (hd : t.requestDisconnect = true → (t.sendMessage (.staDisconnected o)).Leaving) :
    (t.sendMessage (.staDisconnected o)).Orderly where
  gotIp c hc := by
    rcases mem_sendMessage.mp hc with hc | hc
    · exact h.gotIp c hc
    · cases hc
  order ho := by
    rcases mem_sendMessage.mp ho with ho | ho
    · exact h.order ho
    · cases ho
  leaving := hd
  restoring hr := by
    refine ⟨(h.restoring hr).1, fun c hc => ?_⟩
    rcases mem_sendMessage.mp hc with hc | hc
    · exact (h.restoring hr).2 c hc
    · cases hc

/-- A message is taken. -/
theorem Orderly.take {q : List Msg} (h : t.Orderly) (hq : t.queue = m :: q)
    (hm : m.report = none ∨ t.requestDisconnect = false) : { t with queue := q }.Orderly where
  gotIp c hc := h.gotIp c (hq ▸ List.mem_cons_of_mem m hc)
  order ho := h.order (hq ▸ List.mem_cons_of_mem m ho)
  leaving hd := by
    obtain ⟨hconn, hlink, hpending, hbehind⟩ := h.leaving hd
    refine ⟨hconn, hlink, ?_, (List.pairwise_cons.mp (hq ▸ hbehind)).2⟩
    have hreport : m.report = none := hm.resolve_right fun hno => nomatch hno.symm.trans hd
    rw [pending, hq, List.filterMap_cons_none hreport] at hpending
    exact hpending
  restoring hr :=
    ⟨(h.restoring hr).1, fun c hc => (h.restoring hr).2 c (hq ▸ List.mem_cons_of_mem m hc)⟩

end Messages

section Handlers

variable {t : Manager} {r : Calls}

/-- The invariant reads neither the mode nor the number of retries. -/
theorem Orderly.setMode (h : t.Orderly) (mode : Mode) (retries : UInt8) :
    { t with mode := mode, retries := retries }.Orderly where
  gotIp := h.gotIp
  order := h.order
  leaving hd :=
    let ⟨hconn, hlink, hpending, hbehind⟩ := h.leaving hd
    ⟨hconn, hlink, hpending, hbehind⟩
  restoring := h.restoring

theorem Orderly.configAp (h : t.Orderly) (r : Calls) : (t.configAp r).Orderly := by
  rw [Manager.configAp]
  split
  · exact h.setMode .apsta t.retries
  · exact h

/-- Another configuration is put in place, when nothing waits for the one that is there. -/
theorem Orderly.setConfig (h : t.Orderly) {c : Creds}
    (hc : c = t.config ∨ ∀ m ∈ t.queue, m.needsConfig = false) :
    { t with config := c }.Orderly := by
  rcases hc with rfl | hc
  · exact h
  · refine ⟨fun c' hc' => ?_, fun ho => ?_, fun hd => ?_, h.restoring⟩
    · cases hc _ hc'
    · cases hc _ ho
    · exact ⟨(h.leaving hd).1, (h.leaving hd).2, (h.leaving hd).3, (h.leaving hd).4⟩

theorem fetchStaConfig_eq (t : Manager) (f : Fetch) :
    (t.fetchStaConfig f).1 = { t with config := (t.fetchStaConfig f).1.config } := by
  rcases f with - | - | - | - <;> rfl

theorem Orderly.loadAndRestoreSta (h : t.Orderly) (hr : t.Handles r .loadAndRestoreSta) :
    (t.loadAndRestoreSta r).Orderly := by
  have hloaded : (t.fetchStaConfig r.fetch).1.Orderly := by
    rw [fetchStaConfig_eq]
    exact h.setConfig hr
  rw [Manager.loadAndRestoreSta]
  split
  · exact hloaded.sendMessage rfl rfl
  · exact hloaded.sendMessage rfl rfl

/-! ### An order to connect -/

/-- An attempt leaves everything but the mode and the driver as it was. -/
theorem attempt_eq (t : Manager) (r : Calls) :
    t.attempt r = { t with
      mode := (t.attempt r).mode, driver := (t.attempt r).driver, link := (t.attempt r).link,
      leaving := (t.attempt r).leaving } := by
  rw [attempt]
  split
  · rfl
  · rcases r.setConfig with - | - <;> rcases r.connect with - | - <;> rfl

/-- The driver is given what is in `wifi_manager_config_sta`, if it takes it. -/
theorem attempt_driver (t : Manager) (r : Calls) :
    (t.TakesConfig r → (t.attempt r).driver = t.config ∧
      (r.connect = true → (t.attempt r).link = .connecting)) ∧
      (¬ t.TakesConfig r → (t.attempt r).driver = t.driver ∧ (t.attempt r).link = t.link) := by
  rw [attempt, TakesConfig]
  split
  · rename_i hno
    exact ⟨fun h => absurd hno h.1, fun _ => ⟨rfl, rfl⟩⟩
  · rename_i hmode
    rcases hset : r.setConfig with - | -
    · exact ⟨fun h => (nomatch h.2), fun _ => ⟨rfl, rfl⟩⟩
    · refine ⟨fun _ => ?_, fun h => absurd ⟨hmode, rfl⟩ h⟩
      rcases r.connect with - | -
      · exact ⟨rfl, fun h => (nomatch h)⟩
      · exact ⟨rfl, fun _ => rfl⟩

/-- What is attempted is restored if it counts as restored. -/
theorem orderly_attempt (hgot : ∀ c, .staGotIp c ∈ t.queue → t.config = c)
    (horder : .connectSta .user ∈ t.queue → t.config = t.asked) (hd : t.requestDisconnect = false)
    (hr : t.restore = true → t.config = t.stored ∧ (t.driver = t.stored ∨ t.link = .idle ∨
      t.TakesConfig r) ∧ ∀ c, .staGotIp c ∈ t.queue → c = t.stored) : (t.attempt r).Orderly := by
  obtain ⟨htakes, hleaves⟩ := attempt_driver t r
  rw [attempt_eq]
  refine ⟨hgot, horder, fun hd' => ?_, fun hres => ⟨fun hlink => ?_, (hr hres).2.2⟩⟩
  · cases hd.symm.trans hd'
  · show (t.attempt r).driver = t.stored
    obtain ⟨hconfig, hdriver, -⟩ := hr hres
    by_cases ht : t.TakesConfig r
    · rw [(htakes ht).1, hconfig]
    · rw [(hleaves ht).1]
      rcases hdriver with hdriver | hidle | ht'
      · exact hdriver
      · exact absurd ((hleaves ht).2.trans hidle) hlink
      · exact absurd ht' ht

theorem Orderly.connectSta (h : t.Orderly) {p : ConnectionRequest} (hr : t.Handles r (.connectSta p)) :
    (t.connectSta r p).Orderly := by
  obtain ⟨hconn, hd, hstored, hidle⟩ := hr
  have hgot : t.restore = true ∨ p = .restoreConnection →
      ∀ c, .staGotIp c ∈ t.queue → c = t.stored := by
    intro hres c hc
    rw [← hstored hres, h.gotIp c hc]
  have hdriver : t.restore = true ∨ p = .restoreConnection →
      t.driver = t.stored ∨ t.link = .idle ∨ t.TakesConfig r := by
    rintro (hres | hp)
    · by_cases hlink : t.link = .idle
      · exact .inr (.inl hlink)
      · exact .inl ((h.restoring hres).1 hlink)
    · rcases hidle hp with h₁ | h₂ | h₃
      · exact .inr (.inl h₁)
      · exact .inl h₂
      · exact .inr (.inr h₃)
  simp only [Manager.connectSta, hconn, Bool.false_eq_true, if_false]
  rcases p with - | - | -
  · exact orderly_attempt h.gotIp h.order hd fun hres =>
      ⟨hstored (.inl hres), hdriver (.inl hres), hgot (.inl hres)⟩
  · exact orderly_attempt h.gotIp h.order hd fun hres =>
      ⟨hstored (.inl hres), hdriver (.inl hres), hgot (.inl hres)⟩
  · exact orderly_attempt h.gotIp h.order hd fun _ =>
      ⟨hstored (.inr rfl), hdriver (.inr rfl), hgot (.inr rfl)⟩

/-! ### A disconnect -/

/-- The order sets the bit, and one event will answer it. -/
theorem Orderly.disconnectSta (h : t.Orderly) {o : Origin} (hr : t.Handles r (.disconnectSta o)) :
    (t.disconnectSta r o).Orderly := by
  rw [Manager.disconnectSta]
  split
  · rcases hr with hd | ⟨rfl, hlink, hconn, hpending⟩
    · -- the station is idle, and what answers the first order is on its way
      have hleaving := h.leaving hd
      rw [espDisconnect, if_pos hleaving.link]
      exact ⟨h.gotIp, h.order,
        fun _ => ⟨hleaving.requestConnect, hleaving.link, hleaving.pending, hleaving.behind⟩,
        h.restoring⟩
    · rw [espDisconnect, if_neg hlink]
      rw [pending, List.append_eq_nil_iff] at hpending
      refine ⟨h.gotIp, h.order, fun _ => ⟨hconn, rfl, ?_, ?_⟩,
        fun hres => ⟨fun hno => absurd rfl hno, (h.restoring hres).2⟩⟩
      · show t.queue.filterMap Msg.report ++ (t.leaving ++ [some .user]) = _
        rw [hpending.1, hpending.2]
        rfl
      · refine List.pairwise_of_forall_mem_list fun m hm _ _ hreport => ?_
        exact absurd (List.filterMap_eq_nil_iff.mp hpending.1 m hm) hreport
  · exact orderly_boot t.stored

theorem saveStaConfig_eq (t : Manager) (s : Save) :
    t.saveStaConfig s = { t with stored := (t.saveStaConfig s).stored } := by
  rcases s with - | - | - <;> rfl

/-- Saving a blank configuration erases, as far as it gets. -/
theorem saveStaConfig_blank (ht : t.config = .blank) (s : Save) :
    (t.saveStaConfig s).stored = t.stored ∨ (t.saveStaConfig s).stored.ssid = [] := by
  rcases s with - | - | -
  · exact .inl rfl
  · refine .inr ?_
    show t.config.ssid = []
    rw [ht]
    rfl
  · refine .inr ?_
    show t.config.ssid = []
    rw [ht]
    rfl

/-- A disconnected event, while a disconnect is being answered, is the answer, and nothing behind it
needs the configuration. -/
theorem Leaving.answer (h : t.Leaving) {answers : Option Origin} {q : List Msg}
    (hq : t.queue = .staDisconnected answers :: q) :
    answers = some .user ∧ ∀ m ∈ q, m.needsConfig = false := by
  have hpending := h.pending
  have hbehind := h.behind
  rw [Manager.pending, hq] at hpending
  rw [hq] at hbehind
  exact ⟨(List.cons.inj hpending).1,
    fun m hm => (List.pairwise_cons.mp hbehind).1 m hm (fun hno => nomatch hno)⟩

/-- A disconnected event: what is stored is erased only if a disconnect is being answered. -/
theorem Orderly.staDisconnected (h : t.Orderly) {answers : Option Origin} {q : List Msg}
    (hq : t.queue = .staDisconnected answers :: q) (maxRetry : ℕ) (r : Calls) :
    ({ t with queue := q }.staDisconnected maxRetry r).Orderly ∧
      (({ t with queue := q }.staDisconnected maxRetry r).stored = t.stored ∨
        (answers = some .user ∧
          ({ t with queue := q }.staDisconnected maxRetry r).stored.ssid = [])) := by
  rw [Manager.staDisconnected]
  by_cases hd : t.requestDisconnect = true
  · obtain ⟨hconn, hlink, -, -⟩ := h.leaving hd
    obtain ⟨hanswer, hnone⟩ := (h.leaving hd).answer hq
    rw [if_neg (by rw [hconn]; exact Bool.false_ne_true), if_pos hd]
    refine ⟨Orderly.sendMessage ?_ rfl rfl, ?_⟩
    · rw [saveStaConfig_eq]
      refine ⟨fun c hc => ?_, fun ho => ?_, fun hno => (nomatch hno),
        fun _ => ⟨fun hno => absurd hlink hno, fun c hc => ?_⟩⟩
      · cases hnone _ hc
      · cases hnone _ ho
      · cases hnone _ hc
    · rcases saveStaConfig_blank
        (t := { t with queue := q, requestDisconnect := false, config := .blank }) rfl r.save with
        hkept | herased
      · exact .inl hkept
      · exact .inr ⟨hanswer, herased⟩
  · have htaken : { t with queue := q }.Orderly := h.take hq (.inr ((Bool.not_eq_true _).mp hd))
    split
    · -- the user's attempt has failed
      have hcleared : { t with queue := q, requestConnect := false }.Orderly :=
        ⟨htaken.gotIp, htaken.order, fun hd' => absurd hd' hd, htaken.restoring⟩
      split
      · exact ⟨hcleared.sendMessage rfl rfl, .inl rfl⟩
      · exact ⟨hcleared, .inl rfl⟩
    · split
      · exact ⟨(htaken.setMode t.mode (t.retries + 1)).sendMessage rfl rfl, .inl rfl⟩
      · have hlost : { t with queue := q, retries := 0, restore := false }.Orderly :=
          ⟨htaken.gotIp, htaken.order, fun hd' => absurd hd' hd, fun hno => (nomatch hno)⟩
        dsimp only
        split
        · exact ⟨hlost, .inl rfl⟩
        · refine ⟨hlost.configAp r, .inl ?_⟩
          rw [Manager.configAp]
          split <;> rfl

/-! ### An address -/

theorem Orderly.staGotIp (h : t.Orderly) {c : Creds} {q : List Msg}
    (hq : t.queue = .staGotIp c :: q) (hr : { t with queue := q }.Handles r (.staGotIp c)) :
    ({ t with queue := q }.staGotIp r).Orderly ∧ ({ t with queue := q }.staGotIp r).stored = c := by
  have htaken : { t with queue := q }.Orderly := h.take hq (.inl rfl)
  have hconfig : t.config = c := h.gotIp c (hq ▸ List.mem_cons_self)
  -- the network is the one that is stored, or is saved now
  have hsaved : ∀ s : Manager, s = (if t.restore then
        { t with queue := q, requestConnect := false, restore := false }
      else { t with queue := q, requestConnect := false }.saveStaConfig r.save) →
      s.Orderly ∧ s.stored = c := by
    rintro s rfl
    split
    · rename_i hres
      refine ⟨⟨htaken.gotIp, htaken.order, fun hd => ?_, fun hno => (nomatch hno)⟩, ?_⟩
      · exact ⟨rfl, (htaken.leaving hd).2, (htaken.leaving hd).3, (htaken.leaving hd).4⟩
      · exact ((h.restoring hres).2 c (hq ▸ List.mem_cons_self)).symm
    · rename_i hres
      rw [hr.resolve_left hres]
      refine ⟨⟨htaken.gotIp, htaken.order, fun hd => ?_, fun hno => absurd hno hres⟩, hconfig⟩
      exact ⟨rfl, (htaken.leaving hd).2, (htaken.leaving hd).3, (htaken.leaving hd).4⟩
  obtain ⟨hs, hstored⟩ := hsaved _ rfl
  rw [Manager.staGotIp]
  dsimp only
  split
  · exact ⟨hs.setMode .sta _, hstored⟩
  · exact ⟨hs, hstored⟩

end Handlers

/-! ### The steps -/

variable (maxRetry : ℕ)

/-- The handlers keep the invariant. -/
theorem Orderly.dispatch {t : Manager} (h : t.Orderly) {r : Calls} {m : Msg} {q : List Msg}
    (hq : t.queue = m :: q) (hr : { t with queue := q }.Handles r m) :
    ({ t with queue := q }.dispatch maxRetry r m).Orderly := by
  rcases m with - | p | o | - | answers | c | - | -
  · exact (h.take hq (.inl rfl)).loadAndRestoreSta hr
  · exact (h.take hq (.inl rfl)).connectSta hr
  · exact (h.take hq (.inl rfl)).disconnectSta hr
  · exact ((h.take hq (.inl rfl)).configAp r).sendMessage rfl rfl
  · exact (h.staDisconnected hq maxRetry r).1
  · exact (h.staGotIp hq hr).1
  · show Orderly (if r.restart then boot t.stored else { t with queue := q })
    split
    · exact orderly_boot t.stored
    · exact h.take hq (.inl rfl)
  · exact h.take hq (.inl rfl)

/-- The credentials posted are the ones that are asked for. -/
theorem Orderly.userConnect {t : Manager} (h : t.Orderly) {c : Creds}
    (hs : t.Steady (.userConnect c)) : (t.step maxRetry (.userConnect c)).Orderly := by
  obtain ⟨hd, hc⟩ := hs
  refine ⟨fun c' hc' => ?_, fun _ => rfl, fun hd' => (nomatch hd.symm.trans hd'), fun hres => ?_⟩
  · rcases mem_sendMessage.mp hc' with hc' | hno
    · rcases hc with rfl | hnone
      · exact h.gotIp c' hc'
      · cases hnone _ hc'
    · cases hno
  · refine ⟨(h.restoring hres).1, fun c' hc' => ?_⟩
    rcases mem_sendMessage.mp hc' with hc' | hno
    · exact (h.restoring hres).2 c' hc'
    · cases hno

/-- An IP is got with the configuration that the driver was last given. -/
theorem Orderly.gotAddress {t : Manager} (h : t.Orderly) (hs : t.Steady .gotIp) :
    (t.step maxRetry .gotIp).Orderly := by
  show Orderly (if t.link = .idle then t else _)
  split
  · exact h
  · rename_i hlink
    refine ⟨fun c hc => ?_, fun ho => ?_, fun hd => absurd (h.leaving hd).link hlink, fun hres => ?_⟩
    · rcases mem_sendMessage.mp hc with hc | hc
      · exact h.gotIp c hc
      · cases hc
        exact hs hlink
    · rcases mem_sendMessage.mp ho with ho | hno
      · exact h.order ho
      · cases hno
    · refine ⟨fun _ => (h.restoring hres).1 hlink, fun c hc => ?_⟩
      rcases mem_sendMessage.mp hc with hc | hc
      · exact (h.restoring hres).2 c hc
      · cases hc
        exact (h.restoring hres).1 hlink

theorem Orderly.lost {t : Manager} (h : t.Orderly) : (t.step maxRetry .lost).Orderly := by
  show Orderly (if t.link = .idle then t else _)
  split
  · exact h
  · rename_i hlink
    refine Orderly.report ?_ fun hd => absurd (h.leaving hd).link hlink
    exact ⟨h.gotIp, h.order, fun hno => (nomatch hno),
      fun hres => ⟨fun hno => absurd rfl hno, (h.restoring hres).2⟩⟩

/-- What the driver had still to post is posted. -/
theorem Orderly.left {t : Manager} (h : t.Orderly) : (t.step maxRetry .left).Orderly := by
  rcases hl : t.leaving with - | ⟨o, rest⟩
  · rw [step, hl]
    exact h
  · rw [step, hl]
    refine Orderly.report ⟨h.gotIp, h.order, fun hno => (nomatch hno), h.restoring⟩ fun hd => ?_
    obtain ⟨hconn, hlink, hpending, hbehind⟩ := h.leaving hd
    refine ⟨hconn, hlink, ?_, ?_⟩
    · rw [pending, hl] at hpending
      show (t.queue ++ [Msg.staDisconnected o]).filterMap Msg.report ++ rest = _
      rw [List.filterMap_append, List.append_assoc]
      exact hpending
    · exact behind_sendMessage (t := { t with leaving := rest, connected := false }) hbehind rfl

/-- A steady step keeps the invariant. -/
theorem Orderly.step {t : Manager} (h : t.Orderly) {e : Event} (hs : t.Steady e) :
    (t.step maxRetry e).Orderly := by
  rcases e with c | - | - | - | - | - | - | - | - | - | - | r
  · exact h.userConnect maxRetry hs
  · exact h.sendMessage rfl rfl
  · exact (h.sendMessage rfl rfl).sendMessage rfl rfl
  · exact h.sendMessage rfl rfl
  · exact h.sendMessage rfl rfl
  · exact h.sendMessage rfl rfl
  · exact h.sendMessage rfl rfl
  · exact h.sendMessage rfl rfl
  · exact h.gotAddress maxRetry hs
  · exact h.lost maxRetry
  · exact h.left maxRetry
  · rcases hq : t.queue with - | ⟨m, q⟩
    · rw [Manager.step, hq]
      exact h
    · rw [Manager.step, hq]
      refine h.dispatch maxRetry hq ?_
      have hm := hs m (by rw [hq]; rfl)
      rw [hq] at hm
      exact hm

/-- What is stored is touched by the two events only. -/
theorem dispatch_stored (t : Manager) (r : Calls) {m : Msg} (hreport : m.report = none)
    (hgot : m.isGotIp = false) : (t.dispatch maxRetry r m).stored = t.stored := by
  rcases m with - | p | o | - | answers | c | - | -
  · show (t.loadAndRestoreSta r).stored = _
    rw [loadAndRestoreSta, fetchStaConfig_eq]
    split <;> rfl
  · show (t.connectSta r p).stored = _
    unfold connectSta
    rcases p with - | - | - <;> dsimp only <;> split <;> first | rfl | rw [attempt_eq]
  · show (t.disconnectSta r o).stored = _
    rw [disconnectSta]
    split
    · rw [espDisconnect]
      split <;> rfl
    · rfl
  · show (t.configAp r).stored = _
    rw [configAp]
    split <;> rfl
  · cases hreport
  · cases hgot
  · show (if r.restart then boot t.stored else t).stored = _
    split <;> rfl
  · rfl

theorem step_stored (t : Manager) {e : Event} (he : ∀ r, e ≠ .handle r) :
    (t.step maxRetry e).stored = t.stored := by
  rcases e with c | - | - | - | - | - | - | - | - | - | - | r
  any_goals rfl
  · show (if t.link = .idle then t else _).stored = _
    split <;> rfl
  · show (if t.link = .idle then t else _).stored = _
    split <;> rfl
  · rw [step]
    split <;> rfl
  · exact absurd rfl (he r)

/-- The user's order to connect, while not connected, is an attempt. -/
theorem connectSta_attempts {t : Manager} {r : Calls} (hconn : t.connected = false)
    (hmode : r.setMode = true) (hset : r.setConfig = true) (hcall : r.connect = true) :
    (t.connectSta r .user).driver = t.config ∧ (t.connectSta r .user).link = .connecting := by
  have hattempt : t.connectSta r .user = { t with requestConnect := true }.attempt r :=
    if_neg (by rw [hconn]; exact Bool.false_ne_true)
  rw [hattempt]
  have htakes : { t with requestConnect := true }.TakesConfig r :=
    ⟨fun hno => (nomatch hmode.symm.trans hno.2), hset⟩
  obtain ⟨hdriver, hlink⟩ := (attempt_driver { t with requestConnect := true } r).1 htakes
  exact ⟨hdriver, hlink hcall⟩

/-- A message that is handled. -/
theorem Orderly.follows_handle {t : Manager} (h : t.Orderly) {r : Calls} {m : Msg} {q : List Msg}
    (hq : t.queue = m :: q) (hr : { t with queue := q }.Handles r m) :
    Follows maxRetry t (.handle r) := by
  have hstep : t.step maxRetry (.handle r) = { t with queue := q }.dispatch maxRetry r m := by
    rw [Manager.step, hq]
  have hhandled : t.handled (.handle r) = some m := by
    rw [handled, hq]
    rfl
  refine ⟨?_, fun c hc => ?_, fun r' hr' hm hmode hset hcall => ?_⟩
  · rw [hstep, hhandled]
    rcases hreport : m.report with - | answers
    · rcases hgot : m.isGotIp with - | -
      · exact .inl (dispatch_stored maxRetry _ r hreport hgot)
      · rcases m with - | p | o | - | a | c | - | - <;> cases hgot
        exact .inr (.inr ⟨c, rfl, (h.staGotIp hq hr).2⟩)
    · rcases m with - | p | o | - | a | c | - | - <;> cases hreport
      rcases (h.staDisconnected hq maxRetry r).2 with hkept | ⟨rfl, herased⟩
      · exact .inl hkept
      · exact .inr (.inl ⟨rfl, herased⟩)
  · rw [hhandled] at hc
    cases hc
    rw [hstep]
    exact (h.staGotIp hq hr).2
  · cases hr'
    rw [hq] at hm
    cases hm
    rw [hstep, ← h.order (hq ▸ List.mem_cons_self)]
    exact connectSta_attempts hr.1 hmode hset hcall

/-- A steady step follows the user's orders. -/
theorem Orderly.follows {t : Manager} (h : t.Orderly) {e : Event} (hs : t.Steady e) :
    Follows maxRetry t e := by
  by_cases he : ∃ r, e = .handle r
  · obtain ⟨r, rfl⟩ := he
    rcases hq : t.queue with - | ⟨m, q⟩
    · refine ⟨.inl (by rw [Manager.step, hq]), fun c hc => ?_, fun r' _ hm => ?_⟩
      · rw [handled, hq] at hc
        cases hc
      · rw [hq] at hm
        cases hm
    · refine h.follows_handle maxRetry hq ?_
      have hm := hs m (by rw [hq]; rfl)
      rw [hq] at hm
      exact hm
  · have hother : ∀ r, e ≠ .handle r := fun r hr => he ⟨r, hr⟩
    have hnone : t.handled e = none := by
      rcases e with c | - | - | - | - | - | - | - | - | - | - | r
      any_goals rfl
      exact absurd rfl (hother r)
    refine ⟨.inl (step_stored maxRetry t hother), fun c hc => ?_, fun r hr => absurd hr (hother r)⟩
    rw [hnone] at hc
    cases hc

end Manager

/-! ### The runs -/

/-- Calls that succeed. -/
def succeeds : Calls where
  setMode := true
  setConfig := true
  connect := true
  disconnect := true
  fetch := .both
  save := .both
  restart := true

/-- Two networks. -/
def home : Creds := ⟨[72], [1, 2, 3]⟩
def office : Creds := ⟨[79], [4, 5]⟩

/-- The device connects to the network that is stored. -/
def comesUp : List Event := [.handle succeeds, .handle succeeds, .gotIp, .handle succeeds]

/-- The connection is lost and comes back; the user disconnects, and connects to another network. -/
def changesNetwork : List Event :=
  comesUp ++
    [.lost, .handle succeeds, .handle succeeds, .gotIp, .handle succeeds,
      .userDisconnect, .handle succeeds, .left, .handle succeeds, .handle succeeds, .handle succeeds,
      .userConnect office, .handle succeeds, .gotIp, .handle succeeds]

/-- The user, while connected, asks for another network. -/
def asksWhileConnected : List Event :=
  comesUp ++
    [.userConnect office, .handle succeeds, .handle succeeds, .left, .handle succeeds,
      .handle succeeds, .handle succeeds, .gotIp, .handle succeeds]

end Wifi

end SqueezeliteMuse
