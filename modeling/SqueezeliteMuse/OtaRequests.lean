/-
SqueezeliteMuse/OtaRequests.lean

One firmware update after the other: `process_recovery_ota` and the tasks it starts.

`ota_thread_parms` and `ota_http_client` outlive a request, and `ota_status` is
the record of the last accepted one.  A task goes from one call that may fail to
the next; requests come in between.  `ota_task_cleanup` lowers the flag first
and frees and deletes later, so a task that is cleaning up is a phase of its
own, and what it frees is of the request that is current then.

`esp_restart`, and a NULL pointer, lead back to `boot`.  What `free` gave back
keeps its bytes, as long as nobody is given the memory.

Main result: `updates_independent`: if every task can be created, an accepted
request finds no source of the other kind, and none comes while a task is
cleaning up, then a request is refused exactly while a task runs, and a task
starts from zeros and has only its own source.
-/
import SqueezeliteMuse.Ota

namespace SqueezeliteMuse

namespace OtaRequests

open Ota

deriving instance DecidableEq for Ota.Upload

/-! ### Data -/

/-- The arguments of `process_recovery_ota`: `bin_url`, or else `bin_buffer` with its length. -/
inductive Request
  | url (binUrl : List UInt8)
  | buffer (binBuffer : Option Upload)
  deriving DecidableEq

/-- The counters of `ota_status_t` -/
structure Counters where
  actualImageLen : ℕ
  downloadedImageLen : ℤ
  totalImageLen : ℤ
  remainImageLen : ℤ
  lastpct : UInt8
  newpct : UInt8
  newdownloadpct : UInt8
  deriving DecidableEq

/-- `ota_status_t` -/
structure OtaStatus where
  image : Ota.Status
  otaType : OtaType
  writeData : Bool
  lastpct : UInt8
  newpct : UInt8
  newdownloadpct : UInt8
  threadStarted : Bool

/-- Where `ota_task` is: what it calls next. -/
inductive Phase
  /-- `init_config` -/
  | start
  /-- `ota_buffer_all` -/
  | configured
  /-- `esp_http_client_perform` -/
  | downloading
  /-- `ota_header_check`, the erasing, `esp_ota_begin` -/
  | buffered
  /-- the loop, `esp_ota_end`, `esp_ota_set_boot_partition` -/
  | writing
  /-- `ota_task_cleanup`, after its first line -/
  | cleaning
  deriving DecidableEq

/-- `ota_thread_parms`, `ota_status`, `http_client_config.url`, `ota_http_client`, the tasks. -/
structure Updater where
  parms : Parms
  status : Option OtaStatus
  configUrl : Option (List UInt8)
  client : Option (List UInt8)
  tasks : List Phase

/-- What a task is given by its environment where it is. -/
inductive Answer
  /-- `init_config`: memory for `ota_write_data`; what lies behind an uploaded buffer -/
  | config (memory : Bool) (behind : ℕ → UInt8)
  /-- an event of the HTTP client -/
  | http (event : HttpEvent)
  /-- the partition that was found, and whether it is erased and begun -/
  | partition (size : Option UInt32) (ok : Bool)
  /-- whether the next call succeeds -/
  | call (ok : Bool)

inductive Event
  /-- A call of `process_recovery_ota`: memory for `ota_status` and for the copy of the URL,
  `xTaskCreate`. -/
  | request (req : Request) (memory copied created : Bool)
  | task (i : ℕ) (answer : Answer)

inductive Obs
  | refused
  /-- A request went through; `created` is whether it has a task. -/
  | accepted (req : Request) (created : Bool)
  | starts (counters : Counters)
  /-- the source: a buffer that is taken, a URL that is asked for -/
  | loads (bin : Upload) (behind : ℕ → UInt8)
  | fetches (url : List UInt8)
  | http (event : HttpEvent)
  /-- `esp_ota_write` -/
  | writes (chunk : List UInt8)
  /-- `vTaskDelete` -/
  | ended
  /-- `esp_restart`, or a NULL pointer -/
  | restarts

/-! ### process_recovery_ota -/

/-- `memset(ota_status, 0x00, sizeof(ota_status_t))` -/
def OtaStatus.zero : OtaStatus where
  image := Ota.Status.start
  otaType := .http
  writeData := false
  lastpct := 0
  newpct := 0
  newdownloadpct := 0
  threadStarted := false

def OtaStatus.counters (st : OtaStatus) : Counters where
  actualImageLen := st.image.actualImageLen
  downloadedImageLen := st.image.downloadedImageLen
  totalImageLen := st.image.totalImageLen
  remainImageLen := st.image.remainImageLen
  lastpct := st.lastpct
  newpct := st.newpct
  newdownloadpct := st.newdownloadpct

def boot : Updater where
  parms := ⟨none, none⟩
  status := none
  configUrl := none
  client := none
  tasks := []

/-- `ota_status && ota_status->bOTAThreadStarted` -/
def Updater.started (s : Updater) : Bool := s.status.any OtaStatus.threadStarted

/-- What a request leaves in `ota_thread_parms`. -/
def Request.store (req : Request) (copied : Bool) (p : Parms) : Parms :=
  match req with
  | .url binUrl => { p with url := if copied then some binUrl else none }
  | .buffer binBuffer => { p with bin := binBuffer }

/-- `process_recovery_ota` -/
def Updater.processRecoveryOta (s : Updater) (req : Request) (memory copied created : Bool) :
    Updater × List Obs :=
  if s.started then (s, [.refused])
  else if memory then
    let s := { s with
      status := some { OtaStatus.zero with threadStarted := true }
      parms := req.store copied s.parms }
    if created then ({ s with tasks := s.tasks ++ [.start] }, [.accepted req true])
    else (s, [.accepted req false])
  else (boot, [.restarts])

/-! ### ota_task -/

/-- Task `i` goes on with what it has done to `ota_status`. -/
def Updater.next (s : Updater) (i : ℕ) (st : OtaStatus) (phase : Phase) : Updater :=
  { s with status := some st, tasks := s.tasks.set i phase }

/-- `ota_task_cleanup`, its first line -/
def Updater.taskCleanup (s : Updater) (i : ℕ) (st : OtaStatus) : Updater :=
  s.next i { st with threadStarted := false } .cleaning

/-- `ota_task_cleanup` from then on, and `vTaskDelete` -/
def Updater.taskEnd (s : Updater) (i : ℕ) (st : OtaStatus) : Updater :=
  { s with
    status := some { st with
      writeData := false
      image := { st.image with binData := none, otaStarted := false } }
    client := none
    tasks := s.tasks.eraseIdx i }

/-- `init_config` -/
def Updater.initConfig (s : Updater) (i : ℕ) (st : OtaStatus) (memory : Bool)
    (behind : ℕ → UInt8) : Updater × List Obs :=
  let st := { st with otaType := s.parms.otaType }
  match s.parms.otaType with
  | .invalid => ({ s with configUrl := none }.taskCleanup i st, [])
  | .http =>
      if memory then
        ({ s with configUrl := s.parms.url }.next i { st with writeData := true } .configured, [])
      else ({ s with configUrl := none }.taskCleanup i { st with writeData := false }, [])
  | .buffer bin =>
      if memory then
        ({ s with configUrl := none }.next i
          { st with
            writeData := true
            image := { st.image with
              binData := (Ota.Status.ofUpload bin behind).binData
              totalImageLen := (Ota.Status.ofUpload bin behind).totalImageLen } }
          .configured, [.loads bin behind])
      else ({ s with configUrl := none }.taskCleanup i { st with writeData := false }, [])

/-- `ota_buffer_all`, up to `esp_http_client_perform` -/
def Updater.otaBufferAll (s : Updater) (i : ℕ) (st : OtaStatus) (ok : Bool) :
    Updater × List Obs :=
  match st.otaType with
  | .http =>
      -- without a URL there is no client
      match s.configUrl with
      | some url =>
          if ok then ({ s with client := some url }.next i st .downloading, [.fetches url])
          else ({ s with client := none }.taskCleanup i st, [])
      | none => ({ s with client := none }.taskCleanup i st, [])
  | _ =>
      (s.next i
        { st with image := { st.image with remainImageLen := st.image.totalImageLen } } .buffered,
        [])

/-- `ota_buffer_all` after `esp_http_client_perform` -/
def Updater.performed (s : Updater) (i : ℕ) (st : OtaStatus) (ok : Bool) : Updater :=
  if ok = false ∨ st.image.totalImageLen ≤ 0 then s.taskCleanup i st
  else
    s.next i
      { st with image := { st.image with remainImageLen := st.image.totalImageLen } } .buffered

/-- `ota_header_check`, `_erase_last_boot_app_partition`, `esp_ota_begin` -/
def Updater.prepare (s : Updater) (i : ℕ) (st : OtaStatus) (partition : Option UInt32)
    (ok : Bool) : Updater × List Obs :=
  match partition, st.image.binData with
  | some size, some _ =>
      if float size.toNat < st.image.totalImageLen ∨
          st.image.totalImageLen < imageHeaderSize ∨ ok = false then
        (s.taskCleanup i st, [])
      else (s.next i st .writing, [])
  | some size, none =>
      if float size.toNat < st.image.totalImageLen ∨
          st.image.totalImageLen < imageHeaderSize then
        (s.taskCleanup i st, [])
      else (boot, [.restarts])
  | none, _ => (boot, [.restarts])

section Progress

-- the percentage that `ota_get_pct_complete` and `ota_get_pct_downloaded` compute with `float`
variable (pct : ℤ → ℤ → UInt8)

/-- `_http_event_handler` -/
def OtaStatus.httpEventHandler (st : OtaStatus) (event : HttpEvent) : OtaStatus :=
  let image := st.image.httpEventHandler event
  match event with
  | .onConnected => { st with image := image, lastpct := 0, newpct := 0 }
  | .onData _ memory =>
      if st.image.client.status = 200 then
        if st.image.otaStarted = false ∧ memory.isNone then
          { st with image := image, newdownloadpct := 0 }
        else
          let old := if st.image.otaStarted then st.newdownloadpct else 0
          let new := pct image.downloadedImageLen image.totalImageLen
          { st with
            image := image
            newdownloadpct := if new % 5 = 0 ∧ new % 5 ≠ old then new else old }
      else { st with image := image }
  | .response .. | .other => { st with image := image }

/-- `ota_buffer_read`, `esp_ota_write` and the progress, or what follows the loop. -/
def Updater.write (s : Updater) (i : ℕ) (st : OtaStatus) (ok : Bool) : Updater × List Obs :=
  if st.image.remainImageLen ≤ 0 then
    if st.image.totalImageLen ≠ float st.image.actualImageLen ∨ ok = false then
      (s.taskCleanup i st, [])
    else (boot, [.restarts])
  else
    match st.image.binData with
    | some b =>
        if st.writeData then
          let dataRead :=
            if buffSize < st.image.remainImageLen then buffSize
            else st.image.remainImageLen.toNat
          let image := { st.image with
            actualImageLen := st.image.actualImageLen + dataRead
            remainImageLen := float (st.image.remainImageLen - dataRead) }
          let new := pct image.actualImageLen image.totalImageLen
          let newpct := if new % 5 = 0 then new else st.newpct
          let chunk := b.read st.image.actualImageLen dataRead
          if ok then
            (s.next i { st with image := image, newpct := newpct, lastpct := newpct } .writing,
              [.writes chunk])
          else (s.taskCleanup i { st with image := image }, [.writes chunk])
        else (boot, [.restarts])
    | none => (boot, [.restarts])

/-- The next call of task `i`. -/
def Updater.taskStep (s : Updater) (i : ℕ) (st : OtaStatus) : Phase → Answer → Updater × List Obs
  | .start, .config memory behind =>
      let r := s.initConfig i st memory behind
      (r.1, .starts st.counters :: r.2)
  | .configured, .call ok => s.otaBufferAll i st ok
  | .downloading, .http event =>
      (s.next i (st.httpEventHandler pct event) .downloading, [.http event])
  | .downloading, .call ok => (s.performed i st ok, [])
  | .buffered, .partition size ok => s.prepare i st size ok
  | .writing, .call ok => s.write pct i st ok
  | .cleaning, .call _ => (s.taskEnd i st, [.ended])
  | _, _ => (s, [])

/-- The device, from one call to the next. -/
def machine : Runs.Machine Updater Event Obs where
  step s
    | .request req memory copied created => s.processRecoveryOta req memory copied created
    | .task i answer =>
        match s.tasks[i]?, s.status with
        | some phase, some st => s.taskStep pct i st phase answer
        | _, _ => (s, [])

end Progress

/-! ### What independent updates look like -/

/-- What an update has of its own: its source, and what became of zeros since its start. -/
structure Update where
  source : Request
  image : Ota.Status

/-- The update that runs, if one does: a request is refused while it does, and only then; its
counters start from zero; what it takes, asks for and writes is its own. -/
def independent : Option Update → Obs → Option (Option Update)
  | none, .accepted req true => some (some ⟨req, Ota.Status.start⟩)
  | none, .accepted _ false => some none
  | some u, .refused => some (some u)
  | some u, .starts counters =>
      if counters = OtaStatus.zero.counters then some (some u) else none
  | some u, .loads bin behind =>
      if u.source = .buffer (some bin) then some (some { u with image := .ofUpload bin behind })
      else none
  | some u, .fetches url => if u.source = .url url then some (some u) else none
  | some u, .http event => some (some { u with image := u.image.httpEventHandler event })
  | some u, .writes chunk =>
      match u.image.binData with
      | some b =>
          if chunk = b.read u.image.actualImageLen chunk.length then
            some (some { u with image := { u.image with
              actualImageLen := u.image.actualImageLen + chunk.length } })
          else none
      | none => none
  | some _, .ended => some none
  | _, .restarts => some none
  | _, _ => none

/-! ### The condition -/

/-- The request finds no source of the other kind in `ota_thread_parms`, from an earlier one, that
`init_config` could take: a URL is taken first, and a buffer only where there is none. -/
def Request.Alone (req : Request) (copied : Bool) (p : Parms) : Prop :=
  match req with
  | .url binUrl => copied = true ∧ binUrl ≠ [] ∨ p.bin.all fun bin => bin.bytes.isEmpty
  | .buffer _ => p.url.all fun url => url.isEmpty

/-- A request that is let through comes while no task is cleaning up, finds no source of the other
kind, and its task can be created. -/
def Proper (s : Updater) : Event → Prop
  | .request req memory copied created =>
      s.started = false →
        .cleaning ∉ s.tasks ∧ (memory = true → created = true ∧ req.Alone copied s.parms)
  | .task .. => True

/-- `init_config` takes nothing but what was asked for. -/
def Own (p : Parms) (req : Request) : Prop :=
  match p.otaType with
  | .http => ∃ url, p.url = some url ∧ req = .url url
  | .buffer bin => req = .buffer (some bin)
  | .invalid => True

instance : ∀ req copied p, Decidable (Request.Alone req copied p)
  | .url binUrl, copied, p =>
      inferInstanceAs (Decidable
        (copied = true ∧ binUrl ≠ [] ∨ (p.bin.all fun bin => bin.bytes.isEmpty) = true))
  | .buffer _, _, p => inferInstanceAs (Decidable ((p.url.all fun url => url.isEmpty) = true))

instance : ∀ s e, Decidable (Proper s e)
  | s, .request req memory copied created =>
      inferInstanceAs (Decidable (s.started = false →
        .cleaning ∉ s.tasks ∧ (memory = true → created = true ∧ req.Alone copied s.parms)))
  | _, .task .. => .isTrue trivial

theorem otaType_of_url {p : Parms} {url : List UInt8} (h : p.url = some url) (hne : url ≠ []) :
    p.otaType = .http := by
  rw [Parms.otaType, h, if_pos]
  simpa using hne

theorem url_of_otaType {p : Parms} (h : p.otaType = .http) :
    ∃ url, p.url = some url ∧ url ≠ [] := by
  rw [Parms.otaType] at h
  split at h
  · rename_i hany
    obtain ⟨url, hurl, hne⟩ := Option.any_eq_true _ _ |>.mp hany
    exact ⟨url, hurl, by simpa using hne⟩
  · split at h
    · split at h <;> cases h
    · cases h

theorem bin_of_otaType {p : Parms} {bin : Upload} (h : p.otaType = .buffer bin) :
    p.bin = some bin ∧ bin.bytes ≠ [] := by
  rw [Parms.otaType] at h
  split at h
  · cases h
  · split at h
    · rename_i bin' hbin
      split at h
      · cases h
      · rename_i hne
        cases h
        exact ⟨hbin, by simpa using hne⟩
    · cases h

theorem Request.Alone.own {req : Request} {copied : Bool} {p : Parms} (h : req.Alone copied p) :
    Own (req.store copied p) req := by
  rw [Own]
  rcases htype : (req.store copied p).otaType with - | bin | -
  · obtain ⟨url, hurl, hne⟩ := url_of_otaType htype
    refine ⟨url, hurl, ?_⟩
    rcases req with binUrl | binBuffer
    · rcases copied with - | -
      · cases hurl
      · exact congrArg _ (Option.some.inj hurl)
    · -- a URL of an earlier request that is not empty
      have hall : p.url.all fun url => url.isEmpty := h
      rw [show p.url = some url from hurl] at hall
      exact absurd (List.isEmpty_iff.mp hall) hne
  · obtain ⟨hbin, hne⟩ := bin_of_otaType htype
    show req = .buffer (some bin)
    rcases req with binUrl | binBuffer
    · rcases h with ⟨rfl, hurl⟩ | hall
      · rw [otaType_of_url rfl hurl] at htype
        cases htype
      · rw [show p.bin = some bin from hbin] at hall
        exact absurd (List.isEmpty_iff.mp hall) hne
    · exact congrArg _ hbin
  · trivial

/-! ### The invariant -/

/-- What there is of an update, by where its task is. -/
def Has (s : Updater) (st : OtaStatus) (u : Update) : Phase → Prop
  | .start => Own s.parms u.source ∧ st.counters = OtaStatus.zero.counters ∧ st.image = u.image
  | .configured =>
      if st.otaType matches .http then
        (∀ url, s.configUrl = some url → u.source = .url url) ∧ st.image = u.image
      else
        st.image.binData = u.image.binData ∧ st.image.actualImageLen = u.image.actualImageLen
  | .downloading => st.image = u.image
  | .buffered | .writing =>
      st.image.binData = u.image.binData ∧ st.image.actualImageLen = u.image.actualImageLen
  | .cleaning => True

/-- The module, and the update that runs. -/
inductive Current : Updater → Option Update → Prop
  | idle {s} : s.tasks = [] → s.started = false → Current s none
  | running {s u} (st : OtaStatus) (phase : Phase) :
      s.tasks = [phase] → s.status = some st →
      st.threadStarted = decide (phase ≠ .cleaning) → Has s st u phase → Current s (some u)

theorem boot_current : Current boot none := .idle rfl rfl

theorem next_current {s : Updater} {st : OtaStatus} {u : Update} {p phase : Phase}
    (htasks : s.tasks = [p]) (hphase : phase ≠ .cleaning) (hst : st.threadStarted = true)
    (hhas : Has s st u phase) : Current (s.next 0 st phase) (some u) := by
  refine .running st phase ?_ rfl ?_ ?_
  · show s.tasks.set 0 phase = [phase]
    rw [htasks, List.set_cons_zero]
  · rw [hst, decide_eq_true hphase]
  · cases phase <;> exact hhas

theorem taskCleanup_current {s : Updater} {p : Phase} (htasks : s.tasks = [p]) (st : OtaStatus)
    (u : Update) : Current (s.taskCleanup 0 st) (some u) := by
  refine .running { st with threadStarted := false } .cleaning ?_ rfl rfl trivial
  show s.tasks.set 0 .cleaning = [.cleaning]
  rw [htasks, List.set_cons_zero]

/-- What one event keeps, for a log that the observer reads. -/
def Keeps (a : Option Update) (r : Updater × List Obs) : Prop :=
  ∃ a', Runs.watch independent a r.2 = some a' ∧ Current r.1 a'

theorem keeps_silent {s : Updater} {u : Update} (h : Current s (some u)) :
    Keeps (some u) (s, []) :=
  ⟨some u, rfl, h⟩

theorem keeps_restarts (u : Update) : Keeps (some u) (boot, [.restarts]) :=
  ⟨none, rfl, boot_current⟩

/-! ### A request -/

theorem processRecoveryOta_keeps {s : Updater} {a : Option Update} {req : Request}
    {memory copied created : Bool} (h : Current s a)
    (hproper : Proper s (.request req memory copied created)) :
    Keeps a (s.processRecoveryOta req memory copied created) := by
  rcases h with ⟨htasks, hstarted⟩ | ⟨st, phase, htasks, hstatus, hflag, hhas⟩
  · obtain ⟨-, hmem⟩ := hproper hstarted
    rw [Updater.processRecoveryOta, if_neg (by simp [hstarted])]
    rcases memory with - | -
    · exact ⟨none, rfl, boot_current⟩
    · obtain ⟨rfl, halone⟩ := hmem rfl
      refine ⟨some ⟨req, Ota.Status.start⟩, rfl, .running _ .start ?_ rfl rfl ?_⟩
      · show s.tasks ++ [.start] = [.start]
        rw [htasks, List.nil_append]
      · exact ⟨halone.own, rfl, rfl⟩
  · have hstarted : s.started = decide (phase ≠ .cleaning) := by
      rw [Updater.started, hstatus, Option.any_some, hflag]
    by_cases hphase : phase = .cleaning
    · -- the flag is down, but the task is not over yet
      obtain ⟨hnot, -⟩ := hproper (by rw [hstarted, hphase]; rfl)
      rw [htasks, hphase] at hnot
      exact absurd List.mem_cons_self hnot
    · rw [Updater.processRecoveryOta, if_pos (by rw [hstarted, decide_eq_true hphase])]
      exact ⟨_, rfl, .running st phase htasks hstatus hflag hhas⟩

/-! ### The calls of a task -/

section Calls
variable {s : Updater} {st : OtaStatus} {u : Update} {p : Phase}

theorem initConfig_keeps (htasks : s.tasks = [p]) (hst : st.threadStarted = true)
    (hhas : Has s st u .start) (memory : Bool) (behind : ℕ → UInt8) :
    Keeps (some u) ((s.initConfig 0 st memory behind).1,
      .starts st.counters :: (s.initConfig 0 st memory behind).2) := by
  obtain ⟨hown, hzero, himage⟩ := hhas
  have hstarts : independent (some u) (.starts st.counters) = some (some u) := if_pos hzero
  rw [Updater.initConfig]
  rcases htype : s.parms.otaType with - | bin | -
  · rw [Own, htype] at hown
    obtain ⟨url, hurl, hsource⟩ := hown
    rcases memory with - | - <;> simp only [if_true, if_false, Bool.false_eq_true]
    · exact ⟨some u, by simp [hstarts], taskCleanup_current (by exact htasks) _ u⟩
    · refine ⟨some u, by simp [hstarts], next_current (by exact htasks) (by decide) hst ?_⟩
      refine ⟨fun url' hurl' => ?_, himage⟩
      cases hurl.symm.trans hurl'
      exact hsource
  · rw [Own, htype] at hown
    have hloads : independent (some u) (.loads bin behind) =
        some (some { u with image := .ofUpload bin behind }) := if_pos hown
    rcases memory with - | - <;> simp only [if_true, if_false, Bool.false_eq_true]
    · exact ⟨some u, by simp [hstarts], taskCleanup_current (by exact htasks) _ u⟩
    · refine ⟨some { u with image := .ofUpload bin behind }, ?_,
        next_current (by exact htasks) (by decide) hst ⟨rfl, ?_⟩⟩
      · simp only [Runs.watch_cons, Runs.watch_nil, hstarts, hloads, Option.bind_some]
      · exact congrArg Counters.actualImageLen hzero
  · exact ⟨some u, by simp [hstarts], taskCleanup_current (by exact htasks) _ u⟩

theorem otaBufferAll_keeps (htasks : s.tasks = [p]) (hst : st.threadStarted = true)
    (hhas : Has s st u .configured) (ok : Bool) : Keeps (some u) (s.otaBufferAll 0 st ok) := by
  rw [Updater.otaBufferAll]
  rcases htype : st.otaType with - | bin | -
  · rw [Has, htype] at hhas
    obtain ⟨hsource, himage⟩ := hhas
    rcases hurl : s.configUrl with - | url
    · exact keeps_silent (taskCleanup_current (by exact htasks) st u)
    · rcases ok with - | -
      · exact keeps_silent (taskCleanup_current (by exact htasks) st u)
      · refine ⟨some u, ?_, next_current htasks (by decide) hst himage⟩
        simp [independent, hsource url hurl]
  all_goals
    rw [Has, htype] at hhas
    exact keeps_silent (next_current htasks (by decide) hst hhas)

theorem performed_keeps (htasks : s.tasks = [p]) (hst : st.threadStarted = true)
    (hhas : Has s st u .downloading) (ok : Bool) : Keeps (some u) (s.performed 0 st ok, []) := by
  have himage : st.image = u.image := hhas
  rw [Updater.performed]
  split
  · exact keeps_silent (taskCleanup_current htasks st u)
  · refine keeps_silent (next_current htasks (by decide) hst ?_)
    have hbin : st.image.binData = u.image.binData := by rw [himage]
    have hactual : st.image.actualImageLen = u.image.actualImageLen := by rw [himage]
    exact ⟨hbin, hactual⟩

theorem prepare_keeps (htasks : s.tasks = [p]) (hst : st.threadStarted = true)
    (hhas : Has s st u .buffered) (size : Option UInt32) (ok : Bool) :
    Keeps (some u) (s.prepare 0 st size ok) := by
  rcases size with - | size
  · show Keeps (some u) (boot, [.restarts])
    exact keeps_restarts u
  · rw [Updater.prepare.eq_def]
    rcases hbin : st.image.binData with - | b <;> dsimp only <;> split
    · exact keeps_silent (taskCleanup_current htasks st u)
    · exact keeps_restarts u
    · exact keeps_silent (taskCleanup_current htasks st u)
    · exact keeps_silent (next_current htasks (by decide) hst hhas)

variable (pct : ℤ → ℤ → UInt8)

theorem httpEventHandler_image (st : OtaStatus) (event : HttpEvent) :
    (st.httpEventHandler pct event).image = st.image.httpEventHandler event ∧
      (st.httpEventHandler pct event).threadStarted = st.threadStarted := by
  cases event with
  | onData data memory =>
      rw [OtaStatus.httpEventHandler]
      split
      · split <;> exact ⟨rfl, rfl⟩
      · exact ⟨rfl, rfl⟩
  | _ => exact ⟨rfl, rfl⟩

theorem write_keeps (htasks : s.tasks = [p]) (hst : st.threadStarted = true)
    (hhas : Has s st u .writing) (ok : Bool) : Keeps (some u) (s.write pct 0 st ok) := by
  obtain ⟨hbin, hactual⟩ := hhas
  rw [Updater.write]
  split
  · split
    · exact keeps_silent (taskCleanup_current htasks st u)
    · exact keeps_restarts u
  rcases hb : st.image.binData with - | b
  · exact keeps_restarts u
  rcases st.writeData with - | -
  · exact keeps_restarts u
  -- the chunk is the next part of the update's own buffer
  generalize (if buffSize < st.image.remainImageLen then buffSize
    else st.image.remainImageLen.toNat) = dataRead
  have hwrites : independent (some u) (.writes (b.read st.image.actualImageLen dataRead)) =
      some (some { u with image := { u.image with
        actualImageLen := u.image.actualImageLen + dataRead } }) := by
    have hlen : (b.read st.image.actualImageLen dataRead).length = dataRead := by
      simp [Buffer.read]
    rw [independent, ← hbin, hb]
    simp only [hlen, ← hactual, if_true]
  have hwatch : Runs.watch independent (some u)
      [.writes (b.read st.image.actualImageLen dataRead)] = _ :=
    congrArg (Option.bind · _) hwrites
  rcases ok with - | - <;> simp only [if_true, if_false, Bool.false_eq_true]
  · exact ⟨_, hwatch, taskCleanup_current htasks _ _⟩
  · refine ⟨_, hwatch, next_current htasks (by decide) hst ⟨?_, ?_⟩⟩
    · exact hbin
    · exact congrArg (· + dataRead) hactual

theorem taskStep_keeps {phase : Phase} (htasks : s.tasks = [phase]) (hstatus : s.status = some st)
    (hflag : st.threadStarted = decide (phase ≠ .cleaning)) (hhas : Has s st u phase)
    (answer : Answer) : Keeps (some u) (s.taskStep pct 0 st phase answer) := by
  have hsame : Keeps (some u) (s, []) :=
    keeps_silent (.running st phase htasks hstatus hflag hhas)
  cases phase with
  | start =>
      cases answer with
      | config memory behind => exact initConfig_keeps htasks hflag hhas memory behind
      | _ => exact hsame
  | configured =>
      cases answer with
      | call ok => exact otaBufferAll_keeps htasks hflag hhas ok
      | _ => exact hsame
  | downloading =>
      cases answer with
      | call ok => exact performed_keeps htasks hflag hhas ok
      | http event =>
          obtain ⟨himage, hstarted⟩ := httpEventHandler_image pct st event
          refine ⟨_, rfl, next_current htasks (by decide) (hstarted.trans hflag) ?_⟩
          show _ = u.image.httpEventHandler event
          rw [himage, show st.image = u.image from hhas]
      | _ => exact hsame
  | buffered =>
      cases answer with
      | partition size ok => exact prepare_keeps htasks hflag hhas size ok
      | _ => exact hsame
  | writing =>
      cases answer with
      | call ok => exact write_keeps pct htasks hflag hhas ok
      | _ => exact hsame
  | cleaning =>
      cases answer with
      | call ok =>
          refine ⟨none, rfl, .idle ?_ ?_⟩
          · show s.tasks.eraseIdx 0 = []
            rw [htasks]
            rfl
          · exact hflag
      | _ => exact hsame

end Calls

theorem step_keeps (pct : ℤ → ℤ → UInt8) {s : Updater} {a : Option Update} {e : Event}
    (h : Current s a) (hproper : Proper s e) : Keeps a ((machine pct).step s e) := by
  rcases e with ⟨req, memory, copied, created⟩ | ⟨i, answer⟩
  · exact processRecoveryOta_keeps h hproper
  · rcases htask : s.tasks[i]? with - | phase
    · have hnone : (machine pct).step s (.task i answer) = (s, []) := by
        simp only [machine, htask]
      rw [hnone]
      exact ⟨a, rfl, h⟩
    · rcases h with ⟨htasks, -⟩ | ⟨st, phase', htasks, hstatus, hflag, hhas⟩
      · rw [htasks] at htask
        cases htask
      · obtain ⟨rfl, rfl⟩ : i = 0 ∧ phase' = phase := by
          rw [htasks, List.getElem?_singleton] at htask
          simpa using htask
        have hstep : (machine pct).step s (.task 0 answer) = s.taskStep pct 0 st phase' answer := by
          simp only [machine, htask, hstatus]
        rw [hstep]
        exact taskStep_keeps pct htasks hstatus hflag hhas answer

/-! ### All requests -/

/-- Updates are independent in every run whose requests are proper. -/
theorem updates_independent (pct : ℤ → ℤ → UInt8) (es : List Event)
    (h : (machine pct).Along Proper boot es) :
    ∃ a, Runs.watch independent none ((machine pct).run boot es).2 = some a ∧
      Current ((machine pct).run boot es).1 a :=
  (machine pct).run_watched (fun _ _ _ hcurrent hproper => step_keeps pct hcurrent hproper)
    boot_current h

/-- A download that cannot connect, and a file that is uploaded once the task is over. -/
def uploadAfterUrl : List Event :=
  [.request (.url [104]) true true true, .task 0 (.config true fun _ => 0), .task 0 (.call false),
    .task 0 (.call true), .request (.buffer (some ⟨[1], by decide⟩)) true true true,
    .task 0 (.config true fun _ => 0), .task 0 (.call true)]

/-- A request whose task is not created, and the same request again. -/
def retryWithoutTask : List Event :=
  [.request (.url [104]) true true false, .request (.url [104]) true true true]

/-- A request that comes while the task of the one before is cleaning up. -/
def requestWhileCleaning : List Event :=
  [.request (.url [104]) true true true, .task 0 (.config true fun _ => 0), .task 0 (.call false),
    .request (.url [104]) true true true]

/-- Updates depend on each other: an upload asks for the URL of the request before it, the flag of
a task that was not created refuses every request, and a request is let through while a task
is still there. -/
theorem updates_depend :
    Runs.watch independent none ((machine fun _ _ => 0).run boot uploadAfterUrl).2 = none ∧
      Runs.watch independent none ((machine fun _ _ => 0).run boot retryWithoutTask).2 = none ∧
      Runs.watch independent none
        ((machine fun _ _ => 0).run boot requestWhileCleaning).2 = none := by
  decide

/-- Two uploads, of which the first is too small. -/
def uploads : List Event :=
  [.request (.buffer (some ⟨[1], by decide⟩)) true true true, .task 0 (.config true fun _ => 0),
    .task 0 (.call true), .request (.buffer (some ⟨[3], by decide⟩)) false false false,
    .task 0 (.partition (some 4096) true), .task 0 (.call true),
    .request (.buffer (some ⟨[2], by decide⟩)) true true true, .task 0 (.config true fun _ => 0)]

theorem updates_independent_uploads :
    ∃ a, Runs.watch independent none ((machine fun _ _ => 0).run boot uploads).2 = some a ∧
      Current ((machine fun _ _ => 0).run boot uploads).1 a :=
  updates_independent (fun _ _ => 0) uploads (by decide)

end OtaRequests

end SqueezeliteMuse
