/-
SqueezeliteMuse/Ota.lean

The firmware update of squeezelite-ota.c, from the task's parameters to
`esp_ota_set_boot_partition`.

An image comes as an uploaded buffer, or over HTTP.  The HTTP client is a
machine of its own as far as the handler asks it (status, content length,
whether the response is chunked); it also remembers the bytes it delivered of
the response it is at, which no code reads.  The image lengths that the code
keeps as `float` are integers, rounded to 24 binary digits where a value is
stored.

A buffer is memory from its first byte on, together with what lies behind its
end, and `recvPtr` is the place in it where the next bytes go.  A `memcpy` to a
place outside sets `outside`.
-/
import SqueezeliteMuse.Lib.Runs
import SqueezeliteMuse.Lib.Significand
import Mathlib.Data.Int.Notation

namespace SqueezeliteMuse

namespace Ota

/-! ### Numbers -/

/-- The value of an integer as a `float`. -/
def float (z : ℤ) : ℤ := z.sign * Significand.round 24 z.natAbs

/-- `BUFFSIZE` -/
def buffSize : ℕ := 4096

/-- `IMAGE_HEADER_SIZE`: `esp_image_header_t`, `esp_image_segment_header_t`,
`esp_app_desc_t`, and one. -/
def imageHeaderSize : ℕ := 24 + 8 + 256 + 1

/-! ### Data -/

/-- A buffer of the heap, and `recv_ptr` in it. -/
structure Buffer where
  size : ℕ
  mem : ℕ → UInt8
  recvPtr : ℕ

/-- What the HTTP client knows of the response it is at, and what it delivered of it. -/
structure Client where
  status : ℤ
  contentLength : Int32
  chunked : Bool
  body : List UInt8

/-- `ota_status_t` as far as the image goes; `outside` is set by a write outside `bin_data`. -/
structure Status where
  actualImageLen : ℕ
  downloadedImageLen : ℤ
  totalImageLen : ℤ
  remainImageLen : ℤ
  otaStarted : Bool
  binData : Option Buffer
  client : Client
  outside : Bool

/-- The events of the client.  Where the handler allocates `bin_data`, `memory`
is what `malloc` gives. -/
inductive HttpEvent
  | onConnected
  | response (status : ℤ) (contentLength : Int32) (chunked : Bool)
  | onData (data : List UInt8) (memory : Option (ℕ → UInt8))
  /-- `HTTP_EVENT_ERROR`, `_HEADER_SENT`, `_ON_FINISH`, `_DISCONNECTED` -/
  | other

/-! ### The event handler -/

/-- `memcpy(recv_ptr, evt->data, evt->data_len)` and the lengths. -/
def Status.copy (s : Status) (data : List UInt8) : Status :=
  match s.binData with
  | some b =>
      { s with
        binData := some { b with
          mem := fun i =>
            if b.recvPtr ≤ i ∧ i < b.recvPtr + data.length then data.getD (i - b.recvPtr) 0
            else b.mem i
          recvPtr := b.recvPtr + data.length }
        downloadedImageLen := float (s.downloadedImageLen + data.length)
        outside := s.outside || decide (b.size < b.recvPtr + data.length ∧ data ≠ []) }
  | none =>
      -- `recv_ptr` is NULL, or points to a buffer of an earlier update
      { s with
        downloadedImageLen := float (s.downloadedImageLen + data.length)
        outside := s.outside || decide (data ≠ []) }

/-- `handle_http_on_data`; a negative size is taken for 0. -/
def Status.handleHttpOnData (s : Status) (data : List UInt8) (memory : Option (ℕ → UInt8)) :
    Status :=
  if s.client.status = 200 then
    let copy (s : Status) := if s.client.chunked then s else s.copy data
    if s.otaStarted then copy s
    else
      let s := { s with
        otaStarted := true
        totalImageLen := float s.client.contentLength.toInt
        downloadedImageLen := 0 }
      match memory with
      | none => { s with binData := none }
      | some mem =>
          copy { s with binData := some ⟨(float s.client.contentLength.toInt).toNat, mem, 0⟩ }
  else s

/-- `_http_event_handler`, and what the client does before it calls it. -/
def Status.httpEventHandler (s : Status) : HttpEvent → Status
  | .onConnected => { s with totalImageLen := 0, actualImageLen := 0, remainImageLen := 0 }
  | .response status contentLength chunked =>
      { s with client := ⟨status, contentLength, chunked, []⟩ }
  | .onData data memory =>
      { s with client.body := s.client.body ++ data }.handleHttpOnData data memory
  | .other => s

/-- `ota_status` as it is allocated, and a client that has not asked for anything. -/
def Status.start : Status where
  actualImageLen := 0
  downloadedImageLen := 0
  totalImageLen := 0
  remainImageLen := 0
  otaStarted := false
  binData := none
  client := ⟨0, 0, false, []⟩
  outside := false

/-- `esp_http_client_perform`: the handler at one event after the other. -/
def perform : Runs.Machine Status HttpEvent Unit := ⟨fun s e => (s.httpEventHandler e, [])⟩

/-! ### The task -/

/-- A buffer that was uploaded; its length is a `uint32_t`. -/
structure Upload where
  bytes : List UInt8
  fits : bytes.length < 2 ^ 32

/-- `ota_thread_parms_t` -/
structure Parms where
  url : Option (List UInt8)
  bin : Option Upload

/-- `ota_type_t`, with the buffer -/
inductive OtaType
  | http
  | buffer (bin : Upload)
  | invalid

/-- `init_config`: the type of an update. -/
def Parms.otaType (p : Parms) : OtaType :=
  if p.url.any fun url => !url.isEmpty then .http
  else
    match p.bin with
    | some bin => if bin.bytes.isEmpty then .invalid else .buffer bin
    | none => .invalid

/-- What the environment decides: whether there is memory for `ota_write_data`, the
client can be set up, `esp_http_client_perform` returns `ESP_OK`, the size of the
partition if there is one, what lies behind an uploaded buffer, and which calls succeed. -/
structure Env where
  writeData : Bool
  clientInit : Bool
  performed : Bool
  partition : Option UInt32
  behind : ℕ → UInt8
  erase : Bool
  otaBegin : Bool
  otaWrite : ℕ → Bool
  otaEnd : Bool

/-- What is seen of an update: the bytes passed to `esp_ota_write`, whether
`esp_ota_set_boot_partition` is reached, whether there was a write outside `bin_data`. -/
structure Outcome where
  written : List UInt8
  boot : Bool
  outside : Bool

/-- The bytes from `i` on. -/
def Buffer.read (b : Buffer) (i n : ℕ) : List UInt8 := (List.range n).map fun j => b.mem (i + j)

/-- The loop of `ota_task` with `ota_buffer_read`: what is written, and `actual_image_len`
where the loop ends by itself. -/
def writeLoop (otaWrite : ℕ → Bool) (b : Buffer) :
    ℕ → ℕ → ℕ → ℤ → List UInt8 × Option ℕ
  | 0, _, _, _ => ([], none)
  | fuel + 1, i, actual, remain =>
      if remain ≤ 0 then ([], some actual)
      else
        let dataRead := if buffSize < remain then buffSize else remain.toNat
        let rest := writeLoop otaWrite b fuel (i + 1) (actual + dataRead)
          (float (remain - dataRead))
        if otaWrite i then (b.read actual dataRead ++ rest.1, rest.2)
        else (b.read actual dataRead, none)

/-- `ota_task` from `ota_header_check` on; a NULL pointer ends it. -/
def install (env : Env) (s : Status) : Outcome :=
  match env.partition, s.binData with
  | some size, some b =>
      if float size.toNat < s.totalImageLen ∨ s.totalImageLen < imageHeaderSize then
        ⟨[], false, s.outside⟩
      else if env.erase && env.otaBegin then
        let r := writeLoop env.otaWrite b (s.totalImageLen.toNat + 1) 0 s.actualImageLen
          s.totalImageLen
        match r.2 with
        | some actual =>
            if s.totalImageLen ≠ float actual then ⟨r.1, false, s.outside⟩
            else ⟨r.1, env.otaEnd, s.outside⟩
        | none => ⟨r.1, false, s.outside⟩
      else ⟨[], false, s.outside⟩
  | _, _ => ⟨[], false, s.outside⟩

/-- `init_config` of an uploaded buffer -/
def Status.ofUpload (bin : Upload) (behind : ℕ → UInt8) : Status :=
  { Status.start with
    totalImageLen := float bin.bytes.length
    binData := some ⟨bin.bytes.length, fun i => (bin.bytes[i]?).getD (behind i), 0⟩ }

/-- `ota_task` -/
def otaTask (env : Env) (parms : Parms) (events : List HttpEvent) : Outcome :=
  match parms.otaType with
  | .invalid => ⟨[], false, false⟩
  | .http =>
      if env.writeData && env.clientInit then
        let s := (perform.run Status.start events).1
        if env.performed = false ∨ s.totalImageLen ≤ 0 then ⟨[], false, s.outside⟩
        else install env s
      else ⟨[], false, false⟩
  | .buffer bin =>
      if env.writeData then install env (Status.ofUpload bin env.behind)
      else ⟨[], false, false⟩

end Ota

end SqueezeliteMuse
