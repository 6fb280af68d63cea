/-
SqueezeliteMuse/Player.lean

The handlers of slimproto.c: what a packet from the server does to the player.

A handler gets the receive buffer and the length of the packet, casts the
buffer to the struct of the packet, and reads; here it reads the cells of a
byte memory at the offsets of the fields.  `Player` has what the handlers read
and write, together with the answers they get from the rest of the system
(clock, resolver, jack).  Replies, and calls of functions in other modules, are
a list of `Call`s with their arguments: what such a function does beyond that is
decided by the arguments and by the player.  Logging is left out.

Two-byte and four-byte fields are numbers; what the source keeps in an `int` is
an integer.  A field that the source leaves in network order is read lowest
byte first, as the chip does.
-/
import SqueezeliteMuse.Lib.Octets
import SqueezeliteMuse.Output
import SqueezeliteMuse.Stream

namespace SqueezeliteMuse

open Octets

/-! ### Data -/

/-- `PLAYER_NAME_LEN` -/
def PLAYER_NAME_LEN : ℕ := 64

/-- The addresses a string can run through. -/
def ADDRESSES : ℕ := 2 ^ 32

/-- `SYNC_CAP`: ",SyncgroupID=" -/
def SYNC_CAP : List UInt8 :=
  [0x2c, 0x53, 0x79, 0x6e, 0x63, 0x67, 0x72, 0x6f, 0x75, 0x70, 0x49, 0x44, 0x3d]

/-- `LOCAL_PLAYER_IP`: 127.0.0.1 -/
def LOCAL_PLAYER_IP : ℕ := 0x0100007f

/-- `LOCAL_PLAYER_PORT`: 3483 -/
def LOCAL_PLAYER_PORT : ℕ := 0x9b0d

/-- `status`, as far as `sendSTAT` reads it. -/
structure Status where
  updated : ℕ
  streamStart : ℕ
  streamFull : ℕ
  streamSize : ℕ
  streamBytes : ℕ
  outputFull : ℕ
  outputSize : ℕ
  framesPlayed : ℕ
  deviceFrames : ℕ
  currentSampleRate : ℕ

/-- `output`, as far as the handlers touch it; `pauseFrames` is the union of
`pause_frames`, `skip_frames` and `start_at`. -/
structure Playback where
  state : OutputState
  external : Bool
  stopTime : ℕ
  idleTo : ℕ
  pauseFrames : ℕ
  threshold : ℕ
  nextReplayGain : ℕ
  fadeMode : ℤ
  fadeSecs : ℕ
  invert : Bool
  channels : ℕ

/-- A block of memory of the player, and what stands before and behind it. -/
abbrev Ram := ℤ → UInt8

/-- The display: its size, which the displayer cuts to `SB_HEIGHT` lines. -/
structure Screen where
  width : ℕ
  height : ℕ
  gdsHeight : ℕ
  width_pos : 0 < width
  width_lt : width < 2 ^ 31
  height_pos : 0 < height
  height_eq : height = min gdsHeight 32

/-- `scroller`; `scrollBy` is its `by`. -/
structure Scroller where
  screen : UInt8
  pause : ℕ
  mode : ℕ
  scrollBy : ℤ
  active : Bool
  first : Bool
  overflow : Bool
  scrolled : ℤ
  speed : ℤ
  scrollFrame : Ram
  scrollWidth : ℕ
  scrollMax : ℕ
  scrollSize : ℕ
  backFrame : Ram
  backWidth : ℕ
  frame : Ram
  width : ℕ

/-- `artwork` -/
structure Artwork where
  data : Ram
  size : ℕ
  x : ℕ
  y : ℕ
  enable : Bool
  full : Bool

/-- `visu`; `spectrumScale` is in hundredths. -/
structure Visu where
  barGap : ℤ
  barWidth : ℤ
  barBorder : ℤ
  rotate : Bool
  limit : ℕ → ℤ
  barMax : ℕ → ℤ
  spectrumScale : ℕ
  n : ℤ
  col : ℤ
  row : ℤ
  height : ℤ
  width : ℤ
  border : ℤ
  style : ℤ
  max : ℤ
  mode : UInt8
  backFrame : Ram
  backWidth : ℤ
  backActive : Bool

/-- What the handlers read and write. -/
structure Player where
  autostart : ℤ
  sentSTMu : Bool
  sentSTMo : Bool
  sentSTMl : Bool
  newServer : ℕ
  newServerCap : Option (List UInt8)
  playerId : ℕ
  playerName : List UInt8
  nameFile : Bool
  slimprotoIp : ℕ
  status : Status
  output : Playback
  /-- `stream.state`, `meta_interval`, `meta_next`, and whether the socket is open -/
  stream : StreamState
  metaInterval : ℕ
  metaNext : ℕ
  connected : Bool
  screen : Screen
  owned : Bool
  dirty : Bool
  wake : ℤ
  scroller : Scroller
  artwork : Artwork
  visu : Visu
  jackMutesAmp : Bool
  equalizerGain : List ℤ
  equalizerUpdate : Bool
  /-- `gettime_ms()` -/
  now : ℕ
  /-- `get_RSSI()` -/
  rssi : ℕ
  /-- `get_battery()` and `get_plugged()` -/
  voltage : ℕ
  /-- the address of `SQUEEZENETWORK`, if it is resolved -/
  squeezenetwork : Option ℕ
  /-- `jack_inserted_svc()` -/
  jackInserted : Bool
  /-- `((DISPLAY_BW - min) * visu.spectrum_scale) / n`, computed in floating point -/
  spread : ℕ → ℤ → ℤ → ℤ

/-- The events of a STAT reply. -/
inductive StatEvent
  | STMt | STMf | STMp | STMr | STMc
  deriving DecidableEq, Repr

/-- `struct STAT_packet`, as far as it is filled in. -/
structure StatPacket where
  event : StatEvent
  streamBufferFullness : ℕ
  streamBufferSize : ℕ
  bytesReceived : ℕ
  signalStrength : ℕ
  voltage : ℕ
  jiffies : ℕ
  outputBufferSize : ℕ
  outputBufferFullness : ℕ
  elapsedSeconds : ℕ
  elapsedMilliseconds : ℕ
  serverTimestamp : ℕ
  deriving DecidableEq

/-- What a handler sends, and what it calls. -/
inductive Call
  | sendSTAT (pkt : StatPacket)
  | sendSETDName (name : List UInt8)
  | sendANIC (code : ℕ)
  | decodeFlush
  | outputFlush
  | streamFlush
  | codecOpen (format size rate channels endianness : UInt8)
  | streamFile (header : List UInt8) (threshold : ℕ)
  | streamSock (ip port : ℕ) (header : List UInt8) (threshold : ℕ) (contWait : Bool)
  | decodeRestore
  | bufLimit
  | wakeController
  | setVolume (left right : ℕ)
  | setName (name : List UInt8)
  | storeName (name : List UInt8)
  | textLines (line1 line2 : List UInt8)
  | clear
  | clearExt (x1 y1 x2 y2 : ℤ)
  | clearWindow (x y : ℕ)
  | drawBitmap (data : List UInt8) (width : ℤ)
  | drawJPEG (data : List UInt8) (x y : ℕ) (right : Bool)
  | update
  | displayOff
  | displayOn
  /-- `GDS_SetContrast`, with `255 * powf(brightness / 5.0f, 3)` -/
  | setContrast (brightness : ℤ)
  | taskResume
  | saveJack (mutes : Bool)
  /-- `adac->speaker`, and with it the GPIO of the amplifier -/
  | speaker (on : Bool)
  | saveEqualizer (gain : List ℤ)
  /-- a division by zero, or a loop over fewer than no bars: nothing is defined from here on -/
  | fault
  deriving DecidableEq

/-- What a handler leaves: the player, and what it sent and called. -/
abbrev Effect := Player × List Call

/-! ### Reading -/

/-- An `unsigned` value. -/
def u32 (z : ℤ) : ℕ := (z % 2 ^ 32).toNat

/-- A four-byte value, as an `int`. -/
def int32 (n : ℕ) : ℤ := if n < 2 ^ 31 then n else n - 2 ^ 32

/-- A two-byte value, as an `s16_t`. -/
def int16 (n : ℕ) : ℤ := if n < 2 ^ 15 then n else n - 2 ^ 16

/-- The `n` bytes from `pkt + off`. -/
def bytesAt (pkt : ℕ → UInt8) (off n : ℕ) : List UInt8 := (List.range n).map fun i => pkt (off + i)

/-- A string, at most `n` characters of it. -/
def cstr (pkt : ℕ → UInt8) : ℕ → ℕ → List UInt8
  | 0, _ => []
  | n + 1, off => if pkt off = 0 then [] else pkt off :: cstr pkt n (off + 1)

namespace Player

/-! ### Replies -/

/-- `ms_played` in `sendSTAT` -/
def msPlayed (p : Player) : ℕ :=
  let s := p.status
  if s.currentSampleRate ≠ 0 ∧ s.framesPlayed ≠ 0 ∧ s.deviceFrames < s.framesPlayed then
    ((s.framesPlayed - s.deviceFrames) * 1000 / s.currentSampleRate + (p.now - s.updated)) % 2 ^ 32
  else if s.framesPlayed ≠ 0 then p.now - s.streamStart
  else 0

/-- `sendSTAT` -/
def sendSTAT (p : Player) (event : StatEvent) (serverTimestamp : ℕ) : Call :=
  .sendSTAT {
    event := event
    streamBufferFullness := p.status.streamFull
    streamBufferSize := p.status.streamSize
    bytesReceived := p.status.streamBytes
    signalStrength := p.rssi
    voltage := p.voltage
    jiffies := p.now
    outputBufferSize := p.status.outputSize
    outputBufferFullness := p.status.outputFull
    elapsedSeconds := p.msPlayed / 1000
    elapsedMilliseconds := p.msPlayed
    serverTimestamp := serverTimestamp }

/-! ### strm -/

/-- `interval * status.current_sample_rate / 1000` -/
def frames (p : Player) (interval : ℕ) : ℕ := interval * p.status.currentSampleRate % 2 ^ 32 / 1000

/-- strm 'f' and 'q' -/
def strmFlush (p : Player) (flush : Bool) : Effect :=
  let p' := { p with
    status.framesPlayed := 0
    stream := .stopped
    connected := false
    output.stopTime := p.now }
  (p', [.decodeFlush] ++ (if p.output.external then [] else [.outputFlush]) ++
    (if p.connected && flush then [p'.sendSTAT .STMf 0] else []) ++ [.streamFlush])

/-- strm 'p' -/
def strmPause (p : Player) (interval : ℕ) : Effect :=
  if interval ≠ 0 then
    ({ p with output.pauseFrames := p.frames interval, output.state := .pauseFrames }, [])
  else
    let p' := { p with output.pauseFrames := p.frames interval }
    (if p.output.state ≠ .off then
        { p' with output.state := .stopped, output.stopTime := p.now }
      else p', [p.sendSTAT .STMp 0])

/-- strm 'a' -/
def strmSkip (p : Player) (interval : ℕ) : Effect :=
  ({ p with output.pauseFrames := p.frames interval, output.state := .skipFrames }, [])

/-- strm 'u' -/
def strmUnpause (p : Player) (jiffies : ℕ) : Effect :=
  ({ p with
    output.state := if jiffies ≠ 0 then .startAt else .running
    output.pauseFrames := jiffies }, [p.sendSTAT .STMr 0])

/-- strm 's', from `stream_file` or `stream_sock` on. -/
def strmOpen (p : Player) (pkt : ℕ → UInt8) (headerLen : ℕ) (opened : List Call) : Effect :=
  let ip := if le pkt 24 4 = 0 then p.slimprotoIp else le pkt 24 4
  let port := le pkt 22 2
  let threshold := (pkt 11).toNat * 1024
  let header := bytesAt pkt 28 headerLen
  let file := ip = LOCAL_PLAYER_IP ∧ port = LOCAL_PLAYER_PORT
  let flags := (pkt 15).toNat
  ({ p with
      autostart := if file then p.autostart - 2 else p.autostart
      sentSTMu := false
      sentSTMo := false
      sentSTMl := false
      output.external := false
      output.threshold := (pkt 16).toNat
      output.nextReplayGain := be pkt 18 4
      output.fadeMode := (pkt 14).toNat - 0x30
      output.fadeSecs := (pkt 13).toNat
      output.invert := flags &&& 0x03 = 0x03
      output.channels := (flags &&& 0x0c) >>> 2 },
    opened ++
      [if file then .streamFile header threshold
        else .streamSock ip port header threshold (2 ≤ p.autostart),
      p.sendSTAT .STMc 0] ++
      (if p.output.external then [.decodeRestore] else []) ++ [.bufLimit])

/-- strm 's' -/
def strmStart (p : Player) (pkt : ℕ → UInt8) (len : ℕ) : Effect :=
  let headerLen := u32 (len - 28)
  let p' := { p with autostart := (pkt 5).toNat - 0x30 }
  if MAX_HEADER - 1 < headerLen then (p', [p.sendSTAT .STMf 0])
  else if pkt 6 ≠ 0x3f then
    p'.strmOpen pkt headerLen
      [p.sendSTAT .STMf 0, .codecOpen (pkt 6) (pkt 7) (pkt 8) (pkt 9) (pkt 10)]
  else if 2 ≤ p'.autostart then p'.strmOpen pkt headerLen [p.sendSTAT .STMf 0]
  else (p', [p.sendSTAT .STMf 0])

/-- `process_strm` -/
def processStrm (p : Player) (pkt : ℕ → UInt8) (len : ℕ) : Effect :=
  match (pkt 4).toNat with
  | 0x74 => (p, [p.sendSTAT .STMt (le pkt 18 4)])
  | 0x66 => p.strmFlush true
  | 0x71 => p.strmFlush false
  | 0x70 => p.strmPause (be pkt 18 4)
  | 0x61 => p.strmSkip (be pkt 18 4)
  | 0x75 => p.strmUnpause (be pkt 18 4)
  | 0x73 => p.strmStart pkt len
  | _ => (p, [])

/-! ### The other handlers of slimproto.c -/

/-- `process_cont` -/
def processCont (p : Player) (pkt : ℕ → UInt8) (_len : ℕ) : Effect :=
  let metaint := be pkt 4 4
  if 1 < p.autostart then
    (if p.stream = .streamingWait then
        { p with
          autostart := p.autostart - 2
          stream := .streamingBuffering
          metaInterval := metaint
          metaNext := metaint }
      else { p with autostart := p.autostart - 2 }, [.wakeController])
  else (p, [])

/-- `process_codc` -/
def processCodc (p : Player) (pkt : ℕ → UInt8) (_len : ℕ) : Effect :=
  (p, [.codecOpen (pkt 4) (pkt 5) (pkt 6) (pkt 7) (pkt 8)])

/-- `process_aude` -/
def processAude (p : Player) (pkt : ℕ → UInt8) (_len : ℕ) : Effect :=
  if pkt 4 = 0 then ({ p with output.state := .off }, [])
  else if p.output.state = .off ∧ p.output.idleTo = 0 then
    ({ p with output.state := .stopped, output.stopTime := p.now }, [])
  else (p, [])

/-- `process_audg` -/
def processAudg (p : Player) (pkt : ℕ → UInt8) (_len : ℕ) : Effect :=
  (p, [if pkt 12 ≠ 0 then .setVolume (be pkt 14 4) (be pkt 18 4)
    else .setVolume FIXED_ONE.toNat FIXED_ONE.toNat])

/-- `process_dsco` -/
def processDsco (p : Player) (_pkt : ℕ → UInt8) (_len : ℕ) : Effect :=
  ({ p with playerId := 12 }, [])

/-- `process_setd` -/
def processSetd (p : Player) (pkt : ℕ → UInt8) (len : ℕ) : Effect :=
  if pkt 4 = 0 then
    if len = 5 then (p, if p.playerName ≠ [] then [.sendSETDName p.playerName] else [])
    else if 5 < len then
      let data := cstr pkt ADDRESSES 5
      let name := data.take PLAYER_NAME_LEN
      ({ p with playerName := name },
        [.sendSETDName data, .setName name] ++ (if p.nameFile then [.storeName name] else []))
    else (p, [])
  else (p, [])

/-- `process_serv` -/
def processServ (p : Player) (pkt : ℕ → UInt8) (len : ℕ) : Effect :=
  ({ p with
    newServer :=
      if pkt 4 = 0 ∧ pkt 5 = 0 ∧ pkt 6 = 0 ∧ pkt 7 = 1 then p.squeezenetwork.getD p.newServer
      else le pkt 4 4
    newServerCap := if u32 (len - 8) = 10 then some (SYNC_CAP ++ cstr pkt 10 8) else none }, [])

end Player

end SqueezeliteMuse
