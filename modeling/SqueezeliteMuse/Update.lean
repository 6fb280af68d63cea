/-
SqueezeliteMuse/Update.lean

The update pass of `slimproto_run`, and the threads that it reports on.

Every 100 ms, or when it is woken, the controller looks at the stream, the decoder and the
output, each under its own mutex, starts and stops them, and then sends the server what it
has found.  The four sections of a pass are four events, so that the threads can get
between them; what it has found so far is in its local variables (`Pass`).  A packet of
the server is one event: it is processed between two passes, and what the threads do
meanwhile could as well be done before.

The stream thread and the output are those of `Stream` and `Output`.  A call of
`codec->decode()` is what it takes out of `streambuf` and puts into `outputbuf`, as long as it
returns `DECODE_RUNNING`.  No external source is playing.

What can be seen is what the controller sends, with `autostart`, `decode.state` and what is in
`outputbuf` when it is sent, and what it reports on.
-/
import SqueezeliteMuse.Codecs

namespace SqueezeliteMuse

/-! ### The state -/

/-- The local variables of an update pass. -/
structure Pass where
  streamState : StreamState
  sendDSCO : Option DisconnectCode
  decodeState : DecodeState
  startOutput : Bool
  streamDisconnect : Bool
  sendSTMs : Bool
  sendSTMd : Bool
  sendSTMt : Bool
  sendSTMl : Bool
  sendSTMu : Bool
  sendSTMo : Bool
  sendSTMn : Bool

/-- Where the controller is: between two passes, or behind a section of one. -/
inductive Controller
  | idle
  | stream (l : Pass)
  | decode (l : Pass)
  | output (l : Pass)

/-- The player.  `started`, `delivered` and `endedOk` are what has become of the stream that strm
's' has opened: whether the decoder was started, whether a byte has come, and whether it has
ended normally.  Nothing in the source reads these. -/
structure Slim where
  stream : Streamer
  output : Output
  codec : Option UInt8
  sentSTMu : Bool
  sentSTMo : Bool
  sentSTMl : Bool
  pass : Controller
  started : Bool
  delivered : Bool
  endedOk : Bool

/-- What an update pass sends with STAT. -/
inductive UpdateStat
  | STMs | STMd | STMt | STMl | STMu | STMo | STMn
  deriving DecidableEq, Repr

/-- What can be seen of the player. -/
inductive SlimObs
  /-- strm 's' has been processed: a stream is asked for, and nothing has been sent of it -/
  | opened
  /-- strm 'q' or 'f' -/
  | ordered
  /-- the decoder is started -/
  | started
  /-- a decoder run has ended by itself, complete or with an error -/
  | decodeEnded (ok : Bool)
  /-- the stream has ended, or could not be had -/
  | streamEnded
  /-- DSCO -/
  | dsco (code : DisconnectCode)
  /-- STAT, with `autostart`, `decode.state` and the bytes in `outputbuf` -/
  | stat (event : UpdateStat) (autostart : ℤ) (decode : DecodeState) (outputFull : ℕ)
  /-- a pass is over -/
  | passed
  deriving DecidableEq, Repr

/-- What a program is built with: the codecs that are registered, and `to_gain`. -/
structure SlimSetup where
  known : UInt8 → Bool
  toGain : ℕ → ℕ → ℤ

/-! ### Packets -/

/-- What strm 's' asks for, and what becomes of it. -/
inductive Target
  /-- `stream_sock`, with what is going to come -/
  | connected (wire : List UInt8)
  | unreachable
  /-- `stream_sock`, when there is no socket -/
  | noSocket
  /-- `stream_file`, with what can be read, if it can be opened -/
  | file (file : Option (List UInt8))

/-- strm 's' -/
structure StrmStart where
  autostart : ℤ
  header : List UInt8
  format : UInt8
  pcmSampleSize : UInt8
  pcmChannels : UInt8
  threshold : ℕ
  target : Target
  outputThreshold : ℕ
  replayGain : ℤ
  fadeMode : FadeMode
  fadeSecs : ℕ
  invert : Bool
  channels : ℕ

/-- `sample_size * channels` in `pcm_open` -/
def pcmFrame (size channels : UInt8) : ℕ :=
  (((size.toNat : ℤ) - 48 + 1) * ((channels.toNat : ℤ) - 48) % 2 ^ 32).toNat

/-- `streambuf` when a codec is opened: pcm adjusts it, when it is closed and when it is opened. -/
def codecBuffer (codec : Option UInt8) (format size channels : UInt8) (b : Buffer) : Buffer :=
  let b := if codec = some 112 ∧ format ≠ 112 then bufAdjust b 1 else b
  if format = 112 then bufAdjust b (pcmFrame size channels) else b

/-- The stream of strm 's'. -/
def Streamer.opened (s : Streamer) (a : StrmStart) : Streamer :=
  match a.target with
  | .connected wire => s.sock a.header (a.threshold * 1024) s.autostart wire
  | .unreachable => s.sockUnreachable s.autostart
  | .noSocket => s
  | .file file => s.file a.header (a.threshold * 1024) s.autostart file

/-- The stream of strm 's' could not be had. -/
def Target.failed : Target → Bool
  | .unreachable | .file none => true
  | _ => false

/-- strm 's' is not processed: the header is too long, or an unknown codec requires
`autostart >= 2`. -/
def StrmStart.refused (a : StrmStart) : Bool :=
  a.header.length > MAX_HEADER - 1 || (a.format = 0x3f && a.autostart < 2)

/-- A stream has ended between two states of it: it is closed, or at its end. -/
def Streamer.ends (s s' : Streamer) : Bool := (s.fd && !s'.fd) || (!s.state.toend && s'.state.toend)

namespace Slim

/-- `codec_open` -/
def codecOpen (known : UInt8 → Bool) (format size channels : UInt8) (s : Slim) : Slim :=
  if known format then
    { s with
      codec := some format
      stream := { s.stream with
        streambuf := codecBuffer s.codec format size channels s.stream.streambuf }
      output := s.output.control .codecOpen }
  else { s with output := { s.output with newStream := true, decodeState := .stopped } }

/-- strm 's', as far as the codec. -/
def strmCodec (known : UInt8 → Bool) (a : StrmStart) (s : Slim) : Slim :=
  let s := { s with stream := { s.stream with autostart := a.autostart } }
  if a.format ≠ 0x3f then s.codecOpen known a.format a.pcmSampleSize a.pcmChannels else s

/-- strm 's' -/
def strmStart (known : UInt8 → Bool) (a : StrmStart) (s : Slim) : Slim × List SlimObs :=
  if a.refused then ({ s with stream := { s.stream with autostart := a.autostart } }, [])
  else
    let s := s.strmCodec known a
    ({ s with
        stream := s.stream.opened a
        output := s.output.control (.start a.outputThreshold a.replayGain a.fadeMode a.fadeSecs
          a.invert a.channels)
        sentSTMu := false
        sentSTMo := false
        sentSTMl := false
        started := false
        delivered := false
        endedOk := false },
      if a.target.failed then [.opened, .streamEnded] else [.opened])

/-- strm 'q' and 'f': `decode_flush`, `output_flush`, `stream_disconnect` and `buf_flush`. -/
def strmStop (s : Slim) : Slim × List SlimObs :=
  ({ s with
      output := (s.output.control .decodeFlush).flushBuffer.1.flushOutput
      stream := { s.stream.close with streambuf := bufFlush s.stream.streambuf }
      started := false
      delivered := false
      endedOk := false },
    [.ordered])

/-! ### The threads -/

/-- A section of the stream thread, which leaves `stream`. -/
def threaded (s : Slim) (stream : Streamer) : Slim × List SlimObs :=
  ({ s with
      stream := stream
      delivered := s.delivered || s.stream.bytes < stream.bytes
      endedOk := s.endedOk ||
        (s.stream.ends stream && stream.state = .disconnect && stream.disconnect = .ok) },
    if s.stream.ends stream then [.streamEnded] else [])

/-- A call of `codec->decode()` that returns `DECODE_RUNNING`. -/
def decode (s : Slim) (n : ℕ) (bs : List UInt8) : Slim :=
  if s.output.decodeState = .running then
    { s with stream := (s.stream.drain n).1, output := s.output.decoded bs }
  else s

/-- A call of `codec->decode()` that returns `DECODE_COMPLETE`, or `DECODE_ERROR`. -/
def decodeDone (s : Slim) (ok : Bool) : Slim × List SlimObs :=
  ({ s with output := s.output.decodeDone ok },
    if s.output.decodeState = .running then [.decodeEnded ok] else [])

/-! ### The update pass -/

/-- The section under the mutex of `streambuf`. -/
def passStream (s : Slim) : Slim :=
  { s with
    stream := s.stream.update.1
    pass := .stream
      { streamState := s.stream.state
        sendDSCO := if s.stream.state = .disconnect then some s.stream.disconnect else none
        decodeState := .stopped
        startOutput := false
        streamDisconnect := false
        sendSTMs := false
        sendSTMd := false
        sendSTMt := false
        sendSTMl := false
        sendSTMu := false
        sendSTMo := false
        sendSTMn := false } }

/-- The decoder may be started. -/
def startDue (s : Slim) (l : Pass) : Bool :=
  (l.streamState = .streamingHttp || l.streamState = .streamingFile ||
      (l.streamState = .disconnect && s.stream.disconnect = .ok)) &&
    !s.sentSTMl && s.output.decodeState = .ready

/-- The decoder is started; autostart 2 and 3 require cont to be received first. -/
def starts (s : Slim) (l : Pass) : Bool :=
  s.startDue l && (s.stream.autostart = 0 || s.stream.autostart = 1)

/-- The section under `decode.mutex`. -/
def passDecode (s : Slim) (l : Pass) : Slim × List SlimObs :=
  let ended := s.output.decodeState = .complete || s.output.decodeState = .error
  ({ s with
      output := s.output.updateDecode (s.starts l)
      sentSTMl := s.sentSTMl || (s.startDue l && s.stream.autostart = 0)
      started := s.started || s.starts l
      pass := .decode
        { l with
          decodeState := (s.output.updateDecode (s.starts l)).decodeState
          startOutput := s.startDue l && s.stream.autostart = 1
          sendSTMl := s.startDue l && s.stream.autostart = 0
          sendSTMd := s.output.decodeState = .complete
          sendSTMn := s.output.decodeState = .error
          streamDisconnect :=
            ended && (l.streamState = .streamingHttp || l.streamState = .streamingFile) } },
    if s.starts l then [.started] else [])

/-- `output.state`, once the output is started. -/
def startedOutput (s : Slim) (l : Pass) : OutputState :=
  if l.startOutput ∧ (s.output.state = .stopped ∨ s.output.state = .off) then .buffer
  else s.output.state

/-- The output has run out, and nothing is to come. -/
def underrun (s : Slim) (l : Pass) : Bool :=
  s.startedOutput l = .running && !s.sentSTMu && bufUsed s.output.outputbuf = 0 &&
    l.streamState.toend && l.decodeState = .stopped

/-- The output has run out, and there is more to come. -/
def outOfData (s : Slim) (l : Pass) : Bool :=
  s.startedOutput l = .running && !s.underrun l && !s.sentSTMo &&
    bufUsed s.output.outputbuf = 0 && l.streamState = .streamingHttp

/-- The section under the mutex of `outputbuf`; `timeout` is whether the output has been idle for
too long, `tick` whether the last STMt was sent more than a second ago. -/
def passOutput (s : Slim) (l : Pass) (timeout tick : Bool) : Slim :=
  { s with
    output := s.output.updateOutput l.startOutput (s.underrun l) timeout
    sentSTMu := s.sentSTMu || s.underrun l
    sentSTMo := s.sentSTMo || s.outOfData l
    pass := .output
      { l with
        sendSTMs := s.output.trackStarted
        sendSTMu := s.underrun l
        sendSTMo := s.outOfData l
        sendSTMt := tick &&
          (s.output.updateOutput l.startOutput (s.underrun l) timeout).state = .running } }

/-- A STAT packet, if it is due. -/
def stat (s : Slim) (due : Bool) (event : UpdateStat) : List SlimObs :=
  if due then [.stat event s.stream.autostart s.output.decodeState (bufUsed s.output.outputbuf)]
  else []

/-- The end of a pass: `stream_disconnect`, and the packets, in the order of the source. -/
def passEnd (s : Slim) (l : Pass) : Slim × List SlimObs :=
  ({ s with
      stream := if l.streamDisconnect then s.stream.close else s.stream
      pass := .idle },
    (if l.streamDisconnect && !s.stream.state.toend then [.streamEnded] else []) ++
      (l.sendDSCO.toList.map .dsco ++ s.stat l.sendSTMs .STMs ++ s.stat l.sendSTMd .STMd ++
        s.stat l.sendSTMt .STMt ++ s.stat l.sendSTMl .STMl ++ s.stat l.sendSTMu .STMu ++
        s.stat l.sendSTMo .STMo ++ s.stat l.sendSTMn .STMn ++ [.passed]))

end Slim

/-! ### Runs -/

/-- The packets strm 'p', 'a' and 'u', aude and audg, for the output. -/
inductive Play
  | pause (interval frames : ℕ)
  | skip (frames : ℕ)
  | unpause (jiffies : ℕ)
  | enable (on idle : Bool)
  | volume (gainL gainR : ℤ)

/-- The section of the controller. -/
def Play.control : Play → Control
  | .pause interval frames => .pause interval frames
  | .skip frames => .skip frames
  | .unpause jiffies => .unpause jiffies
  | .enable on idle => .enable on idle
  | .volume gainL gainR => .volume gainL gainR

/-- What happens to the player: a packet, a section of a thread, or a section of a pass. -/
inductive SlimEvent
  | strmStart (a : StrmStart)
  | strmStop
  | cont (metaint : ℕ)
  | codc (format size channels : UInt8)
  | play (p : Play)
  | streamTop (file : Incoming)
  | streamPoll (p : Streamer.Poll)
  | pollTimeout
  | publish (rate : ℕ) (first second : Option Block)
  | decode (n : ℕ) (bs : List UInt8)
  | decodeDone (ok : Bool)
  | frames (avail now : ℕ) (answers : ℕ → ℤ)
  | passStream
  | passDecode
  | passOutput (timeout tick : Bool)
  | passEnd

/-- A packet, between two passes. -/
def Slim.packet (x : SlimSetup) (s : Slim) : SlimEvent → Slim × List SlimObs
  | .strmStart a => s.strmStart x.known a
  | .strmStop => s.strmStop
  | .cont metaint => ({ s with stream := (s.stream.processCont metaint).1 }, [])
  | .codc format size channels => (s.codecOpen x.known format size channels, [])
  | .play p => ({ s with output := s.output.control p.control }, [])
  | _ => (s, [])

/-- One event. -/
def slimStep (x : SlimSetup) (s : Slim) (e : SlimEvent) : Slim × List SlimObs :=
  match e, s.pass with
  | .streamTop file, _ =>
      if s.stream.polling = none then s.threaded (s.stream.top file).1 else (s, [])
  | .streamPoll p, _ => s.threaded (s.stream.afterPoll p).1
  | .pollTimeout, _ => ({ s with stream := { s.stream with polling := none } }, [])
  | .publish rate first second, _ => ({ s with output := (s.output.publish rate first second).1 }, [])
  | .decode n bs, _ => (s.decode n bs, [])
  | .decodeDone ok, _ => s.decodeDone ok
  | .frames avail now answers, _ =>
      ({ s with output := (s.output.outputFrames x.toGain avail now answers).1 }, [])
  | .passStream, .idle => (s.passStream, [])
  | .passDecode, .stream l => s.passDecode l
  | .passOutput timeout tick, .decode l => (s.passOutput l timeout tick, [])
  | .passEnd, .output l => s.passEnd l
  | e, .idle => s.packet x e
  | _, _ => (s, [])

/-- The player. -/
def slimMachine (x : SlimSetup) : Runs.Machine Slim SlimEvent SlimObs where
  step := slimStep x

/-- The player as it begins: the stream and the output are initialised, nothing has been opened. -/
def slimInit (stream : Streamer) (output : Output) : Slim where
  stream := stream
  output := output
  codec := none
  sentSTMu := false
  sentSTMo := false
  sentSTMl := false
  pass := .idle
  started := false
  delivered := false
  endedOk := false

end SqueezeliteMuse
