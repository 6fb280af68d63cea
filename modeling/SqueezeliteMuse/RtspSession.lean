/-
SqueezeliteMuse/RtspSession.lean

The AirPlay control connection of raop.c: what is started, stopped, closed and
notified over successive connections.

One thread takes one connection after the other and handles its requests.
ANNOUNCE starts the search for the remote and leaves keys and format in the
context, SETUP starts the RTP session with them, and `cleanup_rtsp` stops what
the context has.  LMS may force a disconnection at any time.  The answers of
the command handler, the outcome of `rtp_init` and the failures of the sockets
are parameters of the events.

An observer of the log knows what is running and what is owed.  It refuses a
second session, search or connection, an end of what is not there, a session
that does not have the media of its ANNOUNCE, a set-up that is not ended before
the next one or before its connection, and one that is ended twice.

Main result: `session_lifecycle`: it accepts the log of every run whose events
are orderly.  In other runs the context forgets what it had
(`repeated_announce_forgets`), or a socket is closed twice.
-/
import SqueezeliteMuse.Lib.Runs

namespace SqueezeliteMuse

namespace Rtsp

/-! ### Data -/

/-- `ctx->rtsp`: the keys and the format, as the body of an ANNOUNCE has them. -/
structure Media where
  aeskey : Option (List UInt8)
  aesiv : Option (List UInt8)
  fmtp : Option (List UInt8)
  deriving DecidableEq

/-- Nothing was announced. -/
def Media.none : Media := ⟨Option.none, Option.none, Option.none⟩

/-- What becomes of `rtp_init`: no memory; an end before it returns, where the codec or a
socket fails; or a session, and whether none of the ports is 0. -/
inductive RtpInit
  | noMemory
  | failed
  | started (ports : Bool)
  deriving DecidableEq

/-- The requests, with what the command handler answers. -/
inductive Request
  | announce (media : Media)
  /-- SETUP with a Transport -/
  | setup (accepted : Bool) (init : RtpInit)
  | record (accepted : Bool)
  /-- `useful` is what `rtp_flush` returns. -/
  | flush (useful accepted : Bool)
  | teardown (accepted : Bool)
  /-- SET_PARAMETER with a volume, a progress or metadata -/
  | setParameter (accepted : Bool)
  /-- OPTIONS, a SETUP without Transport, artwork, and what is not handled -/
  | other

/-- What is seen of the receiver.  Connections, sessions and searches have numbers. -/
inductive Obs
  | accepted (sock : ℕ)
  | closed (sock : ℕ)
  | announced (media : Media)
  | tornDown
  | searchStarted (task : ℕ)
  | searchStopped (task : ℕ)
  | rtpStarted (rtp : ℕ) (media : Media)
  | rtpEnded (rtp : ℕ)
  /-- RAOP_SETUP is accepted. -/
  | setUp
  /-- RAOP_STOP is accepted, or a disconnection is forced. -/
  | notified
  deriving DecidableEq

/-- `raop_ctx_t`.  `search` is the task while `active_remote.running`, and `port` whether the
remote's is known; `controls` is whether the sink has the controls (`actrls_set`).  No code
reads `setUp`, whether a set-up was accepted on this connection, nor the next number. -/
structure Raop where
  sock : Option ℕ
  abort : Bool
  rtsp : Media
  rtp : Option ℕ
  search : Option ℕ
  port : Bool
  controls : Bool
  setUp : Bool
  next : ℕ

/-! ### The code -/

/-- `cleanup_rtsp` -/
def Raop.cleanup (c : Raop) : Raop × List Obs :=
  ({ c with
      rtp := none
      search := none
      port := if c.search.isSome then false else c.port
      rtsp := .none },
    (c.rtp.map .rtpEnded).toList ++ (c.search.map .searchStopped).toList)

/-- The end of a connection: clean up and close. -/
def Raop.hangUp (c : Raop) (sock : ℕ) : Raop × List Obs :=
  ({ c.cleanup.1 with sock := none, setUp := false }, c.cleanup.2 ++ [.closed sock])

/-- `strsep` leaves of a string what is before its first blank. -/
def strsep (s : List UInt8) : List UInt8 := s.takeWhile fun b => b ≠ 0x20 ∧ b ≠ 0x09

/-- `rtp_init` for the context -/
def Raop.rtpInit (c : Raop) : RtpInit → Raop × List Obs
  | .noMemory => ({ c with rtp := none }, [])
  | .failed =>
      ({ c with rtp := none, rtsp.fmtp := c.rtsp.fmtp.map strsep, next := c.next + 1 },
        [.rtpStarted c.next c.rtsp, .rtpEnded c.next])
  | .started _ =>
      ({ c with rtp := some c.next, rtsp.fmtp := c.rtsp.fmtp.map strsep, next := c.next + 1 },
        [.rtpStarted c.next c.rtsp])

/-- `handle_rtsp` for each method, up to the answer: whether it is 200. -/
def Raop.handle (c : Raop) : Request → Raop × List Obs × Bool
  | .announce media =>
      ({ c with rtsp := media, search := some c.next, next := c.next + 1 },
        [.announced media, .searchStarted c.next], true)
  | .setup accepted init =>
      let told : List Obs := if accepted then [.setUp] else []
      let c := { c with controls := c.controls || accepted, setUp := c.setUp || accepted }
      -- the session is started whatever the handler answered
      let r := c.rtpInit init
      (r.1, told ++ r.2, accepted && decide (init = .started true))
  | .record accepted => (c, [], accepted)
  | .flush useful accepted => (c, [], if c.rtp.isSome && useful then accepted else true)
  | .teardown accepted =>
      let r := c.cleanup
      ({ r.1 with controls := c.controls && !accepted },
        r.2 ++ .tornDown :: (if accepted then [.notified] else []), accepted)
  | .setParameter accepted => (c, [], accepted)
  | .other => (c, [], true)

/-- What happens to the thread and around it. -/
inductive Event
  | accept
  | request (r : Request)
  /-- `select` fails, or what comes is no request. -/
  | lost
  | timeout
  /-- `raop_disconnect` -/
  | disconnect
  /-- The search finds the remote. -/
  | found

/-- One turn of `rtsp_thread`, or a step of another task. -/
def Raop.step (c : Raop) : Event → Raop × List Obs
  | .accept =>
      match c.sock with
      | none =>
          ({ c with sock := some c.next, abort := false, next := c.next + 1 }, [.accepted c.next])
      | some _ => (c, [])
  | .request r =>
      match c.sock with
      | none => (c, [])
      | some sock =>
          let h := c.handle r
          -- the socket of a request that fails is closed here, and not forgotten
          let log := h.2.1 ++ if h.2.2 then [] else [.closed sock]
          if h.1.abort then ((h.1.hangUp sock).1, log ++ (h.1.hangUp sock).2) else (h.1, log)
  | .lost =>
      match c.sock with
      | none => (c, [])
      | some sock => c.hangUp sock
  | .timeout =>
      match c.sock with
      | none => (c, [])
      | some sock => if c.abort then c.hangUp sock else (c, [])
  | .disconnect =>
      -- `raop_cmd` returns whether there is a remote to tell
      ({ c with abort := c.abort || !c.port, controls := false }, [.notified])
  | .found => ({ c with port := c.port || c.search.isSome }, [])

/-- The receiver. -/
def receiver : Runs.Machine Raop Event Obs := ⟨Raop.step⟩

/-- `raop_create` -/
def start : Raop := ⟨none, false, .none, none, none, false, false, false, 0⟩

/-! ### The contract -/

/-- How far the set-up of a connection is. -/
inductive Phase
  | idle
  | owed
  | ended
  deriving DecidableEq

/-- What is running, what was announced, and how far the set-up is. -/
structure Watch where
  sock : Option ℕ
  session : Option ℕ
  search : Option ℕ
  media : Media
  phase : Phase
  deriving DecidableEq

/-- At most one of each, each stopped once; the media of a session are those that were announced
since the connection or the last TEARDOWN; a set-up is ended once, before the next and
before its connection. -/
def Watch.next (w : Watch) : Obs → Option Watch
  | .accepted sock => if w.sock = none then some { w with sock := some sock } else none
  | .closed sock =>
      if w.sock = some sock ∧ w.session = none ∧ w.search = none ∧ w.phase ≠ .owed then
        some { w with sock := none, media := .none, phase := .idle }
      else none
  | .announced media => some { w with media := media }
  | .tornDown => some { w with media := .none }
  | .searchStarted task => if w.search = none then some { w with search := some task } else none
  | .searchStopped task => if w.search = some task then some { w with search := none } else none
  | .rtpStarted rtp media =>
      if w.session = none ∧ media = w.media then some { w with session := some rtp } else none
  | .rtpEnded rtp => if w.session = some rtp then some { w with session := none } else none
  | .setUp => if w.phase ≠ .owed then some { w with phase := .owed } else none
  | .notified =>
      match w.phase with
      | .idle => some w
      | .owed => some { w with phase := .ended }
      | .ended => none

/-- Before the first connection. -/
def Watch.start : Watch := ⟨none, none, none, .none, .idle⟩

/-! ### Orderly events -/

/-- A request that comes upon no slip: no second ANNOUNCE or SETUP while what the first
started is there, no SETUP after an abort is ordered, and none that fails, no TEARDOWN after
the set-up was ended, and no request that the handler refuses. -/
def Raop.Orderly (c : Raop) : Request → Prop
  | .announce _ => c.search = none
  | .setup accepted init =>
      accepted = true ∧ init = .started true ∧ c.rtp = none ∧ c.controls = false ∧ c.abort = false
  | .record accepted | .setParameter accepted => accepted = true
  | .flush useful accepted => c.rtp.isSome → useful = true → accepted = true
  | .teardown accepted => accepted = true ∧ (c.controls = true ∨ c.setUp = false)
  | .other => True

/-- An event that comes upon no slip: a connection is lost only after the set-up was ended,
and a set-up is not ended by force after that. -/
def OrderlyEvent (c : Raop) : Event → Prop
  | .request r => c.sock ≠ none → c.Orderly r
  | .lost => c.controls = false
  | .disconnect => c.controls = true ∨ c.setUp = false
  | .accept | .timeout | .found => True

/-! ### What the observer sees -/

/-- The observer knows the state of the receiver. -/
structure Sees (c : Raop) (w : Watch) : Prop where
  sock : w.sock = c.sock
  session : w.session = c.rtp
  search : w.search = c.search
  media : c.rtp = none → w.media = c.rtsp
  phase : w.phase = if c.controls then .owed else if c.setUp then .ended else .idle
  lent : c.controls = true → c.setUp = true
  calm : c.abort = true → c.controls = false

variable {c : Raop} {w : Watch}

theorem Sees.phase_ne (h : Sees c w) (hc : c.controls = false) : w.phase ≠ .owed := by
  rw [h.phase, hc]
  cases c.setUp <;> decide

/-- While a set-up is not ended on a connection that had one, it is owed. -/
theorem Sees.owed_or_idle (h : Sees c w) (hphase : c.controls = true ∨ c.setUp = false) :
    w.phase = .owed ∧ c.setUp = true ∨ w.phase = .idle ∧ c.setUp = false := by
  rw [h.phase]
  rcases hcontrols : c.controls with - | -
  · have hset : c.setUp = false := hphase.resolve_left (by simp [hcontrols])
    simp [hset]
  · simp [h.lent hcontrols]

/-- Cleaning up ends what is running. -/
theorem watch_cleanup (h : Sees c w) :
    Runs.watch Watch.next w c.cleanup.2 = some { w with session := none, search := none } := by
  obtain ⟨sock, session, search, media, phase⟩ := w
  have hs : session = c.rtp := h.session
  have ht : search = c.search := h.search
  subst hs ht
  rcases hr : c.rtp with - | rtp
  · rcases ht : c.search with - | task
    · simp [Raop.cleanup, hr, ht]
    · simp [Raop.cleanup, hr, ht, Watch.next]
  · rcases ht : c.search with - | task
    · simp [Raop.cleanup, hr, ht, Watch.next]
    · simp [Raop.cleanup, hr, ht, Watch.next]

/-- A connection whose set-up was ended can end. -/
theorem watch_hangUp {sock : ℕ} (h : Sees c w) (hsock : c.sock = some sock)
    (hc : c.controls = false) :
    ∃ w', Runs.watch Watch.next w (c.hangUp sock).2 = some w' ∧ Sees (c.hangUp sock).1 w' := by
  refine ⟨{ w with sock := none, session := none, search := none, media := .none, phase := .idle },
    ?_, rfl, rfl, rfl, fun _ => rfl, ?_, ?_, ?_⟩
  · have hclose : w.sock = some sock ∧ w.phase ≠ .owed := ⟨h.sock.trans hsock, h.phase_ne hc⟩
    simp [Raop.hangUp, Runs.watch_append, watch_cleanup h, Watch.next, hclose]
  · simp [Raop.hangUp, Raop.cleanup, hc]
  · exact fun hcontrols => absurd (hcontrols.symm.trans hc) (by simp)
  · exact fun _ => hc

/-- An orderly request is answered with 200, and the observer sees what it does. -/
theorem watch_handle {r : Request} (h : Sees c w) (ho : c.Orderly r) :
    (c.handle r).2.2 = true ∧ (c.handle r).1.sock = c.sock ∧
      ∃ w', Runs.watch Watch.next w (c.handle r).2.1 = some w' ∧ Sees (c.handle r).1 w' := by
  cases r with
  | announce media =>
      have hsearch : w.search = none := h.search.trans ho
      refine ⟨rfl, rfl, { w with media := media, search := some c.next }, ?_, ?_⟩
      · simp [Raop.handle, Watch.next, hsearch]
      · exact ⟨h.sock, h.session, rfl, fun _ => rfl, h.phase, h.lent, h.calm⟩
  | setup accepted init =>
      obtain ⟨rfl, rfl, hrtp, hcontrols, habort⟩ := ho
      refine ⟨rfl, rfl, { w with session := some c.next, phase := .owed }, ?_, ?_⟩
      · have hsession : w.session = none := h.session.trans hrtp
        have hmedia : w.media = c.rtsp := h.media hrtp
        simp [Raop.handle, Raop.rtpInit, Watch.next, h.phase_ne hcontrols, hsession, hmedia]
      · refine ⟨h.sock, rfl, h.search,
          fun hnone => absurd hnone (by simp [Raop.handle, Raop.rtpInit]), ?_, ?_, ?_⟩
        · simp [Raop.handle, Raop.rtpInit]
        · simp [Raop.handle, Raop.rtpInit]
        · exact fun ha => absurd (ha.symm.trans habort) (by simp)
  | record accepted => exact ⟨ho, rfl, w, rfl, h⟩
  | flush useful accepted =>
      refine ⟨?_, rfl, w, rfl, h⟩
      rw [Raop.handle]
      split
      · rename_i hflush
        obtain ⟨hrtp, huseful⟩ := Bool.and_eq_true_iff.mp hflush
        exact ho hrtp huseful
      · rfl
  | teardown accepted =>
      obtain ⟨rfl, hphase⟩ := ho
      refine ⟨rfl, rfl, { w with
        session := none, search := none, media := .none
        phase := if c.setUp then .ended else .idle }, ?_, ?_⟩
      · rcases h.owed_or_idle hphase with ⟨hw, hset⟩ | ⟨hw, hset⟩
        · simp [Raop.handle, Runs.watch_append, watch_cleanup h, Watch.next, hw, hset]
        · simp [Raop.handle, Runs.watch_append, watch_cleanup h, Watch.next, hw, hset]
      · refine ⟨h.sock, rfl, rfl, fun _ => rfl, ?_, ?_, fun _ => ?_⟩
        · simp [Raop.handle, Raop.cleanup]
        · simp [Raop.handle]
        · simp [Raop.handle]
  | setParameter accepted => exact ⟨ho, rfl, w, rfl, h⟩
  | other => exact ⟨rfl, rfl, w, rfl, h⟩

/-- The observer accepts an orderly event. -/
theorem watch_step (e : Event) (h : Sees c w) (ho : OrderlyEvent c e) :
    ∃ w', Runs.watch Watch.next w (c.step e).2 = some w' ∧ Sees (c.step e).1 w' := by
  cases e with
  | accept =>
      rcases hsock : c.sock with - | sock
      · refine ⟨{ w with sock := some c.next }, ?_, ?_⟩
        · simp [Raop.step, hsock, Watch.next, h.sock]
        · simp only [Raop.step, hsock]
          exact ⟨rfl, h.session, h.search, h.media, h.phase, h.lent, fun ha => by cases ha⟩
      · exact ⟨w, by simp [Raop.step, hsock], by simpa [Raop.step, hsock] using h⟩
  | request r =>
      rcases hsock : c.sock with - | sock
      · exact ⟨w, by simp [Raop.step, hsock], by simpa [Raop.step, hsock] using h⟩
      obtain ⟨hok, hsame, w₁, hw₁, h₁⟩ := watch_handle h (ho (by simp [hsock]))
      simp only [Raop.step, hsock, hok, if_true, List.append_nil]
      split
      · -- the abort that was ordered takes effect
        rename_i habort
        obtain ⟨w₂, hw₂, h₂⟩ := watch_hangUp h₁ (hsame.trans hsock) (h₁.calm habort)
        exact ⟨w₂, by rw [Runs.watch_append, hw₁, Option.bind_some, hw₂], h₂⟩
      · exact ⟨w₁, hw₁, h₁⟩
  | lost =>
      rcases hsock : c.sock with - | sock
      · exact ⟨w, by simp [Raop.step, hsock], by simpa [Raop.step, hsock] using h⟩
      · simp only [Raop.step, hsock]
        exact watch_hangUp h hsock ho
  | timeout =>
      rcases hsock : c.sock with - | sock
      · exact ⟨w, by simp [Raop.step, hsock], by simpa [Raop.step, hsock] using h⟩
      simp only [Raop.step, hsock]
      split
      · rename_i habort
        exact watch_hangUp h hsock (h.calm habort)
      · exact ⟨w, rfl, h⟩
  | disconnect =>
      refine ⟨{ w with phase := if c.setUp then .ended else .idle }, ?_, ?_⟩
      · have hw := h.owed_or_idle ho
        obtain ⟨sock, session, search, media, phase⟩ := w
        rcases hw with ⟨hw, hset⟩ | ⟨hw, hset⟩
        · simp only at hw
          simp [Raop.step, Watch.next, hw, hset]
        · simp only at hw
          simp [Raop.step, Watch.next, hw, hset]
      · exact ⟨h.sock, h.session, h.search, h.media, rfl, by simp [Raop.step], fun _ => rfl⟩
  | found => exact ⟨w, rfl, h.sock, h.session, h.search, h.media, h.phase, h.lent, h.calm⟩

end Rtsp

end SqueezeliteMuse
