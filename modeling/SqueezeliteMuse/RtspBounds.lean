/-
SqueezeliteMuse/RtspBounds.lean

What `http_parse` and `handle_rtsp` access of their arrays and of the body.

An access is a region, where in it, and how many places.  `line` and `resp` are large
enough for everything, and `latency` is filled by `snprintf`.  No test is made for the
other arrays: a first word of 16 characters, a sixteenth header, a challenge that
decodes to more than 32 bytes or to none at all, a DACP-ID or an Active-Remote of 32
characters, and a thirteenth number of an fmtp line are written behind the end, or
before the beginning.  The body is written at its length, though there may be no block
for it, and ANNOUNCE searches it though there may be none.

A null pointer that is read ends the program, and nothing more is accessed.  The
memory, what is around the block of the body, the table of `dmap_parse` and the
outcome of `rtp_init` are parameters.

Main result: `run_inside`: in every run in which each message fits, everything is
inside.  `fits_of_inside` is the other direction for a message, but for the metadata.
-/
import SqueezeliteMuse.Lib.Runs
import SqueezeliteMuse.Base64
import SqueezeliteMuse.DmapParser
import SqueezeliteMuse.RtspMessage
import SqueezeliteMuse.RtspSession

namespace SqueezeliteMuse

namespace RtspBounds

open CString Message

/-! ### Accesses -/

/-- What is accessed. -/
inductive Region
  | line
  | method
  | headers
  | data
  | resp
  | latency
  | dacpId
  | remoteId
  | fmtp
  /-- The block of the body, of so many bytes: none where `malloc` had no memory, or without a
  body. -/
  | body (size : ℕ)
  deriving DecidableEq

/-- How many places it has. -/
def Region.places : Region → ℕ
  | .line => maxlen
  | .method => 16
  | .headers => 16
  | .data => 32
  | .resp => 8
  | .latency => 6
  | .dacpId => 32
  | .remoteId => 32
  | .fmtp => 12
  | .body size => size

/-- An access to `count` places, from `first` on. -/
structure Touch where
  region : Region
  first : ℤ
  count : ℕ
  deriving DecidableEq

/-- It is inside of the region. -/
def Touch.Inside (t : Touch) : Prop :=
  t.count = 0 ∨ 0 ≤ t.first ∧ t.first + t.count ≤ t.region.places

instance (t : Touch) : Decidable t.Inside := instDecidableOr

/-- All of them are. -/
def AllInside (ts : List Touch) : Prop := ∀ t ∈ ts, t.Inside

instance (ts : List Touch) : Decidable (AllInside ts) := List.decidableBAll _ _

/-- What a part of the code accesses, and whether it reads a null pointer at its end. -/
structure Access where
  touched : List Touch
  stops : Bool

/-- What comes after, unless the program has ended. -/
def Access.andThen (a b : Access) : Access :=
  if a.stops then a else ⟨a.touched ++ b.touched, b.stops⟩

/-- Accesses after which it goes on. -/
def through (ts : List Touch) : Access := ⟨ts, false⟩

/-! ### `http_parse` -/

/-- The loop over the headers, as `headerLoop` has it. -/
def headerTouched : ℕ → List KeyData → ℤ → List Rx → List Touch
  | 0, _, _, _ => []
  | fuel + 1, rkd, len, fd =>
      let r := readLine fd
      ⟨.line, 0, r.line.length + 1⟩ ::
        if 0 < r.count then
          -- `rkd[i].key` is looked at
          ⟨.headers, rkd.length, if rkd.length ≠ 0 then 1 else 0⟩ ::
            match headerLine rkd len (CString.cstr r.line) with
            | none => []
            | some (rkd', len') =>
                ⟨.headers, rkd.length, 1⟩ :: ⟨.headers, rkd.length + 1, 1⟩ ::
                  headerTouched fuel rkd' len' r.rest
        else []

/-- The body of `len` bytes: what is received, and the NUL. -/
def bodyTouched (malloc : ℕ → Option ℕ) (len : ℤ) (fd : List Rx) : List Touch :=
  if len = 0 then []
  else
    match malloc (bodySize len) with
    | none => [⟨.body 0, len, 1⟩]
    | some _ =>
        [⟨.body (bodySize len), 0, (recvBody len.toNat fd).1.length⟩,
          ⟨.body (bodySize len), len, 1⟩]

/-- `http_parse` -/
def httpTouched (malloc : ℕ → Option ℕ) (sock : List Rx) : List Touch :=
  let first := readLine sock
  ⟨.headers, 0, 1⟩ :: ⟨.line, 0, first.line.length + 1⟩ ::
    if first.count ≤ 0 then []
    else
      let word := token (CString.cstr first.line)
      let h := Message.headerLoop (first.rest.length + 1) [] 0 first.rest
      ⟨.method, 0, if word = [] then 0 else word.length + 1⟩ ::
        headerTouched (first.rest.length + 1) [] 0 first.rest ++
          if h.ok then bodyTouched malloc h.len h.rest else []

/-! ### `handle_rtsp` -/

/-- What `malloc` gives: a block in the address space, or none. -/
structure Heap where
  malloc : ℕ → Option ℕ
  fits : ∀ n a, malloc n = some a → a + n ≤ 2 ^ 32

/-- What is around a message: the memory, what `rtp_init` comes to, the codes that `dmap_parse`
knows, and how many of its rounds are looked at. -/
structure World where
  heap : Heap
  mem : ℕ → UInt8
  init : Rtsp.RtpInit
  fieldOf : List UInt8 → Option Dmap.Field
  rounds : ℕ

/-- A message as `handle_rtsp` has it: the body is at `base`. -/
structure Request where
  method : List UInt8
  headers : List KeyData
  len : ℤ
  base : ℕ
  mem : ℕ → UInt8

/-- The message that was read.  Where nothing was received the block has what was there, and behind
it a NUL. -/
def World.request (w : World) (method : List UInt8) (headers : List KeyData) (len : ℤ)
    (body : List UInt8) : Request :=
  let base := (w.heap.malloc (bodySize len)).getD 0
  { method, headers, len, base
    mem := fun a =>
      if base ≤ a ∧ a < base + body.length then body.getD (a - base) 0
      else if a = base + len.toNat then 0
      else w.mem a }

namespace Request

variable (r : Request)

/-- `kd_lookup` -/
def lookup (key : String) : Option (List UInt8) :=
  (r.headers.find? fun e => CaseEq e.1 (CString.ascii key)).map Prod.snd

/-- The string in the body, if there is a body. -/
def text : Option (List UInt8) :=
  if r.len = 0 then none
  else some (CString.cstr ((List.range r.len.toNat).map fun i => r.mem (r.base + i)))

/-- The block of the body. -/
def block : Region := .body (bodySize r.len)

end Request

/-- `kd_add` behind `n` entries -/
def kdAdd (n : ℕ) : List Touch := [⟨.resp, 0, n + 1⟩, ⟨.resp, n, 1⟩, ⟨.resp, n + 1, 1⟩]

/-- The answer to a challenge: what is decoded, the address of the host, the MAC, and zeros. -/
def challengeTouched (buf : List UInt8) : List Touch :=
  let d := base64Decode (base64Pad buf)
  let p := min d.2 (32 - 10)
  [⟨.data, 0, d.1.length⟩, ⟨.data, p, 4⟩, ⟨.data, p + 4, 6⟩,
    ⟨.data, p + 10, (32 - (p + 10)).toNat⟩, ⟨.data, 0, 32⟩]

/-- `strextract` -/
def strextract (s1 beg fin : List UInt8) : Option (List UInt8) :=
  (strcasestr s1 beg).map fun p1 =>
    match strcasestr (p1.drop beg.length) fin with
    | none => p1.drop beg.length
    | some p2 => (p1.drop beg.length).take ((p1.drop beg.length).length - p2.length)

/-- What ANNOUNCE takes from the body for a name; `some none` where nothing can be taken. -/
def announced (text : List UInt8) (name : String) : Option (Option (List UInt8)) :=
  (strcasestr text (CString.ascii name)).map fun p => strextract p (CString.ascii ":") [13, 10]

/-- ANNOUNCE goes on behind the body: what is taken from it is no null pointer. -/
def goesOn (text : List UInt8) : Bool :=
  announced text "rsaaeskey" ≠ some none && announced text "aesiv" ≠ some none &&
    announced text "fmtp" ≠ some none

/-- `strcpy`, if there is something to copy -/
def copyTouched (region : Region) (src : Option (List UInt8)) : List Touch :=
  match src with
  | none => []
  | some s => [⟨region, 0, s.length + 1⟩]

/-- ANNOUNCE -/
def Request.announce (r : Request) : Access :=
  match r.text with
  | none => ⟨[⟨.body 0, 0, 1⟩], true⟩
  | some text =>
      Access.andThen ⟨[⟨r.block, 0, text.length + 1⟩], !goesOn text⟩
        (through (copyTouched .dacpId (r.lookup "DACP-ID") ++
          copyTouched .remoteId (r.lookup "Active-Remote")))

/-- How many parts `strsep` finds. -/
def fmtpCount : Option (List UInt8) → ℕ
  | none => 0
  | some s => s.countP isblank + 1

/-- `rtp_init`, for its table of numbers, which `alac_init` reads -/
def fmtpTouched (fmtp : Option (List UInt8)) : Rtsp.RtpInit → List Touch
  | .noMemory => []
  | _ =>
      ⟨.fmtp, 0, 12⟩ :: ((List.range (fmtpCount fmtp)).map fun i => ⟨.fmtp, i, 1⟩) ++
        [⟨.fmtp, 0, 12⟩]

/-- `dmap_parse` of the body -/
def Request.metadata (r : Request) (w : World) : Dmap.Trace :=
  Dmap.dmapParse w.fieldOf r.mem w.rounds r.base (r.base + r.len.toNat) none

/-- The headers are dumped. -/
def Request.dump (r : Request) : List Touch := [⟨.headers, 0, r.headers.length + 1⟩]

/-- Whether SET_PARAMETER takes the body for metadata: the Content-Type says so, and there is
neither a volume nor a progress. -/
def Request.isMetadata (r : Request) (text : List UInt8) : Bool :=
  strcasestr text (CString.ascii "volume") = none &&
    strcasestr text (CString.ascii "progress") = none &&
    (r.lookup "Content-Type").any fun p => CaseEq p (CString.ascii "application/x-dmap-tagged")

/-- SET_PARAMETER -/
def Request.setParameter (r : Request) (w : World) : List Touch :=
  match r.text with
  | none => r.dump
  | some text =>
      ⟨r.block, 0, text.length + 1⟩ ::
        if strcasestr text (CString.ascii "volume") ≠ none then []
        else if strcasestr text (CString.ascii "progress") ≠ none then []
        else if r.isMetadata text then
          (r.metadata w).touched.map fun t => ⟨r.block, (t.1 : ℤ) - r.base, t.2⟩
        else if (r.lookup "Content-Type").any fun p =>
            strcasestr p (CString.ascii "image/jpeg") ≠ none then
          [⟨r.block, 0, r.len.toNat⟩]
        else r.dump

/-- What is kept of a connection: what comes on the socket, the format of the last ANNOUNCE, the
latency, and whether the program still runs. -/
structure Conn where
  sock : List Rx
  fmtp : Option (List UInt8)
  latency : ℕ
  alive : Bool

/-- What a method accesses, with `n` entries in `resp` before. -/
def Request.byMethod (r : Request) (c : Conn) (w : World) (n : ℕ) : Access :=
  if r.method = CString.ascii "OPTIONS" then through (kdAdd n)
  else if r.method = CString.ascii "ANNOUNCE" then r.announce
  else if r.method = CString.ascii "SETUP" ∧ r.lookup "Transport" ≠ none then
    through (fmtpTouched c.fmtp w.init ++
      if w.init = .started true then kdAdd n ++ kdAdd (n + 1) else [])
  else if r.method = CString.ascii "RECORD" then
    through (if c.latency ≠ 0 then
      ⟨.latency, 0, min 6 ((Nat.toDigits 10 c.latency).length + 1)⟩ :: kdAdd n else [])
  else if r.method = CString.ascii "FLUSH" then ⟨[], (r.lookup "RTP-Info").isNone⟩
  else if r.method = CString.ascii "SET_PARAMETER" then through (r.setParameter w)
  else through []

/-- How many entries a method adds to `resp`. -/
def Request.added (r : Request) (c : Conn) (w : World) : ℕ :=
  if r.method = CString.ascii "OPTIONS" then 1
  else if r.method = CString.ascii "ANNOUNCE" then 0
  else if r.method = CString.ascii "SETUP" ∧ r.lookup "Transport" ≠ none then
    if w.init = .started true then 2 else 0
  else if r.method = CString.ascii "RECORD" then if c.latency ≠ 0 then 1 else 0
  else 0

/-- The last two entries of `resp`; a CSeq that is not there cannot be copied. -/
def Request.answer (r : Request) (n : ℕ) : Access :=
  Access.andThen (through (kdAdd n)) (if (r.lookup "CSeq").isSome then through (kdAdd (n + 1))
    else ⟨[⟨.resp, 0, n + 2⟩, ⟨.resp, n + 1, 1⟩], true⟩)

/-- `handle_rtsp` behind `http_parse` -/
def Request.handle (r : Request) (c : Conn) (w : World) : Access :=
  let challenge : List Touch :=
    match r.lookup "Apple-Challenge" with
    | none => []
    | some buf => challengeTouched buf ++ kdAdd 0
  let n := if (r.lookup "Apple-Challenge").isSome then 1 else 0
  (through (⟨.headers, 0, r.headers.length + 1⟩ :: challenge)).andThen
    ((r.byMethod c w n).andThen (r.answer (n + r.added c w)))

/-- `ctx->rtsp.fmtp` after a message -/
def Request.fmtpAfter (r : Request) (c : Conn) (w : World) : Option (List UInt8) :=
  if r.method = CString.ascii "ANNOUNCE" then
    r.text.bind fun text => (announced text "fmtp").bind id
  else if r.method = CString.ascii "SETUP" ∧ r.lookup "Transport" ≠ none ∧ w.init ≠ .noMemory then
    c.fmtp.map Rtsp.strsep
  else if r.method = CString.ascii "TEARDOWN" then none
  else c.fmtp

/-- What happens to the connection: another one is accepted, a message is handled, or it is
cleaned up. -/
inductive Event
  | accept (sock : List Rx)
  | message (w : World)
  | hangUp

/-- `handle_rtsp` for what comes next -/
def Conn.message (c : Conn) (w : World) : Conn × List Touch :=
  let p := httpParse w.heap.malloc c.sock
  let ts := httpTouched w.heap.malloc c.sock
  match p.outcome with
  | .refused => ({ c with sock := [], fmtp := none }, ts)
  | .astray => ({ c with alive := false }, ts)
  | .parsed =>
      let r := w.request p.method p.headers p.len p.body
      let a := r.handle c w
      if a.stops then ({ c with alive := false }, ts ++ a.touched)
      else ({ c with sock := p.rest, fmtp := r.fmtpAfter c w }, ts ++ a.touched)

/-- A turn of `rtsp_thread` -/
def Conn.step (c : Conn) : Event → Conn × List Touch
  | .accept sock => ({ c with sock, fmtp := none }, [])
  | .message w => if c.alive then c.message w else (c, [])
  | .hangUp => ({ c with sock := [], fmtp := none }, [])

/-- The control connection. -/
def control : Runs.Machine Conn Event Touch := ⟨Conn.step⟩

/-! ### The condition -/

/-- The lines that arrive up to an empty one, and what is left. -/
def linesFrom : ℕ → List Rx → List (List UInt8) × List Rx
  | 0, fd => ([], fd)
  | fuel + 1, fd =>
      let r := readLine fd
      if 0 < r.count then
        (CString.cstr r.line :: (linesFrom fuel r.rest).1, (linesFrom fuel r.rest).2)
      else ([], r.rest)

/-- The first word of a message -/
def firstWord (sock : List Rx) : List UInt8 := token (CString.cstr (readLine sock).line)

/-- The lines behind the first one, and what is left -/
def linesOf (sock : List Rx) : List (List UInt8) × List Rx :=
  linesFrom ((readLine sock).rest.length + 1) (readLine sock).rest

/-- All of them have a colon. -/
def AllColons (ls : List (List UInt8)) : Prop := ∀ l ∈ ls, 58 ∈ l

instance (ls : List (List UInt8)) : Decidable (AllColons ls) := List.decidableBAll _ _

/-- The headers up to a line without a colon -/
def entries (ls : List (List UInt8)) : List KeyData :=
  (ls.takeWhile fun l => 58 ∈ l).filterMap entryOf

/-- The length that they give the body -/
def lengthOf (ls : List (List UInt8)) : ℤ := (entries ls).foldl lenAfter 0

/-- There is no body, or a block for it. -/
def Placed (w : World) (len : ℤ) : Prop := len = 0 ∨ 0 < len ∧ w.heap.malloc (bodySize len) ≠ none

/-- The message that arrives -/
def arrived (c : Conn) (w : World) : Request :=
  w.request (firstWord c.sock) (entries (linesOf c.sock).1) (lengthOf (linesOf c.sock).1)
    (recvBody (lengthOf (linesOf c.sock).1).toNat (linesOf c.sock).2).1

namespace Request

variable (r : Request)

/-- A challenge decodes, to 32 bytes at most. -/
def ChallengeFits : Prop :=
  ∀ buf, r.lookup "Apple-Challenge" = some buf →
    (base64Decode (base64Pad buf)).2 ≠ -1 ∧ (base64Decode (base64Pad buf)).1.length ≤ 32

/-- ANNOUNCE has a body, and the names of a remote have place. -/
def AnnounceFits : Prop :=
  r.method = CString.ascii "ANNOUNCE" →
    ∃ text, r.text = some text ∧
      (goesOn text = true →
        (∀ s, r.lookup "DACP-ID" = some s → s.length < 32) ∧
          ∀ s, r.lookup "Active-Remote" = some s → s.length < 32)

/-- SETUP finds at most 12 numbers in the format. -/
def SetupFits (c : Conn) (w : World) : Prop :=
  r.method = CString.ascii "SETUP" → r.lookup "Transport" ≠ none → w.init ≠ .noMemory →
    fmtpCount c.fmtp ≤ 12

/-- No length of the metadata takes a pointer beyond the address space. -/
def MetadataFits (w : World) : Prop :=
  r.method = CString.ascii "SET_PARAMETER" →
    ∀ text, r.text = some text → r.isMetadata text = true → (r.metadata w).NoWrap

end Request

/-- What arrives fits, but for the metadata. -/
def FitsButMetadata (c : Conn) (w : World) : Prop :=
  0 < (readLine c.sock).count →
    (firstWord c.sock).length < 16 ∧ (entries (linesOf c.sock).1).length < 16 ∧
      (AllColons (linesOf c.sock).1 →
        Placed w (lengthOf (linesOf c.sock).1) ∧ (arrived c w).ChallengeFits ∧
          (arrived c w).AnnounceFits ∧ (arrived c w).SetupFits c w)

/-- What arrives fits. -/
def Fits (c : Conn) (w : World) : Prop :=
  FitsButMetadata c w ∧
    (0 < (readLine c.sock).count → AllColons (linesOf c.sock).1 → (arrived c w).MetadataFits w)

/-- What comes next on a connection fits. -/
def EventFits (c : Conn) : Event → Prop
  | .message w => c.alive = true → Fits c w
  | _ => True

/-! ### Lists of accesses -/

variable {ts ts' : List Touch} {t : Touch}

theorem allInside_nil : AllInside [] := fun _ ht => absurd ht List.not_mem_nil

theorem allInside_cons : AllInside (t :: ts) ↔ t.Inside ∧ AllInside ts := List.forall_mem_cons

theorem allInside_append : AllInside (ts ++ ts') ↔ AllInside ts ∧ AllInside ts' :=
  List.forall_mem_append

theorem inside_one {region : Region} {i : ℕ} :
    Touch.Inside ⟨region, i, 1⟩ ↔ i < region.places := by
  rw [Touch.Inside]
  simp only [Nat.one_ne_zero, false_or]
  omega

theorem inside_start {region : Region} {n : ℕ} :
    Touch.Inside ⟨region, 0, n⟩ ↔ n ≤ region.places := by
  rw [Touch.Inside]
  simp only [Int.le_refl, true_and]
  omega

theorem andThen_inside (a b : Access) :
    AllInside (a.andThen b).touched ↔
      AllInside a.touched ∧ (a.stops = false → AllInside b.touched) := by
  rw [Access.andThen]
  cases h : a.stops with
  | true => simp
  | false => simp [allInside_append]

theorem kdAdd_inside {n : ℕ} (h : n + 2 ≤ 8) : AllInside (kdAdd n) := by
  have hplaces : Region.resp.places = 8 := rfl
  have hcast : ((n : ℤ) + 1) = ((n + 1 : ℕ) : ℤ) := rfl
  rw [kdAdd, allInside_cons, allInside_cons, allInside_cons, inside_start, inside_one, hcast,
    inside_one, hplaces]
  exact ⟨by omega, by omega, by omega, allInside_nil⟩

/-! ### `http_parse` -/

theorem readLineFrom_length (i : ℕ) : ∀ (line : List UInt8) (fd : List Rx),
    line.length < maxlen - 1 → (readLineFrom i line fd).line.length ≤ maxlen - 1 := by
  induction i with
  | zero => exact fun _ _ h => Nat.le_of_lt h
  | succ i ih =>
      intro line fd h
      match fd with
      | [] => exact Nat.le_of_lt h
      | .late :: _ => exact Nat.le_of_lt h
      | .closed :: _ => exact Nat.le_of_lt h
      | .failed :: _ => exact Nat.le_of_lt h
      | .byte ch :: fd =>
          have hlen : (line ++ [ch]).length = line.length + 1 := List.length_append
          rw [readLineFrom]
          split
          · exact Nat.le_of_lt h
          · split
            · exact ih line fd h
            · split
              · show (line ++ [ch]).length ≤ maxlen - 1
                omega
              · exact ih (line ++ [ch]) fd (by omega)

/-- A line has place. -/
theorem line_inside (fd : List Rx) : Touch.Inside ⟨.line, 0, (readLine fd).line.length + 1⟩ := by
  have h := readLineFrom_length maxlen [] fd (by decide)
  have hplaces : Region.line.places = maxlen := rfl
  rw [inside_start, hplaces]
  exact Nat.le_trans (Nat.succ_le_succ h) (by decide)

theorem entryOf_none {l : List UInt8} (h : 58 ∉ l) : entryOf l = none := by
  rw [entryOf, strstr_char_none h, Option.map_none]

theorem entryOf_some {l : List UInt8} (h : 58 ∈ l) : ∃ e, entryOf l = some e := by
  obtain ⟨a, s, rfl, ha⟩ := List.eq_append_cons_of_mem h
  rw [entryOf, strstr_char ha, Option.map_some]
  exact ⟨_, rfl⟩

theorem entries_cons {l : List UInt8} {ls : List (List UInt8)} {e : KeyData}
    (he : entryOf l = some e) : entries (l :: ls) = e :: entries ls := by
  have hcolon : 58 ∈ l := by
    by_contra h
    rw [entryOf_none h] at he
    cases he
  rw [entries, List.takeWhile_cons_of_pos (by simpa using hcolon), List.filterMap_cons_some he,
    entries]

theorem entries_bad {l : List UInt8} {ls : List (List UInt8)} (hcolon : 58 ∉ l) :
    entries (l :: ls) = [] := by
  rw [entries, List.takeWhile_cons_of_neg (by simpa using hcolon), List.filterMap_nil]

variable {fuel : ℕ} {rkd : List KeyData} {len : ℤ} {fd : List Rx}

theorem linesFrom_line (h : 0 < (readLine fd).count) :
    linesFrom (fuel + 1) fd =
      (CString.cstr (readLine fd).line :: (linesFrom fuel (readLine fd).rest).1,
        (linesFrom fuel (readLine fd).rest).2) := by
  rw [linesFrom]
  exact if_pos h

theorem linesFrom_end (h : ¬ 0 < (readLine fd).count) :
    linesFrom (fuel + 1) fd = ([], (readLine fd).rest) := by
  rw [linesFrom]
  exact if_neg h

/-- Where all lines have a colon, the headers are read from them. -/
theorem headerLoop_good : ∀ (fuel : ℕ) (rkd : List KeyData) (len : ℤ) (fd : List Rx),
    AllColons (linesFrom fuel fd).1 →
      Message.headerLoop fuel rkd len fd =
        ⟨true, rkd ++ entries (linesFrom fuel fd).1,
          (entries (linesFrom fuel fd).1).foldl lenAfter len, (linesFrom fuel fd).2⟩
  | 0, rkd, len, fd, _ => by
      show (⟨true, rkd, len, fd⟩ : Headers) = ⟨true, rkd ++ [], len, fd⟩
      rw [List.append_nil]
  | fuel + 1, rkd, len, fd, hall => by
      by_cases hread : 0 < (readLine fd).count
      · rw [linesFrom_line hread] at hall ⊢
        obtain ⟨e, he⟩ := entryOf_some (hall _ List.mem_cons_self)
        have ih := headerLoop_good fuel (rkd ++ [e]) (lenAfter len e) (readLine fd).rest
          fun l hl => hall l (List.mem_cons_of_mem _ hl)
        rw [Message.headerLoop]
        simp only [if_pos hread, headerLine_eq, he, Option.map_some, entries_cons he, ih,
          List.append_assoc, List.singleton_append, List.foldl_cons]
      · rw [linesFrom_end hread, Message.headerLoop]
        simp only [if_neg hread]
        show (⟨true, rkd, len, _⟩ : Headers) = ⟨true, rkd ++ [], len, _⟩
        rw [List.append_nil]

/-- Where one has none, it is a bad header. -/
theorem headerLoop_bad : ∀ (fuel : ℕ) (rkd : List KeyData) (len : ℤ) (fd : List Rx),
    ¬ AllColons (linesFrom fuel fd).1 → (Message.headerLoop fuel rkd len fd).ok = false
  | 0, _, _, _, hall => absurd (fun _ hl => absurd hl List.not_mem_nil) hall
  | fuel + 1, rkd, len, fd, hall => by
      by_cases hread : 0 < (readLine fd).count
      · rw [linesFrom_line hread] at hall
        rw [Message.headerLoop]
        simp only [if_pos hread, headerLine_eq]
        by_cases hcolon : 58 ∈ CString.cstr (readLine fd).line
        · obtain ⟨e, he⟩ := entryOf_some hcolon
          simp only [he, Option.map_some]
          exact headerLoop_bad fuel _ _ _ fun h => hall (List.forall_mem_cons.mpr ⟨hcolon, h⟩)
        · rw [entryOf_none hcolon, Option.map_none]
      · rw [linesFrom_end hread] at hall
        exact absurd (fun _ hl => absurd hl List.not_mem_nil) hall

/-- The headers have place if and only if there are at most 15 of them. -/
theorem headerTouched_inside : ∀ (fuel : ℕ) (rkd : List KeyData) (len : ℤ) (fd : List Rx),
    rkd.length < 16 →
      (AllInside (headerTouched fuel rkd len fd) ↔
        rkd.length + (entries (linesFrom fuel fd).1).length < 16)
  | 0, _, _, _, hrkd => ⟨fun _ => hrkd, fun _ => allInside_nil⟩
  | fuel + 1, rkd, len, fd, hrkd => by
      have hplaces : Region.headers.places = 16 := rfl
      have hlook (n : ℕ) (hn : n ≤ 1) : Touch.Inside ⟨.headers, rkd.length, n⟩ := by
        show n = 0 ∨ (0 : ℤ) ≤ rkd.length ∧ (rkd.length : ℤ) + n ≤ (16 : ℕ)
        omega
      rw [headerTouched]
      simp only [allInside_cons, line_inside, true_and]
      by_cases hread : 0 < (readLine fd).count
      · rw [if_pos hread, linesFrom_line hread, allInside_cons, headerLine_eq]
        by_cases hcolon : 58 ∈ CString.cstr (readLine fd).line
        · obtain ⟨e, he⟩ := entryOf_some hcolon
          have hcast : ((rkd.length : ℤ) + 1) = ((rkd.length + 1 : ℕ) : ℤ) := rfl
          have hlen : (rkd ++ [e]).length = rkd.length + 1 := List.length_append
          have ih := headerTouched_inside fuel (rkd ++ [e]) (lenAfter len e) (readLine fd).rest
          rw [hlen] at ih
          simp only [he, Option.map_some, entries_cons he, allInside_cons, hcast, inside_one,
            hplaces, List.length_cons]
          constructor
          · rintro ⟨-, -, hnext, hrest⟩
            have hplace := (ih hnext).mp hrest
            omega
          · intro h
            exact ⟨hlook _ (by split <;> decide), hrkd, by omega, (ih (by omega)).mpr (by omega)⟩
        · rw [entryOf_none hcolon, Option.map_none, entries_bad hcolon]
          exact ⟨fun _ => hrkd, fun _ => ⟨hlook _ (by split <;> decide), allInside_nil⟩⟩
      · rw [if_neg hread, linesFrom_end hread]
        exact ⟨fun _ => hrkd, fun _ => allInside_nil⟩

theorem recvBody_le (fd : List Rx) : ∀ n, (recvBody n fd).1.length ≤ n := by
  induction fd with
  | nil => exact fun n => by cases n <;> exact Nat.zero_le _
  | cons e fd ih =>
      intro n
      match n, e with
      | 0, _ => exact Nat.zero_le _
      | n + 1, .byte b => exact Nat.succ_le_succ (ih n)
      | n + 1, .late => exact ih (n + 1)
      | n + 1, .failed => exact Nat.zero_le _
      | n + 1, .closed => exact Nat.zero_le _

/-- A `long` has 32 bits. -/
theorem atol_le (s : List UInt8) : atol s ≤ 2 ^ 31 - 1 := by
  rw [atol]
  split
  · decide
  · split
    · rw [Int.max_le]
      exact ⟨by decide, Int.le_trans (Int.neg_nonpos_of_nonneg (Int.natCast_nonneg _)) (by decide)⟩
    · split
      · exact Int.min_le_left _ _
      · exact Int.min_le_left _ _

theorem lengthOf_le (es : List KeyData) : ∀ len : ℤ, len ≤ 2 ^ 31 - 1 →
    es.foldl lenAfter len ≤ 2 ^ 31 - 1 := by
  induction es with
  | nil => exact fun _ h => h
  | cons e es ih =>
      intro len h
      apply ih
      rw [lenAfter]
      split
      · exact atol_le e.2
      · exact h

theorem bodySize_pos {len : ℤ} (hpos : 0 < len) (hle : len ≤ 2 ^ 31 - 1) :
    bodySize len = len.toNat + 1 := by
  rw [bodySize, Int.emod_eq_of_lt (by omega) (by omega)]
  omega

/-- The body has place if and only if there is none, or a block for it. -/
theorem bodyTouched_inside (w : World) {len : ℤ} (hle : len ≤ 2 ^ 31 - 1) (fd : List Rx) :
    AllInside (bodyTouched w.heap.malloc len fd) ↔ Placed w len := by
  rw [bodyTouched, Placed]
  by_cases hzero : len = 0
  · rw [if_pos hzero]
    exact ⟨fun _ => .inl hzero, fun _ => allInside_nil⟩
  · rw [if_neg hzero]
    cases hblock : w.heap.malloc (bodySize len) with
    | none =>
        constructor
        · intro h
          have hplace := h _ List.mem_cons_self
          simp only [Touch.Inside, Region.places] at hplace
          omega
        · rintro (h | ⟨-, h⟩)
          · exact absurd h hzero
          · exact absurd rfl h
    | some a =>
        have hreceived := recvBody_le fd len.toNat
        constructor
        · intro h
          have hplace := h ⟨.body (bodySize len), len, 1⟩
            (List.mem_cons_of_mem _ List.mem_cons_self)
          simp only [Touch.Inside] at hplace
          exact .inr ⟨by omega, Option.some_ne_none a⟩
        · intro h
          have hpos : 0 < len := (h.resolve_left hzero).1
          have hsize : (Region.body (bodySize len)).places = len.toNat + 1 := bodySize_pos hpos hle
          have hnul : Touch.Inside ⟨.body (bodySize len), len, 1⟩ := by
            refine .inr ⟨Int.le_of_lt hpos, ?_⟩
            rw [hsize]
            show len + (1 : ℕ) ≤ (len.toNat + 1 : ℕ)
            omega
          rw [allInside_cons, allInside_cons, inside_start, hsize]
          exact ⟨by omega, hnul, allInside_nil⟩

/-- `http_parse` stays inside if and only if the first word and the headers have place, and the body
where it comes to it. -/
theorem httpTouched_inside (w : World) (sock : List Rx) :
    AllInside (httpTouched w.heap.malloc sock) ↔
      (0 < (readLine sock).count →
        (firstWord sock).length < 16 ∧ (entries (linesOf sock).1).length < 16 ∧
          (AllColons (linesOf sock).1 → Placed w (lengthOf (linesOf sock).1))) := by
  have hstart : Touch.Inside ⟨.headers, 0, 1⟩ := by decide
  have hmethod : Touch.Inside ⟨.method, 0, if firstWord sock = [] then 0
      else (firstWord sock).length + 1⟩ ↔ (firstWord sock).length < 16 := by
    have hplaces : Region.method.places = 16 := rfl
    rw [inside_start, hplaces]
    split
    case isTrue hnil => simp [hnil]
    case isFalse => omega
  have hheaders := headerTouched_inside ((readLine sock).rest.length + 1) [] 0 (readLine sock).rest
    (by decide)
  rw [List.length_nil, Nat.zero_add] at hheaders
  rw [httpTouched, allInside_cons, allInside_cons]
  simp only [hstart, line_inside, true_and]
  by_cases hread : 0 < (readLine sock).count
  · simp only [if_neg (Int.not_le.mpr hread), List.cons_append, allInside_cons, allInside_append,
      hheaders, hread, forall_const]
    refine and_congr hmethod (and_congr Iff.rfl ?_)
    by_cases hcolons : AllColons (linesOf sock).1
    · have hle := lengthOf_le (entries (linesOf sock).1) 0 (by decide)
      rw [headerLoop_good _ _ _ _ hcolons]
      exact (bodyTouched_inside w hle _).trans ⟨fun h _ => h, fun h => h hcolons⟩
    · rw [headerLoop_bad _ _ _ _ hcolons]
      exact ⟨fun _ h => absurd h hcolons, fun _ => allInside_nil⟩
  · rw [if_pos (Int.not_lt.mp hread)]
    exact ⟨fun _ h => absurd h hread, fun _ => allInside_nil⟩

/-! ### `handle_rtsp` -/

section Handle

variable {c : Conn} {w : World} {r : Request} {n : ℕ}

/-- The answer to a challenge has place if and only if the challenge decodes to 32 bytes at most. -/
theorem challengeTouched_inside (buf : List UInt8) :
    AllInside (challengeTouched buf) ↔
      (base64Decode (base64Pad buf)).2 ≠ -1 ∧ (base64Decode (base64Pad buf)).1.length ≤ 32 := by
  have hret : (base64Decode (base64Pad buf)).2 = -1 ∨
      (base64Decode (base64Pad buf)).2 = (base64Decode (base64Pad buf)).1.length := by
    rw [base64Decode]
    split
    · exact .inr rfl
    · exact .inl rfl
  have hplaces : Region.data.places = 32 := rfl
  rw [challengeTouched]
  simp only [allInside_cons, inside_start, hplaces]
  generalize (base64Decode (base64Pad buf)).2 = ret at hret ⊢
  generalize (base64Decode (base64Pad buf)).1.length = stored at hret ⊢
  constructor
  · rintro ⟨hstored, hfirst, -⟩
    refine ⟨?_, hstored⟩
    rintro rfl
    -- the address of the host is written before the data
    exact absurd hfirst (by decide)
  · rintro ⟨hne, hstored⟩
    have hlen := hret.resolve_left hne
    simp only [Touch.Inside, hplaces]
    refine ⟨hstored, .inr ?_, .inr ?_, .inr ?_, Nat.le_refl _, allInside_nil⟩
    · omega
    · omega
    · omega

theorem block_places (hpos : 0 < r.len) (hle : r.len ≤ 2 ^ 31 - 1) :
    r.block.places = r.len.toNat + 1 := bodySize_pos hpos hle

/-- The string of the body ends in its block. -/
theorem text_le {text : List UInt8} (h : r.text = some text) : text.length ≤ r.len.toNat := by
  rw [Request.text] at h
  split at h
  · cases h
  · rw [← Option.some.inj h, CString.cstr]
    refine Nat.le_trans (List.takeWhile_prefix _).length_le ?_
    rw [List.length_map, List.length_range]

theorem copyTouched_inside {region : Region} (hplaces : region.places = 32)
    (src : Option (List UInt8)) :
    AllInside (copyTouched region src) ↔ ∀ s, src = some s → s.length < 32 := by
  cases src with
  | none => exact ⟨fun _ _ h => (Option.some_ne_none _ h.symm).elim, fun _ => allInside_nil⟩
  | some s =>
      rw [copyTouched, allInside_cons, inside_start, hplaces]
      constructor
      · rintro ⟨hle, -⟩ s' heq
        cases heq
        exact hle
      · exact fun h => ⟨h s rfl, allInside_nil⟩

/-- There is no body, or its block, which is in the address space. -/
def Blocked (r : Request) : Prop :=
  r.len = 0 ∨ 0 < r.len ∧ r.len ≤ 2 ^ 31 - 1 ∧ r.base + r.len.toNat < 2 ^ 32

theorem Blocked.of_text {text : List UInt8} (hb : Blocked r) (h : r.text = some text) :
    0 < r.len ∧ r.len ≤ 2 ^ 31 - 1 ∧ r.base + r.len.toNat < 2 ^ 32 := by
  apply hb.resolve_left
  intro hzero
  rw [Request.text, if_pos hzero] at h
  cases h

/-- What reads the string of the body stays in its block. -/
theorem text_inside {text : List UInt8} (hb : Blocked r) (h : r.text = some text) :
    Touch.Inside ⟨r.block, 0, text.length + 1⟩ := by
  obtain ⟨hpos, hle, -⟩ := hb.of_text h
  rw [inside_start, block_places hpos hle]
  exact Nat.succ_le_succ (text_le h)

/-- ANNOUNCE stays inside if and only if there is a body, and place for what it comes to copy. -/
theorem announce_inside (hb : Blocked r) :
    AllInside r.announce.touched ↔
      ∃ text, r.text = some text ∧
        (goesOn text = true →
          (∀ s, r.lookup "DACP-ID" = some s → s.length < 32) ∧
            ∀ s, r.lookup "Active-Remote" = some s → s.length < 32) := by
  rw [Request.announce]
  cases htext : r.text with
  | none =>
      constructor
      · intro h
        exact absurd (h _ List.mem_cons_self) (by decide)
      · rintro ⟨text, h, -⟩
        cases h
  | some text =>
      have hread := text_inside hb htext
      rw [andThen_inside, allInside_cons]
      simp only [hread, allInside_nil, true_and, through, allInside_append, Bool.not_eq_false',
        copyTouched_inside (rfl : Region.dacpId.places = 32),
        copyTouched_inside (rfl : Region.remoteId.places = 32)]
      constructor
      · exact fun h => ⟨text, rfl, h⟩
      · rintro ⟨text', heq, h⟩
        cases heq
        exact h

/-- `rtp_init` stays inside if and only if there are at most 12 numbers. -/
theorem fmtpTouched_inside (fmtp : Option (List UInt8)) (init : Rtsp.RtpInit) :
    AllInside (fmtpTouched fmtp init) ↔ init ≠ .noMemory → fmtpCount fmtp ≤ 12 := by
  have htable : Touch.Inside ⟨.fmtp, 0, 12⟩ := by decide
  have hplaces : Region.fmtp.places = 12 := rfl
  have hnumbers : AllInside ((List.range (fmtpCount fmtp)).map fun i : ℕ => ⟨.fmtp, i, 1⟩) ↔
      fmtpCount fmtp ≤ 12 := by
    constructor
    · intro h
      by_contra hover
      have hlast := h ⟨.fmtp, (12 : ℕ), 1⟩
        (List.mem_map.mpr ⟨12, List.mem_range.mpr (Nat.not_le.mp hover), rfl⟩)
      exact absurd hlast (by decide)
    · intro hle t ht
      obtain ⟨i, hi, rfl⟩ := List.mem_map.mp ht
      rw [inside_one, hplaces]
      exact Nat.lt_of_lt_of_le (List.mem_range.mp hi) hle
  have hall : AllInside (⟨.fmtp, 0, 12⟩ ::
      ((List.range (fmtpCount fmtp)).map fun i : ℕ => ⟨.fmtp, i, 1⟩) ++ [⟨.fmtp, 0, 12⟩]) ↔
      fmtpCount fmtp ≤ 12 := by
    rw [List.cons_append, allInside_cons, allInside_append, allInside_cons, hnumbers]
    exact ⟨fun h => h.2.1, fun h => ⟨htable, h, htable, allInside_nil⟩⟩
  cases init with
  | noMemory => exact ⟨fun _ h => absurd rfl h, fun _ => allInside_nil⟩
  | failed => exact hall.trans ⟨fun h _ => h, fun h => h nofun⟩
  | started ports => exact hall.trans ⟨fun h _ => h, fun h => h nofun⟩

/-- The metadata are read in the block of the body. -/
theorem metadata_inside {text : List UInt8} (hb : Blocked r) (h : r.text = some text)
    (hwrap : (r.metadata w).NoWrap) :
    AllInside ((r.metadata w).touched.map fun t => ⟨r.block, (t.1 : ℤ) - r.base, t.2⟩) := by
  obtain ⟨hpos, hle, hend⟩ := hb.of_text h
  have hbetween := Dmap.dmapParse_between w.fieldOf hend (by omega) w.rounds r.base
    (r.base + r.len.toNat) none (Nat.le_refl _) (Nat.le_add_right _ _) (Nat.le_refl _) hwrap
  intro t ht
  obtain ⟨range, hrange, rfl⟩ := List.mem_map.mp ht
  rcases hbetween range hrange with hzero | ⟨hbase, hlimit⟩
  · exact .inl hzero
  · refine .inr ?_
    rw [block_places hpos hle]
    show 0 ≤ (range.1 : ℤ) - r.base ∧ (range.1 : ℤ) - r.base + range.2 ≤ (r.len.toNat + 1 : ℕ)
    omega

theorem dump_inside (hheaders : r.headers.length < 16) : AllInside r.dump := by
  have hplaces : Region.headers.places = 16 := rfl
  rw [Request.dump, allInside_cons, inside_start, hplaces]
  exact ⟨hheaders, allInside_nil⟩

theorem setParameter_inside (hb : Blocked r) (hheaders : r.headers.length < 16)
    (hmeta : ∀ text, r.text = some text → r.isMetadata text = true → (r.metadata w).NoWrap) :
    AllInside (r.setParameter w) := by
  rw [Request.setParameter]
  cases htext : r.text with
  | none => exact dump_inside hheaders
  | some text =>
      obtain ⟨hpos, hle, -⟩ := hb.of_text htext
      refine allInside_cons.mpr ⟨text_inside hb htext, ?_⟩
      split
      · exact allInside_nil
      · split
        · exact allInside_nil
        · split
          case isTrue hdata => exact metadata_inside hb htext (hmeta text htext hdata)
          case isFalse =>
            split
            · rw [allInside_cons, inside_start, block_places hpos hle]
              exact ⟨Nat.le_succ _, allInside_nil⟩
            · exact dump_inside hheaders

theorem latency_inside (k : ℕ) : Touch.Inside ⟨.latency, 0, min 6 k⟩ :=
  inside_start.mpr (Nat.min_le_left 6 k)

/-- A method stays inside if what it copies fits. -/
theorem byMethod_inside (hb : Blocked r) (hheaders : r.headers.length < 16) (hn : n ≤ 1)
    (hannounce : r.AnnounceFits) (hsetup : r.SetupFits c w) (hmeta : r.MetadataFits w) :
    AllInside (r.byMethod c w n).touched := by
  rw [Request.byMethod]
  split
  · exact kdAdd_inside (by omega)
  · split
    case isTrue h => exact (announce_inside hb).mpr (hannounce h)
    case isFalse =>
      split
      case isTrue h =>
        refine allInside_append.mpr ⟨(fmtpTouched_inside _ _).mpr (hsetup h.1 h.2), ?_⟩
        split
        · exact allInside_append.mpr ⟨kdAdd_inside (by omega), kdAdd_inside (by omega)⟩
        · exact allInside_nil
      case isFalse =>
        split
        · show AllInside (if c.latency ≠ 0 then _ else [])
          split
          · exact allInside_cons.mpr ⟨latency_inside _, kdAdd_inside (by omega)⟩
          · exact allInside_nil
        · split
          · exact allInside_nil
          · split
            case isTrue h => exact setParameter_inside hb hheaders (hmeta h)
            case isFalse => exact allInside_nil

/-- What ANNOUNCE and SETUP copy fits if they stay inside. -/
theorem fits_of_byMethod (hb : Blocked r) (h : AllInside (r.byMethod c w n).touched) :
    r.AnnounceFits ∧ r.SetupFits c w := by
  rw [Request.byMethod] at h
  constructor
  · intro hmethod
    rw [if_neg (by rw [hmethod]; decide), if_pos hmethod] at h
    exact (announce_inside hb).mp h
  · intro hmethod htransport
    rw [if_neg (by rw [hmethod]; decide), if_neg (by rw [hmethod]; decide),
      if_pos ⟨hmethod, htransport⟩] at h
    exact (fmtpTouched_inside _ _).mp (allInside_append.mp h).1

theorem answer_inside (hn : n ≤ 3) : AllInside (r.answer n).touched := by
  have hplaces : Region.resp.places = 8 := rfl
  rw [Request.answer, andThen_inside]
  refine ⟨kdAdd_inside (by omega), fun _ => ?_⟩
  split
  · exact kdAdd_inside (by omega)
  · have hcast : ((n : ℤ) + 1) = ((n + 1 : ℕ) : ℤ) := rfl
    show AllInside [⟨.resp, 0, n + 2⟩, ⟨.resp, (n : ℤ) + 1, 1⟩]
    rw [allInside_cons, allInside_cons, inside_start, hcast, inside_one, hplaces]
    exact ⟨by omega, by omega, allInside_nil⟩

theorem added_le : r.added c w ≤ 2 := by
  rw [Request.added]
  repeat' split
  all_goals decide

/-- `handle_rtsp` stays inside if and only if the challenge fits and the method stays inside. -/
theorem handle_inside (hheaders : r.headers.length < 16) :
    AllInside (r.handle c w).touched ↔
      r.ChallengeFits ∧
        AllInside (r.byMethod c w
          (if (r.lookup "Apple-Challenge").isSome then 1 else 0)).touched := by
  have hplaces : Region.headers.places = 16 := rfl
  have hlook : Touch.Inside ⟨.headers, 0, r.headers.length + 1⟩ := by
    rw [inside_start, hplaces]
    exact hheaders
  have hadded := @added_le c w r
  have hanswer : AllInside (r.answer ((if (r.lookup "Apple-Challenge").isSome then 1 else 0) +
      r.added c w)).touched := by
    apply answer_inside
    split
    · omega
    · omega
  have hchallenge : AllInside (match r.lookup "Apple-Challenge" with
      | none => []
      | some buf => challengeTouched buf ++ kdAdd 0) ↔ r.ChallengeFits := by
    rw [Request.ChallengeFits]
    cases r.lookup "Apple-Challenge" with
    | none => exact ⟨fun _ _ h => (Option.some_ne_none _ h.symm).elim, fun _ => allInside_nil⟩
    | some buf =>
        show AllInside (challengeTouched buf ++ kdAdd 0) ↔ _
        rw [allInside_append, challengeTouched_inside]
        constructor
        · rintro ⟨h, -⟩ buf' heq
          cases heq
          exact h
        · exact fun h => ⟨h buf rfl, kdAdd_inside (by decide)⟩
  rw [Request.handle, andThen_inside, andThen_inside]
  simp only [through, allInside_cons, hlook, true_and, hchallenge, hanswer, forall_const,
    implies_true, and_true]

end Handle

/-! ### The connection -/

section Connection

variable {c : Conn} {w : World}

theorem arrived_len : (arrived c w).len = lengthOf (linesOf c.sock).1 := rfl

theorem arrived_blocked (h : Placed w (lengthOf (linesOf c.sock).1)) : Blocked (arrived c w) := by
  rcases h with hzero | ⟨hpos, hblock⟩
  · exact .inl hzero
  · obtain ⟨a, ha⟩ := Option.ne_none_iff_exists'.mp hblock
    have hle := lengthOf_le (entries (linesOf c.sock).1) 0 (by decide)
    have hfits := w.heap.fits _ a ha
    have hbase : (arrived c w).base = a := by
      show (w.heap.malloc (bodySize (lengthOf (linesOf c.sock).1))).getD 0 = a
      rw [ha, Option.getD_some]
    rw [bodySize_pos hpos hle] at hfits
    refine .inr ⟨hpos, hle, ?_⟩
    rw [hbase, arrived_len]
    omega

/-- Where `http_parse` gets through it has the message that arrives, and it does where there is
place. -/
theorem httpParse_arrived (c : Conn) (w : World) :
    let p := httpParse w.heap.malloc c.sock
    (p.outcome = .parsed →
      0 < (readLine c.sock).count ∧ AllColons (linesOf c.sock).1 ∧
        w.request p.method p.headers p.len p.body = arrived c w) ∧
      (0 < (readLine c.sock).count → AllColons (linesOf c.sock).1 →
        Placed w (lengthOf (linesOf c.sock).1) → p.outcome = .parsed) := by
  by_cases hread : 0 < (readLine c.sock).count
  · by_cases hcolons : AllColons (linesOf c.sock).1
    · have hloop : Message.headerLoop ((readLine c.sock).rest.length + 1) [] 0
          (readLine c.sock).rest =
          ⟨true, entries (linesOf c.sock).1, lengthOf (linesOf c.sock).1, (linesOf c.sock).2⟩ :=
        headerLoop_good _ [] 0 _ hcolons
      simp only [httpParse, if_neg (Int.not_le.mpr hread), hloop, Bool.not_true,
        Bool.false_eq_true, if_false]
      by_cases hzero : lengthOf (linesOf c.sock).1 = 0
      · have hnone : (recvBody (lengthOf (linesOf c.sock).1).toNat (linesOf c.sock).2).1 = [] := by
          rw [hzero]
          exact List.length_eq_zero_iff.mp (Nat.le_zero.mp (recvBody_le _ 0))
        rw [arrived, hnone]
        simp only [if_pos hzero]
        refine ⟨fun _ => ⟨hread, hcolons, ?_⟩, fun _ _ _ => trivial⟩
        rw [hzero]
        rfl
      · simp only [if_neg hzero]
        cases hblock : w.heap.malloc (bodySize (lengthOf (linesOf c.sock).1)) with
        | none =>
            exact ⟨(fun h => by cases h), fun _ _ h => absurd hblock (h.resolve_left hzero).2⟩
        | some a =>
            refine ⟨fun _ => ⟨hread, hcolons, rfl⟩, fun _ _ h => ?_⟩
            exact if_neg (Int.not_lt.mpr (Int.le_of_lt (h.resolve_left hzero).1))
    · have hloop := headerLoop_bad _ [] 0 _ hcolons
      simp only [httpParse, if_neg (Int.not_le.mpr hread), hloop, Bool.not_false, if_true]
      exact ⟨(fun h => by cases h), fun _ h => absurd h hcolons⟩
  · simp only [httpParse, if_pos (Int.not_lt.mp hread)]
    exact ⟨(fun h => by cases h), fun h => absurd h hread⟩

/-- The accesses of a message: those of `http_parse`, and those of `handle_rtsp` where it comes to
it. -/
theorem message_inside (c : Conn) (w : World) :
    AllInside (c.message w).2 ↔
      AllInside (httpTouched w.heap.malloc c.sock) ∧
        (0 < (readLine c.sock).count → AllColons (linesOf c.sock).1 →
          Placed w (lengthOf (linesOf c.sock).1) →
            AllInside ((arrived c w).handle c w).touched) := by
  obtain ⟨hparsed, hgets⟩ := httpParse_arrived c w
  rw [Conn.message]
  cases hout : (httpParse w.heap.malloc c.sock).outcome with
  | refused =>
      refine ⟨fun h => ⟨h, fun hread hcolons hplaced => ?_⟩, fun h => h.1⟩
      rw [hgets hread hcolons hplaced] at hout
      cases hout
  | astray =>
      refine ⟨fun h => ⟨h, fun hread hcolons hplaced => ?_⟩, fun h => h.1⟩
      rw [hgets hread hcolons hplaced] at hout
      cases hout
  | parsed =>
      obtain ⟨hread, hcolons, hrequest⟩ := hparsed hout
      have hlog : AllInside (httpTouched w.heap.malloc c.sock ++
          ((arrived c w).handle c w).touched) ↔
          AllInside (httpTouched w.heap.malloc c.sock) ∧
            (0 < (readLine c.sock).count → AllColons (linesOf c.sock).1 →
              Placed w (lengthOf (linesOf c.sock).1) →
                AllInside ((arrived c w).handle c w).touched) := by
        rw [allInside_append]
        refine and_congr_right fun hhttp => ?_
        have hplaced := ((httpTouched_inside w c.sock).mp hhttp hread).2.2 hcolons
        exact ⟨fun h _ _ _ => h, fun h => h hread hcolons hplaced⟩
      simp only [hrequest]
      cases ((arrived c w).handle c w).stops with
      | true => exact hlog
      | false => exact hlog

/-- A message that fits stays inside. -/
theorem inside_of_fits (h : Fits c w) : AllInside (c.message w).2 := by
  obtain ⟨hfits, hmeta⟩ := h
  rw [message_inside, httpTouched_inside]
  constructor
  · intro hread
    obtain ⟨hword, hheaders, hrest⟩ := hfits hread
    exact ⟨hword, hheaders, fun hcolons => (hrest hcolons).1⟩
  · intro hread hcolons hplaced
    obtain ⟨-, hheaders, hrest⟩ := hfits hread
    obtain ⟨-, hchallenge, hannounce, hsetup⟩ := hrest hcolons
    refine (handle_inside hheaders).mpr ⟨hchallenge, ?_⟩
    apply byMethod_inside (arrived_blocked hplaced) hheaders _ hannounce hsetup
      (hmeta hread hcolons)
    split
    · exact Nat.le_refl 1
    · exact Nat.zero_le 1

/-- A message that stays inside fits, as far as it is no metadata. -/
theorem fits_of_inside (h : AllInside (c.message w).2) : FitsButMetadata c w := by
  rw [message_inside, httpTouched_inside] at h
  obtain ⟨hhttp, hhandle⟩ := h
  intro hread
  obtain ⟨hword, hheaders, hplace⟩ := hhttp hread
  refine ⟨hword, hheaders, fun hcolons => ?_⟩
  have hplaced := hplace hcolons
  obtain ⟨hchallenge, hmethod⟩ := (handle_inside hheaders).mp (hhandle hread hcolons hplaced)
  obtain ⟨hannounce, hsetup⟩ := fits_of_byMethod (arrived_blocked hplaced) hmethod
  exact ⟨hplaced, hchallenge, hannounce, hsetup⟩

/-- In every run in which each message fits, everything is inside. -/
theorem run_inside (c : Conn) (es : List Event) (h : control.Along EventFits c es) :
    AllInside (control.run c es).2 := by
  refine control.run_emits (Q := Touch.Inside) (fun c e hfits => ?_) h
  cases e with
  | accept sock => exact allInside_nil
  | hangUp => exact allInside_nil
  | message w =>
      show AllInside (if c.alive = true then c.message w else (c, [])).2
      split
      case isTrue halive => exact inside_of_fits (hfits halive)
      case isFalse => exact allInside_nil

end Connection

/-- There is no memory left. -/
def exhausted : World where
  heap := ⟨fun _ => none, fun _ _ h => by cases h⟩
  mem := fun _ => 0
  init := .noMemory
  fieldOf := fun _ => none
  rounds := 0

/-- A connection on which a text arrives. -/
def Conn.receiving (s : String) : Conn := ⟨(CString.ascii s).map .byte, none, 0, true⟩

/-- OPTIONS with a CSeq. -/
theorem run_inside_options :
    AllInside (control.run (Conn.receiving "OPTIONS * RTSP/1.0\r\nCSeq: 1\r\n\r\n")
      [.message exhausted]).2 := by
  have hmethod : (arrived (Conn.receiving "OPTIONS * RTSP/1.0\r\nCSeq: 1\r\n\r\n")
      exhausted).method = CString.ascii "OPTIONS" := by decide
  have hlookup : (arrived (Conn.receiving "OPTIONS * RTSP/1.0\r\nCSeq: 1\r\n\r\n")
      exhausted).lookup "Apple-Challenge" = none := by decide
  apply run_inside
  refine ⟨fun _ => ⟨fun _ => ⟨by decide, by decide, fun _ => ?_⟩, fun _ _ => ?_⟩,
    trivial⟩
  · refine ⟨.inl (by decide), ?_, ?_, ?_⟩
    · intro buf h
      rw [hlookup] at h
      cases h
    · intro h
      rw [hmethod] at h
      exact absurd h (by decide)
    · intro h
      rw [hmethod] at h
      exact absurd h (by decide)
  · intro h
    rw [hmethod] at h
    exact absurd h (by decide)

/-- A Content-Length of -1: the NUL behind the body is written before its block. -/
theorem not_inside : ¬ ∀ (c : Conn) (es : List Event), AllInside (control.run c es).2 := by
  intro h
  have hrun := h (Conn.receiving "R\r\nContent-Length: -1\r\n\r\n") [.message exhausted]
  revert hrun
  decide

end RtspBounds

end SqueezeliteMuse
