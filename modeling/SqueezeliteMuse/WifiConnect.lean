/-
SqueezeliteMuse/WifiConnect.lean

`connect_post_handler` and `post_handler_buff_receive` of http_server_handlers.c.

The body is received in a scratch buffer, whose bound is checked with a signed length.  The
three members of the request are copied without a look at their types.  A missing password is
measured as it is, and the host name is stored before the request is refused or not.

Main result: `handled_iff`: a request is handled as it should be if and only if its length is
no negative number, its members are strings, an SSID comes with a password, and a request
that is refused has no new host name.
-/
import SqueezeliteMuse.ConfigStore
import SqueezeliteMuse.HttpResource

namespace SqueezeliteMuse

namespace WifiConnect

open HttpResource
open CString (ascii cstr strlcpy CaseEq)

export CString (ascii cstr)

/-! ### The code -/

/-- A request: its length, and what each call of `httpd_req_recv` gives, until one gives nothing.
In all that is at most the content. -/
structure Request where
  uri : Uri
  route : path uri.bytes = ascii "/connect.json"
  contentLen : UInt32
  pieces : List (List UInt8)
  atMost : pieces.flatten.length ≤ contentLen.toNat

/-- `SCRATCH_BUFSIZE` -/
def scratchBufsize : ℕ := 10240

/-- `MAX_SSID_SIZE`, which is also the size of `sta.ssid` -/
def maxSsidSize : ℕ := 32

/-- `MAX_PASSWORD_SIZE`, which is also the size of `sta.password` -/
def maxPasswordSize : ℕ := 64

/-- The scratch buffer, `wifi_manager_config_sta`, in which other fields follow the SSID and the
password, and the settings. -/
structure State where
  scratch : List UInt8
  scratchSize : scratch.length = scratchBufsize
  sta : List UInt8
  staSize : maxSsidSize + maxPasswordSize < sta.length
  settings : Config

/-- An item of `cJSON`, as far as it is used: a value that is no string has no `valuestring`. -/
structure Item where
  string : Option (List UInt8)
  valuestring : Option (List UInt8)

/-- `total_len` -/
def totalLen (r : Request) : ℤ := r.contentLen.toBitVec.toInt

/-- What `httpd_req_recv` writes at `buf + cur_len`; `none` if it leaves the buffer. -/
def recvAt (buf : List UInt8) (curLen : ℕ) (piece : List UInt8) : Option (List UInt8) :=
  if curLen + piece.length ≤ buf.length then
    some (buf.take curLen ++ piece ++ buf.drop (curLen + piece.length))
  else none

def notReceived : HttpErr := ⟨.internalServerError, "Not all data was received"⟩

/-- The loop of `post_handler_buff_receive`. -/
def receiveFrom (total : ℤ) : List (List UInt8) → ℕ → List UInt8 →
    Option (Except HttpErr (List UInt8))
  | [], curLen, buf => if curLen < total then some (.error notReceived) else some (.ok buf)
  | piece :: pieces, curLen, buf =>
      if curLen < total then
        if piece = [] then some (.error notReceived)
        else (recvAt buf curLen piece).bind (receiveFrom total pieces (curLen + piece.length))
      else some (.ok buf)

/-- `post_handler_buff_receive`: the buffer. -/
def postHandlerBuffReceive (r : Request) (scratch : List UInt8) :
    Option (Except HttpErr (List UInt8)) :=
  if scratchBufsize ≤ totalLen r then some (.error ⟨.internalServerError, "Content too long"⟩)
  else
    (receiveFrom (totalLen r) r.pieces 0 scratch).bind fun
      | .error err => some (.error err)
      | .ok buf =>
          if 0 ≤ totalLen r ∧ totalLen r < buf.length then
            some (.ok (buf.set (totalLen r).toNat 0))
          else none

/-- `cJSON_GetObjectItem` -/
def getObjectItem (root : List Item) (name : List UInt8) : Option Item :=
  root.find? fun item => item.string.any fun s => CaseEq s name

/-- A member that is copied with `strdup`, if there is one; `none` for a NULL that is copied. -/
def copyMember (root : List Item) (name : List UInt8) : Option (Option (List UInt8)) :=
  match getObjectItem root name with
  | none => some none
  | some item => item.valuestring.map some

/-- The condition for the order; `none` if the length of a NULL is asked for. -/
def acceptable (ssid password : Option (List UInt8)) : Option Bool :=
  match ssid with
  | none => some false
  | some ssid =>
      if ssid.length ≤ maxSsidSize then
        password.map fun password => decide (password.length ≤ maxPasswordSize)
      else some false

/-- The new `wifi_config_t`. -/
def newConfig (size : ℕ) (ssid : List UInt8) (password : Option (List UInt8)) :
    Option (List UInt8) := do
  let config ← strlcpy (List.replicate size 0) 0 ssid (maxSsidSize + 1)
  match password with
  | none => some config
  | some password => strlcpy config maxSsidSize password (maxPasswordSize + 1)

/-- What a request leaves. -/
structure Outcome where
  sta : List UInt8
  settings : Config
  /-- `wifi_manager_connect_async` is called -/
  ordered : Bool
  answer : Except HttpErr String

def parsingError : HttpErr := ⟨.internalServerError, "JSON parsing error."⟩

def malformed : HttpErr := ⟨.badRequest, "Malformed json. Missing or invalid ssid/password."⟩

section Handler

variable (espVfsPathMax : ℕ) (atof : List UInt8 → ℚ) (parse : List UInt8 → Option (List Item))

/-- An error, with the settings as they are by then. -/
def refuse (st : State) (settings : Config) (err : HttpErr) : Outcome :=
  ⟨st.sta, settings, false, .error err⟩

/-- `config_set_value`, of the host name if there is one. -/
def saveHostName (settings : Config) : Option (List UInt8) → Config
  | none => settings
  | some hostName =>
      (settings.setValueSafe atof .enough (ascii "host_name") (.value (.str hostName))).2

/-- `connect_post_handler`, from the members on. -/
def connect (st : State) (root : List Item) : Option Outcome := do
  let ssid ← copyMember root (ascii "ssid")
  let password ← copyMember root (ascii "pwd")
  let hostName ← copyMember root (ascii "host_name")
  let settings := saveHostName atof st.settings hostName
  if ← acceptable ssid password then
    let config ← newConfig st.sta.length (ssid.getD []) password
    some ⟨config, settings, true, .ok "\x7b\x7d"⟩
  else some (refuse st settings malformed)

/-- `connect_post_handler`; `parse` is `cJSON_Parse`, with the items of the root. -/
def connectPostHandler (r : Request) (st : State) : Option Outcome := do
  match ← postHandlerBuffReceive r st.scratch with
  | .error err => some (refuse st st.settings err)
  | .ok buf =>
      match ← setContentTypeFromReq espVfsPathMax r.uri.bytes with
      | .error err => some (refuse st st.settings err)
      | .ok _ =>
          match parse (cstr buf) with
          | none => some (refuse st st.settings parsingError)
          | some root => connect atof st root

end Handler

/-! ### What it is for -/

/-- The text of a member, if it is a string. -/
def given (root : List Item) (name : List UInt8) : Option (List UInt8) :=
  (getObjectItem root name).bind Item.valuestring

/-- All that was received before a call gave nothing. -/
def body (r : Request) : List UInt8 := (r.pieces.takeWhile (· ≠ [])).flatten

/-- A field of some size that holds a text, and then zeros. -/
def field (size : ℕ) (text : List UInt8) : List UInt8 :=
  text ++ List.replicate (size - text.length) 0

/-- A configuration of this SSID and this password and nothing else. -/
def station (size : ℕ) (ssid password : List UInt8) : List UInt8 :=
  field maxSsidSize ssid ++ field maxPasswordSize password ++
    List.replicate (size - (maxSsidSize + maxPasswordSize)) 0

variable (m : ℕ) (atof : List UInt8 → ℚ) (parse : List UInt8 → Option (List Item))

/-- No NULL is read and nothing is written outside; and a connection is ordered to the network
that is given, or the request is refused and nothing has changed. -/
def Handled (r : Request) (st : State) : Prop :=
  ∃ o, connectPostHandler m atof parse r st = some o ∧
    ((∃ root ssid, parse (cstr (body r)) = some root ∧ given root (ascii "ssid") = some ssid ∧
        ssid.length ≤ maxSsidSize ∧ ((given root (ascii "pwd")).getD []).length ≤ maxPasswordSize ∧
        o.ordered = true ∧ (∃ text, o.answer = .ok text) ∧
        o.sta = station st.sta.length ssid ((given root (ascii "pwd")).getD [])) ∨
      (o.ordered = false ∧ (∃ err, o.answer = .error err) ∧ o.sta = st.sta ∧
        o.settings.entries = st.settings.entries))

/-- The request is one for a connection. -/
def Accepts (root : List Item) : Prop :=
  ∃ ssid password, given root (ascii "ssid") = some ssid ∧ ssid.length ≤ maxSsidSize ∧
    given root (ascii "pwd") = some password ∧ password.length ≤ maxPasswordSize

/-- The settings have this host name already, as the setting would have it. -/
def Kept (settings : Config) (hostName : List UInt8) : Prop :=
  ∃ e, settings.entries.lookup (ascii "host_name") = some e ∧
    Config.changedEntry atof .enough (.value (.str hostName)) e = e

/-- A request on which no slip of the code shows. -/
structure Sound (settings : Config) (root : List Item) : Prop where
  strings : ∀ name ∈ [ascii "ssid", ascii "pwd", ascii "host_name"], ∀ item,
    getObjectItem root name = some item → item.valuestring.isSome = true
  password : ∀ ssid, given root (ascii "ssid") = some ssid → ssid.length ≤ maxSsidSize →
    (given root (ascii "pwd")).isSome = true
  hostName : ∀ hostName, given root (ascii "host_name") = some hostName →
    Accepts root ∨ Kept atof settings hostName

/-! ### Receiving -/

section Receive

variable {r : Request}

theorem totalLen_small (h : r.contentLen.toNat < 2 ^ 31) : totalLen r = r.contentLen.toNat := by
  rw [totalLen, BitVec.toInt_eq_toNat_cond, if_pos (by simpa using (by omega))]
  rfl

theorem totalLen_large (h : ¬ r.contentLen.toNat < 2 ^ 31) : totalLen r < 0 := by
  have hlt := r.contentLen.toBitVec.isLt
  rw [totalLen, BitVec.toInt_eq_toNat_cond, if_neg (by simpa using (by omega))]
  simp only [UInt32.toNat_toBitVec] at hlt ⊢
  omega

/-- The pieces are put one behind the other, up to a call that gives nothing. -/
theorem receiveFrom_eq {total : ℕ} {pieces : List (List UInt8)} {curLen : ℕ} {buf : List UInt8}
    (hpieces : curLen + pieces.flatten.length ≤ total) (hbuf : total ≤ buf.length) :
    receiveFrom total pieces curLen buf =
      if curLen + (pieces.takeWhile (· ≠ [])).flatten.length = total then
        some (.ok (buf.take curLen ++ (pieces.takeWhile (· ≠ [])).flatten ++ buf.drop total))
      else some (.error notReceived) := by
  induction pieces generalizing curLen buf with
  | nil =>
      simp only [List.takeWhile_nil, List.flatten_nil, List.length_nil, Nat.add_zero,
        List.append_nil, receiveFrom, Int.ofNat_lt] at hpieces ⊢
      split
      case isTrue hlt => rw [if_neg (by omega)]
      case isFalse hge =>
        obtain rfl : curLen = total := by omega
        rw [if_pos rfl, List.take_append_drop]
  | cons piece pieces ih =>
      rw [List.flatten_cons, List.length_append] at hpieces
      simp only [receiveFrom, Int.ofNat_lt]
      by_cases hempty : piece = []
      · subst hempty
        simp only [List.takeWhile_cons, ne_eq, not_true_eq_false, decide_false,
          Bool.false_eq_true, if_false, List.flatten_nil, List.length_nil, Nat.add_zero, if_true,
          List.append_nil]
        split
        case isTrue hlt => rw [if_neg (by omega)]
        case isFalse hge =>
          obtain rfl : curLen = total := by omega
          rw [if_pos rfl, List.take_append_drop]
      · have hpos := List.length_pos_iff.mpr hempty
        have hlen : (buf.take curLen).length = curLen := by
          rw [List.length_take]
          omega
        have htaken : (buf.take curLen ++ piece).length = curLen + piece.length := by
          rw [List.length_append, hlen]
        rw [if_pos (by omega), if_neg hempty, recvAt, if_pos (by omega), Option.bind_some,
          List.takeWhile_cons_of_pos (by simpa using hempty), List.flatten_cons,
          List.length_append, ← Nat.add_assoc, ih (by omega)]
        · rw [List.take_left' htaken, List.drop_append, htaken]
          have hdrop : (buf.take curLen ++ piece).drop total = [] :=
            List.drop_eq_nil_of_le (by omega)
          have htotal : curLen + piece.length + (total - (curLen + piece.length)) = total := by
            omega
          rw [hdrop, List.nil_append, List.drop_drop, htotal, List.append_assoc (buf.take curLen)]
        · simp only [List.length_append, List.length_drop, hlen]
          omega

/-- All of the content has been received. -/
def Received (r : Request) : Prop := (body r).length = r.contentLen.toNat

variable {scratch : List UInt8}

theorem postHandlerBuffReceive_large (h : ¬ r.contentLen.toNat < 2 ^ 31) :
    postHandlerBuffReceive r scratch = none := by
  have hneg := totalLen_large h
  have hloop : receiveFrom (totalLen r) r.pieces 0 scratch = some (.ok scratch) := by
    cases r.pieces <;> exact if_neg (by omega)
  rw [postHandlerBuffReceive, if_neg (by omega), hloop]
  exact if_neg (by omega)

theorem postHandlerBuffReceive_long (h : r.contentLen.toNat < 2 ^ 31)
    (hlong : ¬ r.contentLen.toNat < scratchBufsize) :
    ∃ err, postHandlerBuffReceive r scratch = some (.error err) :=
  ⟨_, if_pos (by rw [totalLen_small h]; omega)⟩

theorem postHandlerBuffReceive_lost (hscratch : scratch.length = scratchBufsize)
    (h : r.contentLen.toNat < scratchBufsize) (hlost : ¬ Received r) :
    ∃ err, postHandlerBuffReceive r scratch = some (.error err) := by
  have hatMost := r.atMost
  have htotal : totalLen r = r.contentLen.toNat := totalLen_small (h.trans (by decide))
  refine ⟨notReceived, ?_⟩
  rw [postHandlerBuffReceive, htotal, if_neg (by omega), receiveFrom_eq (by omega) (by omega),
    if_neg (by rw [Nat.zero_add]; exact hlost), Option.bind_some]

/-- The scratch buffer holds the body as a string. -/
theorem postHandlerBuffReceive_ok (hscratch : scratch.length = scratchBufsize)
    (h : r.contentLen.toNat < scratchBufsize) (hall : Received r) :
    ∃ buf, postHandlerBuffReceive r scratch = some (.ok buf) ∧ cstr buf = cstr (body r) := by
  have hatMost := r.atMost
  have htotal : totalLen r = r.contentLen.toNat := totalLen_small (h.trans (by decide))
  have hlt : r.contentLen.toNat < scratch.length := by omega
  have hset : (scratch.take 0 ++ body r ++ scratch.drop r.contentLen.toNat).set
      r.contentLen.toNat 0 = body r ++ 0 :: scratch.drop (r.contentLen.toNat + 1) := by
    have hend : r.contentLen.toNat - (body r).length = 0 := by
      rw [hall, Nat.sub_self]
    rw [List.take_zero, List.nil_append, List.set_append_right _ _ (le_of_eq hall), hend,
      List.drop_eq_getElem_cons hlt, List.set_cons_zero]
  refine ⟨_, ?_, CString.cstr_append_nul (body r) (scratch.drop (r.contentLen.toNat + 1))⟩
  rw [postHandlerBuffReceive, htotal, if_neg (by omega), receiveFrom_eq (by omega) (by omega),
    if_pos (by rw [Nat.zero_add]; exact hall), Option.bind_some]
  simp only
  have hbody : (body r).length = r.contentLen.toNat := hall
  have hindex : (r.contentLen.toNat : ℤ) <
      (scratch.take 0 ++ body r ++ scratch.drop r.contentLen.toNat).length := by
    simp only [List.length_append, List.length_take, List.length_drop]
    omega
  rw [if_pos ⟨Int.natCast_nonneg _, hindex⟩, Int.toNat_natCast]
  exact congrArg (fun buf => some (Except.ok buf)) hset

end Receive

/-! ### The members, the configuration and the settings -/

section Members

variable {root : List Item} {name : List UInt8}

theorem copyMember_given (h : ∀ item, getObjectItem root name = some item →
    item.valuestring.isSome = true) : copyMember root name = some (given root name) := by
  rw [copyMember, given]
  rcases hitem : getObjectItem root name with - | item
  · rfl
  · obtain ⟨value, hvalue⟩ := Option.isSome_iff_exists.mp (h item hitem)
    simp [hvalue]

/-- Where a NULL is copied. -/
theorem copyMember_cases (root : List Item) (name : List UInt8) :
    copyMember root name = some (given root name) ∧
        (∀ item, getObjectItem root name = some item → item.valuestring.isSome = true) ∨
      copyMember root name = none ∧
        ¬ ∀ item, getObjectItem root name = some item → item.valuestring.isSome = true := by
  by_cases h : ∀ item, getObjectItem root name = some item → item.valuestring.isSome = true
  · exact .inl ⟨copyMember_given h, h⟩
  · refine .inr ⟨?_, h⟩
    obtain ⟨item, hitem, hvalue⟩ : ∃ item, getObjectItem root name = some item ∧
        item.valuestring = none := by simpa using h
    rw [copyMember, hitem]
    simp [hvalue]

theorem newConfig_eq {size : ℕ} {ssid password : List UInt8} (hssid : ssid.length ≤ maxSsidSize)
    (hpassword : password.length ≤ maxPasswordSize) (hsize : maxSsidSize + maxPasswordSize < size) :
    newConfig size ssid (some password) = some (station size ssid password) := by
  simp only [maxSsidSize, maxPasswordSize] at hssid hpassword hsize
  have hfirst : strlcpy (List.replicate size 0) 0 ssid (maxSsidSize + 1)
      = some (ssid ++ List.replicate (size - ssid.length) 0) := by
    have hzeros : size - ssid.length = size - (ssid.length + 1) + 1 := by omega
    rw [CString.strlcpy_eq (by simp only [maxSsidSize]; omega)
      (by rw [List.length_replicate]; omega), List.take_zero, List.nil_append, Nat.zero_add,
      List.drop_replicate, hzeros, List.replicate_succ]
  have hpassword' : password.length < maxPasswordSize + 1 := by
    simp only [maxPasswordSize]
    omega
  simp only [newConfig, hfirst, Option.bind_eq_bind, Option.bind_some]
  rw [CString.strlcpy_eq hpassword' ?_]
  · -- behind both texts there are only zeros
    have htake : (ssid ++ List.replicate (size - ssid.length) (0 : UInt8)).take maxSsidSize
        = field maxSsidSize ssid := by
      have hmin : min (maxSsidSize - ssid.length) (size - ssid.length)
          = maxSsidSize - ssid.length := min_eq_left (by simp only [maxSsidSize]; omega)
      have hself : ssid.take maxSsidSize = ssid := List.take_of_length_le hssid
      rw [List.take_append, hself, List.take_replicate, hmin, field]
    have hdrop : (ssid ++ List.replicate (size - ssid.length) (0 : UInt8)).drop
        (maxSsidSize + (password.length + 1))
        = List.replicate (size - (maxSsidSize + (password.length + 1))) 0 := by
      have hnil : ssid.drop (maxSsidSize + (password.length + 1)) = [] :=
        List.drop_eq_nil_of_le (by simp only [maxSsidSize]; omega)
      rw [List.drop_append, hnil, List.nil_append, List.drop_replicate]
      congr 1
      simp only [maxSsidSize]
      omega
    have hzeros : (maxPasswordSize - password.length) + (size - (maxSsidSize + maxPasswordSize))
        = size - (maxSsidSize + (password.length + 1)) + 1 := by
      simp only [maxSsidSize, maxPasswordSize]
      omega
    rw [htake, hdrop, station, field, field, ← List.replicate_succ, ← hzeros,
      List.replicate_add]
    simp only [List.append_assoc]
  · simp only [List.length_append, List.length_replicate, maxSsidSize]
    omega

theorem acceptable_some {ssid password : Option (List UInt8)}
    (h : ∀ s, ssid = some s → s.length ≤ maxSsidSize → password.isSome = true) :
    ∃ ok, acceptable ssid password = some ok ∧
      (ok = true ↔ ∃ s p, ssid = some s ∧ s.length ≤ maxSsidSize ∧
        password = some p ∧ p.length ≤ maxPasswordSize) := by
  rcases ssid with - | s
  · exact ⟨false, rfl, by simp⟩
  · rw [acceptable]
    split
    case isTrue hs =>
      obtain ⟨p, rfl⟩ := Option.isSome_iff_exists.mp (h s rfl hs)
      exact ⟨_, rfl, by simp [hs]⟩
    case isFalse hs => exact ⟨false, rfl, by simp; omega⟩

theorem acceptable_none {ssid : List UInt8} (h : ssid.length ≤ maxSsidSize) :
    acceptable (some ssid) none = none := by
  rw [acceptable, if_pos h, Option.map_none]

end Members

section Settings

variable {settings : Config} {hostName : List UInt8}

theorem isChanged_eq {e : ConfigEntry} {x : Bool} (h : e.chg = some x) : e.isChanged = x := by
  rw [ConfigEntry.isChanged, h, Option.getD_some]

/-- The settings change unless they have the host name. -/
theorem saveHostName_entries :
    (saveHostName atof settings (some hostName)).entries = settings.entries ↔
      Kept atof settings hostName := by
  rw [saveHostName, Kept]
  rcases Config.setValueSafe_cases atof settings .enough (ascii "host_name")
    (.value (.str hostName)) with ⟨hno, -⟩ | ⟨e, hold, hsame, heq⟩ | ⟨e, hold, hdiff, heq⟩ |
    ⟨hold, heq⟩
  · cases hno
  · rw [heq]
    exact iff_of_true rfl ⟨e, hold, hsame⟩
  · rw [heq]
    refine iff_of_false (fun h => hdiff ?_) ?_
    · have hself : Config.changedEntry atof .enough (.value (.str hostName)) e
          = settings.setFlag true
            (Config.changedEntry atof .enough (.value (.str hostName)) e) true := by
        -- the entry is its own replacement, so its flag is the one that is set
        have hnew := Keyed.eq_of_replaceFirst h (by simp [sameName]) hold
        have hchg : (Config.changedEntry atof .enough (.value (.str hostName)) e).chg
            = some e.isChanged := rfl
        have hflag : e.chg = some (true && !settings.loading) := by
          rw [← hnew, Config.setFlag, hchg]
        rw [isChanged_eq hflag] at hchg
        conv_rhs => rw [Config.setFlag, hchg]
        simp only
        rw [← hchg]
      rw [hself]
      exact Keyed.eq_of_replaceFirst h (by simp [sameName]) hold
    · rintro ⟨e', hold', hsame⟩
      obtain rfl := Option.some.inj (hold.symm.trans hold')
      exact hdiff hsame
  · rw [heq]
    refine iff_of_false (fun h => ?_) ?_
    · have hlen := congrArg List.length h
      simp [ConfigMemory.enough] at hlen
    · rintro ⟨e, hold', -⟩
      rw [hold] at hold'
      cases hold'

end Settings

/-! ### The request -/

section Requests

variable {m : ℕ} {atof : List UInt8 → ℚ} {parse : List UInt8 → Option (List Item)}
variable {r : Request} {st : State} {root : List Item}

/-- The content type of the page is set. -/
theorem setContentTypeFromReq_route (r : Request) :
    ∃ type, setContentTypeFromReq m r.uri.bytes = some (.ok type) := by
  have hlen : (path r.uri.bytes).length = 13 := by
    rw [r.route]
    rfl
  have hfits : Fits m r.uri.bytes := by
    rw [Fits, hlen, filePathMax]
    omega
  obtain ⟨type, htype⟩ := Option.isSome_iff_exists.mp
    ((isSome_setContentTypeFromFile (m := m) r.uri.noNul).mpr (.inr (.inl (by omega))))
  have hlast : (path r.uri.bytes).getLast? = some 110 := by
    rw [r.route]
    rfl
  exact ⟨type, by rw [setContentTypeFromReq_fits r.uri.noNul hfits, hlast, Option.bind_some, htype,
    Option.map_some]⟩

/-- A request that is sound is ordered or refused. -/
theorem connect_sound (h : Sound atof st.settings root) :
    ∃ o, connect atof st root = some o ∧
      ((Accepts root ∧ o.ordered = true ∧ (∃ text, o.answer = .ok text) ∧
          ∀ ssid password, given root (ascii "ssid") = some ssid →
            given root (ascii "pwd") = some password → o.sta = station st.sta.length ssid password) ∨
        (¬ Accepts root ∧ o.ordered = false ∧ (∃ err, o.answer = .error err) ∧ o.sta = st.sta ∧
          o.settings.entries = st.settings.entries)) := by
  have hssid := copyMember_given (h.strings (ascii "ssid") (by simp))
  have hpwd := copyMember_given (h.strings (ascii "pwd") (by simp))
  have hhost := copyMember_given (h.strings (ascii "host_name") (by simp))
  obtain ⟨ok, hok, haccepts⟩ := acceptable_some h.password
  change ok = true ↔ Accepts root at haccepts
  simp only [connect, hssid, hpwd, hhost, hok, Option.bind_eq_bind, Option.bind_some]
  by_cases hacc : Accepts root
  · obtain ⟨ssid, password, hs, hslen, hp, hplen⟩ := id hacc
    rw [if_pos (haccepts.mpr hacc), hs, hp, Option.getD_some, newConfig_eq hslen hplen st.staSize,
      Option.bind_some]
    refine ⟨_, rfl, .inl ⟨hacc, rfl, ⟨_, rfl⟩, ?_⟩⟩
    rintro _ _ ⟨⟩ ⟨⟩
    rfl
  · rw [if_neg (mt haccepts.mp hacc)]
    refine ⟨_, rfl, .inr ⟨hacc, rfl, ⟨_, rfl⟩, rfl, ?_⟩⟩
    rcases hname : given root (ascii "host_name") with - | hostName
    · rfl
    · exact (saveHostName_entries atof).mpr ((h.hostName hostName hname).resolve_left hacc)

/-- A request that is not is answered wrongly, or reads a NULL. -/
theorem connect_unsound {o : Outcome} (h : connect atof st root = some o) :
    Sound atof st.settings root ∨ (¬ Accepts root ∧ o.ordered = false ∧
      o.settings.entries ≠ st.settings.entries) := by
  simp only [connect, Option.bind_eq_bind] at h
  rcases copyMember_cases root (ascii "ssid") with ⟨hssid, hs⟩ | ⟨hssid, -⟩
  swap
  · rw [hssid, Option.bind_none] at h
    cases h
  rcases copyMember_cases root (ascii "pwd") with ⟨hpwd, hp⟩ | ⟨hpwd, -⟩
  swap
  · rw [hssid, hpwd, Option.bind_some, Option.bind_none] at h
    cases h
  rcases copyMember_cases root (ascii "host_name") with ⟨hhost, hn⟩ | ⟨hhost, -⟩
  swap
  · rw [hssid, hpwd, hhost, Option.bind_some, Option.bind_some, Option.bind_none] at h
    cases h
  rw [hssid, hpwd, hhost] at h
  simp only [Option.bind_some] at h
  have hstrings : ∀ name ∈ [ascii "ssid", ascii "pwd", ascii "host_name"], ∀ item,
      getObjectItem root name = some item → item.valuestring.isSome = true := by
    intro name hname
    simp only [List.mem_cons, List.not_mem_nil, or_false] at hname
    rcases hname with rfl | rfl | rfl
    · exact hs
    · exact hp
    · exact hn
  have hpassword : ∀ ssid, given root (ascii "ssid") = some ssid → ssid.length ≤ maxSsidSize →
      (given root (ascii "pwd")).isSome = true := by
    intro ssid hssid' hlen
    by_contra hno
    rw [hssid', Option.not_isSome_iff_eq_none.mp hno, acceptable_none hlen] at h
    cases h
  obtain ⟨ok, hok, haccepts⟩ := acceptable_some hpassword
  change ok = true ↔ Accepts root at haccepts
  by_cases hacc : Accepts root
  · exact .inl ⟨hstrings, hpassword, fun _ _ => .inl hacc⟩
  · rw [hok, Option.bind_some, if_neg (mt haccepts.mp hacc)] at h
    obtain rfl := Option.some.inj h
    rcases hname : given root (ascii "host_name") with - | hostName
    · exact .inl ⟨hstrings, hpassword, fun _ h => absurd (hname.symm.trans h) (by simp)⟩
    by_cases hkept : Kept atof st.settings hostName
    · refine .inl ⟨hstrings, hpassword, fun hostName' h => .inr ?_⟩
      exact Option.some.inj (hname.symm.trans h) ▸ hkept
    · refine .inr ⟨hacc, rfl, fun hsame => hkept ((saveHostName_entries atof).mp ?_)⟩
      exact hsame

theorem handled_of_error {err : HttpErr}
    (h : postHandlerBuffReceive r st.scratch = some (.error err)) : Handled m atof parse r st :=
  ⟨refuse st st.settings err, by simp [connectPostHandler, h],
    .inr ⟨rfl, ⟨_, rfl⟩, rfl, rfl⟩⟩

theorem connectPostHandler_received (hlen : r.contentLen.toNat < scratchBufsize)
    (hall : Received r) : connectPostHandler m atof parse r st =
      match parse (cstr (body r)) with
      | none => some (refuse st st.settings parsingError)
      | some root => connect atof st root := by
  obtain ⟨buf, hbuf, hbody⟩ := postHandlerBuffReceive_ok st.scratchSize hlen hall
  obtain ⟨type, htype⟩ := setContentTypeFromReq_route (m := m) r
  simp only [connectPostHandler, hbuf, htype, hbody, Option.bind_eq_bind, Option.bind_some]

theorem handled_received_iff (hlen : r.contentLen.toNat < scratchBufsize) (hall : Received r) :
    Handled m atof parse r st ↔
      ∀ root, parse (cstr (body r)) = some root → Sound atof st.settings root := by
  rw [Handled, connectPostHandler_received hlen hall]
  rcases hparse : parse (cstr (body r)) with - | root
  · refine iff_of_true ⟨_, rfl, .inr ⟨rfl, ⟨_, rfl⟩, rfl, rfl⟩⟩ fun root h => ?_
    cases h
  constructor
  · rintro ⟨o, ho, hresult⟩ root' ⟨⟩
    rcases connect_unsound ho with hsound | ⟨-, hordered, hchanged⟩
    · exact hsound
    · rcases hresult with ⟨-, -, -, -, -, -, hord, -⟩ | ⟨-, -, -, hsame⟩
      · rw [hordered] at hord
        cases hord
      · exact absurd hsame hchanged
  · intro h
    obtain ⟨o, ho, ⟨⟨ssid, password, hs, hslen, hp, hplen⟩, hordered, hanswer, hsta⟩ |
      ⟨-, hrefused⟩⟩ := connect_sound (h root rfl)
    · have hpassword : (given root (ascii "pwd")).getD [] = password := by rw [hp, Option.getD_some]
      refine ⟨o, ho, .inl ⟨root, ssid, rfl, hs, hslen, ?_, hordered, hanswer, ?_⟩⟩
      · rw [hpassword]
        exact hplen
      · rw [hpassword]
        exact hsta ssid password hs hp
    · exact ⟨o, ho, .inr hrefused⟩

end Requests

theorem handled_iff (r : Request) (st : State) :
    Handled m atof parse r st ↔ r.contentLen.toNat < 2 ^ 31 ∧
      (r.contentLen.toNat < scratchBufsize → Received r →
        ∀ root, parse (cstr (body r)) = some root → Sound atof st.settings root) := by
  by_cases hsmall : r.contentLen.toNat < 2 ^ 31
  swap
  · refine iff_of_false ?_ fun h => hsmall h.1
    rintro ⟨o, ho, -⟩
    simp only [connectPostHandler, postHandlerBuffReceive_large hsmall, Option.bind_eq_bind,
      Option.bind_none] at ho
    cases ho
  by_cases hlen : r.contentLen.toNat < scratchBufsize
  swap
  · obtain ⟨err, herr⟩ := @postHandlerBuffReceive_long _ st.scratch hsmall hlen
    exact iff_of_true (handled_of_error herr) ⟨hsmall, fun h => absurd h hlen⟩
  by_cases hall : Received r
  · rw [handled_received_iff hlen hall]
    exact ⟨fun h => ⟨hsmall, fun _ _ => h⟩, fun h => h.2 hlen hall⟩
  · obtain ⟨err, herr⟩ := postHandlerBuffReceive_lost st.scratchSize hlen hall
    exact iff_of_true (handled_of_error herr) ⟨hsmall, fun _ h => absurd h hall⟩

/-- The request for an open network. -/
def openNetwork : Request where
  uri := ⟨ascii "/connect.json", by decide⟩
  route := by decide
  contentLen := 14
  pieces := [ascii "\x7b\"ssid\":\"net\"\x7d"]
  atMost := by decide

def idle : State where
  scratch := List.replicate scratchBufsize 0
  scratchSize := List.length_replicate
  sta := List.replicate 97 0
  staSize := by decide
  settings := Config.start []

/-- The length of the password is asked for that no open network has. -/
theorem open_network_fails : ¬ ∀ m atof parse r st, Handled m atof parse r st := by
  intro h
  obtain ⟨o, ho, -⟩ := h 15 (fun _ => 0)
    (fun s => if s = body openNetwork then some [⟨some (ascii "ssid"), some (ascii "net")⟩] else none)
    openNetwork idle
  have hself : cstr (body openNetwork) = body openNetwork := by decide
  have hlen : (body openNetwork).length = openNetwork.contentLen.toNat := by decide
  rw [connectPostHandler_received (by decide) hlen, hself] at ho
  simp only [if_true] at ho
  cases ho

end WifiConnect

end SqueezeliteMuse
