/-
SqueezeliteMuse/MessageText.lean

How the text of a message comes into the queues of messaging.c.

`messaging_post_message` formats its arguments, for the length first and then into the message.
`log_send_messaging` and `cmd_send_messaging` format theirs too, and then call it with the text
they have for a format, and no arguments.  So the text is formatted twice, where the line they
write to the log has it behind a "%s".  (A `va_list` is handed over by value on this processor, so
it can be used for both calls.)

What the C library makes of a format is a parameter.  Of a format without arguments it is known:
"%%" is a percent sign, and any other conversion is undefined.

Main result: `text_kept_iff`: the text comes through `messaging_post_message` as it is, and through
the other two if and only if it has no percent sign and no NUL.
-/
import SqueezeliteMuse.Lib.CString

namespace SqueezeliteMuse

namespace Messaging

open CString

/-! ### The code -/

/-- `messaging_types` -/
inductive MessagingType
  | info | warning | error
  deriving DecidableEq

/-- `messaging_classes` -/
inductive MessagingClass
  | ota | system | stats | cfgcmd | bt
  deriving DecidableEq

/-- `single_message_t`.  `message` is all that is behind the header. -/
structure Message where
  sentTime : ℕ
  type : MessagingType
  msgClass : MessagingClass
  msgSize : ℕ
  message : List UInt8
  deriving DecidableEq

/-- `sizeof(single_message_t)` -/
def messageHeader : ℕ := 16

/-- What `vsprintf` makes of a format, where there are no arguments. -/
def plainFormat : List UInt8 → Option (List UInt8)
  | [] => some []
  | 37 :: 37 :: fmt => (plainFormat fmt).map (37 :: ·)
  | 37 :: _ => none
  | c :: fmt => (plainFormat fmt).map (c :: ·)

/-- `vsnprintf` and `vsprintf`; `none` where what they do is undefined. -/
structure Printf (Arg : Type*) where
  text : List UInt8 → List Arg → Option (List UInt8)
  noArgs : ∀ fmt, text fmt [] = plainFormat fmt

/-- What becomes of a call: a message that is posted, or nothing at all where there is no memory
for the text. -/
inductive Sent
  | undefined
  | nothing
  | posted (m : Message)
  deriving DecidableEq

section Code

variable {Arg : Type*} (p : Printf Arg) (now : ℕ)

/-- `messaging_post_message` up to the queues. -/
def postMessage (type : MessagingType) (msgClass : MessagingClass) (fmt : List UInt8)
    (va : List Arg) : Sent :=
  match p.text fmt va with
  | none => .undefined
  | some text =>
      let ln := text.length + 1
      .posted
        { sentTime := now
          type := type
          msgClass := msgClass
          msgSize := messageHeader + ln
          message := text ++ [0] }

/-- `log_send_messaging`; `memory` says whether there is some for `message_txt`. -/
def logSendMessaging (memory : Bool) (msgtype : MessagingType) (fmt : List UInt8)
    (va : List Arg) : Sent :=
  match p.text fmt va with
  | none => .undefined
  | some text =>
      if memory then postMessage p now msgtype .system (CString.cstr (text ++ [0])) [] else .nothing

/-- `cmd_send_messaging` -/
def cmdSendMessaging (memory : Bool) (cmdname : List UInt8) (msgtype : MessagingType)
    (fmt : List UInt8) (va : List Arg) : Sent :=
  match p.text fmt va with
  | none => .undefined
  | some text =>
      if memory then
        postMessage p now msgtype .cfgcmd
          (CString.cstr (CString.cstr cmdname ++ 10 :: text ++ [0])) []
      else .nothing

end Code

/-! ### What is to be stored -/

/-- If a message is posted, it has the text, with its NUL, and its size covers both. -/
def Keeps (text : List UInt8) : Sent → Prop
  | .undefined => False
  | .nothing => True
  | .posted m => m.message = text ++ [0] ∧ m.msgSize = messageHeader + m.message.length

/-- A text that is the same when it is formatted again. -/
def Clean (text : List UInt8) : Prop := 37 ∉ text ∧ 0 ∉ text

instance (text : List UInt8) : Decidable (Clean text) := inferInstanceAs (Decidable (_ ∧ _))

/-! ### Formats without arguments -/

section Formats

variable {fmt text : List UInt8}

/-- Without a percent sign a format is its text. -/
theorem plainFormat_of_clean (h : 37 ∉ fmt) : plainFormat fmt = some fmt := by
  induction fmt with
  | nil => rfl
  | cons c fmt ih =>
      obtain ⟨hc, hfmt⟩ := not_or.mp (List.mem_cons.not.mp h)
      rw [plainFormat, ih hfmt]
      · rfl
      · rintro - rfl
        exact absurd rfl hc
      · rintro rfl
        exact absurd rfl hc

/-- No text is longer than its format, and one with a percent sign is shorter. -/
theorem plainFormat_length (h : plainFormat fmt = some text) :
    text.length ≤ fmt.length ∧ (37 ∈ fmt → text.length < fmt.length) := by
  induction fmt using plainFormat.induct generalizing text with
  | case1 =>
      obtain rfl := Option.some.inj h
      exact ⟨Nat.le_refl _, fun hmem => absurd hmem List.not_mem_nil⟩
  | case2 fmt ih =>
      rw [plainFormat] at h
      obtain ⟨rest, hrest, rfl⟩ := Option.map_eq_some_iff.mp h
      have hle := (ih hrest).1
      simp only [List.length_cons]
      exact ⟨by omega, fun _ => by omega⟩
  | case3 fmt hne =>
      rw [plainFormat] at h
      · cases h
      · exact hne
  | case4 c fmt hne hne' ih =>
      rw [plainFormat] at h
      · obtain ⟨rest, hrest, rfl⟩ := Option.map_eq_some_iff.mp h
        obtain ⟨hle, hlt⟩ := ih hrest
        simp only [List.length_cons]
        refine ⟨by omega, fun hmem => ?_⟩
        rcases List.mem_cons.mp hmem with rfl | hmem
        · exact absurd rfl hne'
        · have := hlt hmem
          omega
      · exact hne
      · exact hne'

end Formats

/-! ### The three calls -/

section Calls

variable {Arg : Type*} {p : Printf Arg} {fmt text : List UInt8} {va : List Arg}

theorem cstr_append_nul (text : List UInt8) : CString.cstr (text ++ [0]) = CString.cstr text := by
  induction text with
  | nil => rfl
  | cons c text ih =>
      rw [CString.cstr, CString.cstr, List.cons_append, List.takeWhile_cons, List.takeWhile_cons]
      split
      · exact congrArg (c :: ·) ih
      · rfl

/-- What is formatted once is stored as it is. -/
theorem keeps_postMessage (hfmt : p.text fmt va = some text) (now : ℕ) (type : MessagingType)
    (msgClass : MessagingClass) : Keeps text (postMessage p now type msgClass fmt va) := by
  rw [postMessage, hfmt]
  exact ⟨rfl, by simp⟩

/-- A text that is the format of a call without arguments is stored as it is where it is clean. -/
theorem keeps_again (p : Printf Arg) (now : ℕ) (type : MessagingType) (msgClass : MessagingClass)
    (text : List UInt8) :
    Keeps text (postMessage p now type msgClass (CString.cstr (text ++ [0])) []) ↔ Clean text := by
  rw [cstr_append_nul]
  constructor
  · intro h
    rw [postMessage, p.noArgs] at h
    rcases hplain : plainFormat (CString.cstr text) with - | again
    · rw [hplain] at h
      exact h.elim
    · rw [hplain] at h
      obtain rfl : again = text := List.append_cancel_right h.1
      obtain ⟨hle, hlt⟩ := plainFormat_length hplain
      -- the string ends where the text does
      have hsub : CString.cstr again <+: again := List.takeWhile_prefix _
      have hsame : CString.cstr again = again := hsub.eq_of_length_le hle
      rw [hsame] at hlt
      refine ⟨fun hmem => Nat.lt_irrefl _ (hlt hmem), fun hmem => ?_⟩
      have hall := List.takeWhile_eq_self_iff.mp hsame 0 hmem
      simp at hall
  · intro h
    rw [cstr_eq_self h.2]
    exact keeps_postMessage ((p.noArgs text).trans (plainFormat_of_clean h.1)) now type msgClass

/-- What the three calls store of the text that the format makes of the arguments. -/
theorem text_kept_iff (p : Printf Arg) (now : ℕ) (memory : Bool) (type : MessagingType)
    (msgClass : MessagingClass) (cmdname : List UInt8) (hfmt : p.text fmt va = some text) :
    Keeps text (postMessage p now type msgClass fmt va) ∧
      (Keeps text (logSendMessaging p now memory type fmt va) ↔
        memory = false ∨ Clean text) ∧
      (Keeps (CString.cstr cmdname ++ 10 :: text)
          (cmdSendMessaging p now memory cmdname type fmt va) ↔
        memory = false ∨ Clean (CString.cstr cmdname ++ 10 :: text)) := by
  refine ⟨keeps_postMessage hfmt now type msgClass, ?_, ?_⟩
  · rw [logSendMessaging, hfmt]
    cases memory with
    | false => exact iff_of_true trivial (.inl rfl)
    | true => exact (keeps_again p now type .system text).trans (or_iff_right Bool.noConfusion).symm
  · rw [cmdSendMessaging, hfmt]
    cases memory with
    | false => exact iff_of_true trivial (.inl rfl)
    | true =>
        exact (keeps_again p now type .cfgcmd (CString.cstr cmdname ++ 10 :: text)).trans
          (or_iff_right Bool.noConfusion).symm

/-- Formats with no conversion but "%s". -/
def strings : List UInt8 → List (List UInt8) → Option (List UInt8)
  | [], _ => some []
  | 37 :: 37 :: fmt, va => (strings fmt va).map (37 :: ·)
  | 37 :: 115 :: fmt, s :: va => (strings fmt va).map (s ++ ·)
  | 37 :: _, _ => none
  | c :: fmt, va => (strings fmt va).map (c :: ·)

/-- The C library on such formats. -/
def stringPrintf : Printf (List UInt8) where
  text := strings
  noArgs fmt := by
    induction fmt using plainFormat.induct with
    | case1 => rfl
    | case2 fmt ih => rw [strings, plainFormat, ih]
    | case3 fmt => simp [strings, plainFormat]
    | case4 c fmt _ _ ih => simp [strings, plainFormat, ih]

/-- "scan done", by "%s done". -/
def scanFormat : List UInt8 := CString.ascii "%s done"

def scanArgs : List (List UInt8) := [CString.ascii "scan"]

def scanText : List UInt8 := CString.ascii "scan done"

theorem scan_kept :
    Keeps scanText (postMessage stringPrintf 7 .info .ota scanFormat scanArgs) ∧
      (Keeps scanText (logSendMessaging stringPrintf 7 true .info scanFormat scanArgs) ↔
        true = false ∨ Clean scanText) ∧
      (Keeps (CString.cstr (CString.ascii "wifi") ++ 10 :: scanText)
          (cmdSendMessaging stringPrintf 7 true (CString.ascii "wifi") .info scanFormat scanArgs) ↔
        true = false ∨ Clean (CString.cstr (CString.ascii "wifi") ++ 10 :: scanText)) :=
  text_kept_iff stringPrintf 7 true .info .ota (CString.ascii "wifi") (by decide)

/-- "50%% done" is stored as "50% done". -/
theorem percent_lost :
    ¬ ∀ (p : Printf (List UInt8)) (now : ℕ) (memory : Bool) (type : MessagingType)
      (fmt : List UInt8) (va : List (List UInt8)) (text : List UInt8), p.text fmt va = some text →
      Keeps text (logSendMessaging p now memory type fmt va) := by
  intro h
  have hkeeps := h stringPrintf 0 true .info (CString.ascii "%s") [CString.ascii "50%% done"]
    (CString.ascii "50%% done") (by decide)
  have hstored : logSendMessaging stringPrintf 0 true .info (CString.ascii "%s")
      [CString.ascii "50%% done"] =
        .posted ⟨0, .info, .system, 25, CString.ascii "50% done" ++ [0]⟩ := by decide
  rw [hstored] at hkeeps
  have htext := hkeeps.1
  revert htext
  decide

end Calls

end Messaging

end SqueezeliteMuse
