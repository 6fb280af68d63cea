/-
SqueezeliteMuse/MetadataFormat.lean

`displayer_metadata` of display.c.

The format is scanned with one pointer, which is moved to the value where a token has one; what
it points to then decides whether the text behind the token is skipped.  The format begins
behind the first `=` of the whole configuration, and the text behind the last token is copied
whatever that token was.  A token is taken for the one it begins with, and is read into sixteen
bytes whatever its length.

Main result: `formats_iff`: the text is the format with the values in place of the tokens, if no
option with a value comes first, all tokens are known, and no text has to be skipped behind a
field that is missing or behind the last token; and, for the configurations whose percent signs
all belong to whole tokens of the format, only then.
-/
import SqueezeliteMuse.Lib.CString
import SqueezeliteMuse.Utf8

namespace SqueezeliteMuse

namespace Metadata

open CString

export CString (ascii tolower cstr)

/-! ### The code -/

/-- The arguments; `none` for NULL. -/
structure Track where
  artist : Option (List UInt8)
  album : Option (List UInt8)
  title : Option (List UInt8)

/-- `PARSE_PARAM` -/
def parseParam (config name : List UInt8) (sep : UInt8) (old : ℤ) : ℤ :=
  match strcasestr config name with
  | none => old
  | some p =>
      match p.dropWhile (· ≠ sep) with
      | [] => old
      | _ :: value => atol value

/-- `strncat`, to a string that has room for so many characters and a NUL; `none` if it writes
behind it. -/
def strncat (size : ℕ) (string src : List UInt8) (n : ℕ) : Option (List UInt8) :=
  if string.length + min n src.length ≤ size then some (string ++ src.take n) else none

/-- The size of `token` -/
def tokenSize : ℕ := 16

/-- What `sscanf` returns: less than zero, or not, with the characters that are put in `token`. -/
inductive Scanned
  | eof
  | read (token : List UInt8)

/-- `sscanf(p, "%*[^%%]%%%[^%]%%", token)`: the end of the string, before a token has been read,
is an error; a character that does not match is none. -/
def scanToken (p : List UInt8) : Scanned :=
  match p.dropWhile (· ≠ 37) with
  | [] => .eof
  | _ :: rest =>
      if p.head? = some 37 then .read []
      else if rest = [] then .eof
      else .read (rest.takeWhile (· ≠ 37))

/-- `strncasecmp` of a token with a name finds no difference. -/
def Names (name q : List UInt8) : Prop := CaseEq (q.take name.length) name

instance (name q : List UInt8) : Decidable (Names name q) :=
  inferInstanceAs (Decidable (CaseEq _ _))

/-- The value that is copied, if any. -/
def content (track : Track) (q : List UInt8) : Option (List UInt8) :=
  if Names (ascii "artist") q ∧ track.artist.isSome then track.artist
  else if Names (ascii "album") q ∧ track.album.isSome then track.album
  else if Names (ascii "title") q ∧ track.title.isSome then track.title
  else none

/-- How much is copied of the text behind the last token. -/
def lastCount (p : List UInt8) (space : ℕ) : ℕ :=
  if 44 ∈ p then min (p.takeWhile (· ≠ 44)).length space else space

/-- `while (p++)`; `space` is `len - strlen(string)`, where the string has room for `len`. -/
def rounds (len : ℕ) (track : Track) (p string : List UInt8) (space : ℕ) (skip : Bool) :
    Option (List UInt8) :=
  match scanToken p with
  | .eof => strncat len string p (lastCount p space)
  | .read token =>
      if tokenSize < token.length + 1 then none
      else
        match _hq : p.dropWhile (· ≠ 37) with
        | [] => some string
        | _ :: q =>
            let before :=
              if skip then some string
              else strncat len string p (min (p.takeWhile (· ≠ 37)).length space)
            before.bind fun string =>
              let space := if skip then space else len - string.length
              (strncat len string ((content track q).getD []) space).bind fun string =>
                match _hp : q.dropWhile (· ≠ 37) with
                | [] => some string
                | _ :: next =>
                    rounds len track next string (len - string.length)
                      (decide ((content track q).getD p = []))
termination_by p.length
decreasing_by
  have hq' := congrArg List.length _hq
  have hp' := congrArg List.length _hp
  have h₁ := (List.dropWhile_suffix (· ≠ 37) (l := p)).length_le
  have h₂ := (List.dropWhile_suffix (· ≠ 37) (l := q)).length_le
  simp only [List.length_cons] at hq' hp'
  omega

/-- The text before it is converted. -/
def formatText (len : ℕ) (config : List UInt8) (track : Track) : Option (List UInt8) :=
  if (strcasestr config (ascii "format")).isSome then
    match config.dropWhile (· ≠ 61) with
    | [] => some []
    | _ :: p => rounds len track p [] len false
  else some ((track.title.getD []).take len)

/-- The width of a text, and of the line. -/
structure Screen where
  measure : List UInt8 → ℤ
  textWidth : ℤ

/-- The loop of `GDS_TextStretch`, as long as there is room. -/
def stretchLoop (screen : Screen) (boundary : ℤ) : ℕ → List UInt8 → ℕ → List UInt8
  | 0, string, _ => string
  | room + 1, string, extra =>
      if screen.measure string - boundary < screen.textWidth then
        stretchLoop screen boundary room (string ++ (string.drop extra).take 1) (extra + 1)
      else string

/-- `GDS_TextStretch` -/
def textStretch (screen : Screen) (string : List UInt8) (max : ℕ) : List UInt8 × ℤ :=
  if screen.measure string ≤ screen.textWidth then (string, 0)
  else
    let spaced := string ++ (List.replicate 5 32).take (max - string.length)
    (stretchLoop screen (screen.measure spaced) (max - spaced.length) spaced 0,
      screen.measure spaced)

/-- `displayer`, as far as it is used -/
structure Displayer where
  string : List UInt8
  metadataConfig : Option (List UInt8)
  speed : ℤ
  pause : ℤ
  offset : ℤ
  boundary : ℤ

/-- `displayer_metadata`, where `len` is `SCROLLABLE_SIZE` and a NULL screen is `none`. -/
def displayerMetadata (len : ℕ) (screen : Option Screen) (displayer : Displayer) (track : Track) :
    Option Displayer :=
  match screen, displayer.metadataConfig with
  | none, _ => some displayer
  | some _, none => some { displayer with string := (track.title.getD []).take len }
  | some screen, some config =>
      (formatText len config track).map fun text =>
        let shown := textStretch screen (cstr (Cp1252.emitted 0 0 text)) len
        { displayer with
          string := shown.1
          speed := parseParam config (ascii "speed") 61 displayer.speed
          pause := parseParam config (ascii "pause") 61 displayer.pause
          offset := 0
          boundary := shown.2 }

/-! ### What it is for -/

/-- A token, and the text behind it. -/
structure Token where
  name : List UInt8
  text : List UInt8
  plain : 37 ∉ name ∧ 44 ∉ name ∧ 37 ∉ text ∧ 44 ∉ text

def Token.bytes (t : Token) : List UInt8 := 37 :: t.name ++ 37 :: t.text

/-- A configuration with a format, among other options. -/
structure Settings where
  before : List (List UInt8)
  text : List UInt8
  tokens : List Token
  after : List (List UInt8)
  plain : 37 ∉ text ∧ 44 ∉ text
  options : ∀ o ∈ before ++ after, 44 ∉ o

/-- The options behind the format. -/
def Settings.rest (s : Settings) : List UInt8 := s.after.flatMap fun o => 44 :: o

def Settings.bytes (s : Settings) : List UInt8 :=
  (s.before.flatMap fun o => o ++ [44]) ++ ascii "format=" ++ s.text ++
    s.tokens.flatMap Token.bytes ++ s.rest

/-- The field that a token names. -/
def known (track : Track) (name : List UInt8) : Option (Option (List UInt8)) :=
  if CaseEq name (ascii "artist") then some track.artist
  else if CaseEq name (ascii "album") then some track.album
  else if CaseEq name (ascii "title") then some track.title
  else none

/-- What stands for a token and the text behind it: the value, and the text if there is one; a token
that is not known stays as it is. -/
def Token.shown (track : Track) (t : Token) : List UInt8 :=
  match known track t.name with
  | none => t.bytes
  | some value => value.getD [] ++ if value.getD [] = [] then [] else t.text

/-- The format with its values. -/
def Settings.expected (s : Settings) (track : Track) : List UInt8 :=
  s.text ++ s.tokens.flatMap (Token.shown track)

/-- Whatever room there is, the text is the format with its values as far as there is room, and the
string never gets longer. -/
def Formats (s : Settings) (track : Track) : Prop :=
  ∀ len screen displayer, displayer.metadataConfig = some s.bytes →
    formatText len s.bytes track = some ((s.expected track).take len) ∧
    ∃ d, displayerMetadata len (some screen) displayer track = some d ∧ d.string.length ≤ len

/-- What follows the first `=` of these options, up to the end of the option. -/
def firstValue : List (List UInt8) → Option (List UInt8)
  | [] => none
  | o :: os => if 61 ∈ o then some (o.dropWhile (· ≠ 61)).tail else firstValue os

/-- The field is empty or missing. -/
def Empty (track : Track) (t : Token) : Prop :=
  known track t.name = some none ∨ known track t.name = some (some [])

/-- Behind a field that is missing, and at the end, there is no text that has to be skipped. -/
def Dropped (track : Track) (ts : List Token) : Prop :=
  ∀ a t b, ts = a ++ t :: b → Empty track t →
    b = [] ∨ known track t.name = some none → t.text = []

/-- A configuration and a track on which no slip of the code shows. -/
structure Fine (s : Settings) (track : Track) : Prop where
  first : firstValue s.before = none ∨
    ((∀ o ∈ s.before, 37 ∉ o) ∧ s.tokens = [] ∧ firstValue s.before = some s.text)
  after : ∀ o ∈ s.after, 37 ∉ o
  known : ∀ t ∈ s.tokens, (known track t.name).isSome = true
  dropped : Dropped track s.tokens

/-- The token does not begin with a name and go on. -/
def Whole (t : Token) : Prop :=
  ∀ name ∈ [ascii "artist", ascii "album", ascii "title"], Names name t.name → CaseEq t.name name

/-- The percent signs all belong to tokens of the format, and these are no longer than a name that
they begin with. -/
structure Simple (s : Settings) : Prop where
  options : ∀ o ∈ s.before ++ s.after, 37 ∉ o
  whole : ∀ t ∈ s.tokens, Whole t

/-! ### Copying with the room there is -/

section Copying

variable {len : ℕ} {string src : List UInt8}

theorem take_append_take (a b : List UInt8) (n : ℕ) : (a.take n ++ b).take n = (a ++ b).take n := by
  rcases le_total n a.length with h | h
  · rw [List.take_append_of_le_length h, List.take_append_of_le_length (by simp [h]),
      List.take_take, min_self]
  · rw [List.take_of_length_le h]

theorem strncat_eq (h : string.length ≤ len) (a : ℕ) :
    strncat len string src (min a (len - string.length)) = some ((string ++ src.take a).take len) := by
  have hfit : string.length + min (min a (len - string.length)) src.length ≤ len := by omega
  rw [strncat, if_pos hfit, List.take_append, List.take_of_length_le h, List.take_take, min_comm]

theorem strncat_all (h : string.length ≤ len) :
    strncat len string src (len - string.length) = some ((string ++ src).take len) := by
  have hfit : string.length + min (len - string.length) src.length ≤ len := by omega
  rw [strncat, if_pos hfit, List.take_append, List.take_of_length_le h]

end Copying

/-! ### A token -/

section Tokens

variable {lit name rest : List UInt8} {c : UInt8}

theorem dropWhile_append_char (h : c ∉ lit) (rest : List UInt8) :
    (lit ++ c :: rest).dropWhile (· ≠ c) = c :: rest := by
  rw [List.dropWhile_append_of_pos fun x hx => decide_eq_true (ne_of_mem_of_not_mem hx h),
    List.dropWhile_cons_of_neg (by simp)]

theorem takeWhile_append_char (h : c ∉ lit) (rest : List UInt8) :
    (lit ++ c :: rest).takeWhile (· ≠ c) = lit := by
  rw [List.takeWhile_append_of_pos fun x hx => decide_eq_true (ne_of_mem_of_not_mem hx h),
    List.takeWhile_cons_of_neg (by simp), List.append_nil]

theorem takeWhile_ne (h : c ∉ lit) : lit.takeWhile (· ≠ c) = lit :=
  List.takeWhile_eq_self_iff.mpr fun _ hx => decide_eq_true (ne_of_mem_of_not_mem hx h)

theorem scanToken_eof (h : 37 ∉ lit) : scanToken lit = .eof := by
  have hnil : lit.dropWhile (· ≠ 37) = [] :=
    List.dropWhile_eq_nil_iff.mpr fun x hx => decide_eq_true (ne_of_mem_of_not_mem hx h)
  rw [scanToken, hnil]

/-- The token is read if there is a text in front of it. -/
theorem scanToken_token (hlit : 37 ∉ lit) (hname : 37 ∉ name) :
    scanToken (lit ++ 37 :: (name ++ 37 :: rest)) = .read (if lit = [] then [] else name) := by
  rw [scanToken, dropWhile_append_char hlit]
  rcases lit with - | ⟨c, lit⟩
  · rfl
  · have hc : ¬ (c :: lit ++ 37 :: (name ++ 37 :: rest)).head? = some 37 := by
      simp only [List.mem_cons, not_or] at hlit
      simpa using Ne.symm hlit.1
    have hne : ¬ name ++ 37 :: rest = [] := by simp
    simp only
    rw [if_neg hc, if_neg hne, takeWhile_append_char hname, if_neg (List.cons_ne_nil c lit)]

theorem names_append {word : List UInt8} (hword : 37 ∉ word.map tolower) (name rest : List UInt8) :
    Names word (name ++ 37 :: rest) ↔ Names word name := by
  rcases le_or_gt word.length name.length with h | h
  · rw [Names, List.take_append_of_le_length h, Names]
  · -- a shorter token ends with its percent sign
    refine iff_of_false (fun heq => hword ?_) fun heq => ?_
    · rw [← show _ = _ from heq, List.take_append, List.map_append]
      obtain ⟨n, hn⟩ := Nat.exists_eq_add_of_lt h
      rw [show word.length - name.length = n + 1 by omega, List.take_succ_cons, List.map_cons]
      exact List.mem_append_right _ List.mem_cons_self
    · have hlen := congrArg List.length heq
      rw [List.length_map, List.length_map, List.length_take] at hlen
      omega

theorem content_append (track : Track) (name rest : List UInt8) :
    content track (name ++ 37 :: rest) = content track name := by
  simp only [content, names_append (show 37 ∉ (ascii "artist").map tolower by decide),
    names_append (show 37 ∉ (ascii "album").map tolower by decide),
    names_append (show 37 ∉ (ascii "title").map tolower by decide)]

end Tokens

/-! ### The loop -/

/-- What is written, with the text in front of the tokens. -/
def written (track : Track) : Bool → List UInt8 → List Token → List UInt8
  | _, lit, [] => lit.takeWhile (· ≠ 44)
  | skip, lit, t :: ts =>
      (if skip then [] else lit) ++ (content track t.name).getD [] ++
        written track (decide (content track t.name = some [])) t.text ts

/-- A token that is read is too long. -/
def overflows : List UInt8 → List Token → Bool
  | _, [] => false
  | lit, t :: ts => decide (lit ≠ [] ∧ tokenSize ≤ t.name.length) || overflows t.text ts

section Rounds

variable {len : ℕ} {track : Track} {rest : List UInt8}

theorem rounds_token {p q next string token : List UInt8} {space : ℕ} {skip : Bool}
    (hscan : scanToken p = .read token) (htoken : token.length < tokenSize)
    (hq : p.dropWhile (· ≠ 37) = 37 :: q) (hnext : q.dropWhile (· ≠ 37) = 37 :: next) :
    rounds len track p string space skip =
      (if skip then some string
        else strncat len string p (min (p.takeWhile (· ≠ 37)).length space)).bind fun string =>
      (strncat len string ((content track q).getD [])
        (if skip then space else len - string.length)).bind fun string =>
      rounds len track next string (len - string.length)
        (decide ((content track q).getD p = [])) := by
  rw [rounds, hscan]
  simp only
  rw [if_neg (by omega)]
  split
  case h_1 heq =>
    rw [hq] at heq
    cases heq
  case h_2 q' heq =>
    rw [hq] at heq
    obtain rfl := (List.cons.inj heq).2
    congr 1
    funext string
    congr 1
    funext string
    split
    case h_1 heq =>
      rw [hnext] at heq
      cases heq
    case h_2 next' heq =>
      rw [hnext] at heq
      rw [(List.cons.inj heq).2]

theorem rounds_overflow {p string token : List UInt8} {space : ℕ} {skip : Bool}
    (hscan : scanToken p = .read token) (htoken : tokenSize ≤ token.length) :
    rounds len track p string space skip = none := by
  rw [rounds, hscan]
  exact if_pos (by omega)

theorem rounds_eq (hrest : 37 ∉ rest) (hcomma : rest.takeWhile (· ≠ 44) = []) (ts : List Token)
    {lit string : List UInt8} {skip : Bool} (hlit : 37 ∉ lit) (hstring : string.length ≤ len) :
    rounds len track (lit ++ (ts.flatMap Token.bytes ++ rest)) string (len - string.length) skip =
      if overflows lit ts then none
      else some ((string ++ written track skip lit ts).take len) := by
  induction ts generalizing lit string skip with
  | nil =>
      have hp : 37 ∉ lit ++ rest := by simp [hlit, hrest]
      have htail : (lit ++ rest).takeWhile (· ≠ 44) = lit.takeWhile (· ≠ 44) := by
        rw [List.takeWhile_append, hcomma, List.append_nil]
        split
        case isTrue h => exact (List.IsPrefix.eq_of_length (List.takeWhile_prefix _) h).symm
        case isFalse => rfl
      rw [List.flatMap_nil, List.nil_append, rounds, scanToken_eof hp, overflows,
        if_neg Bool.false_ne_true, written]
      simp only [lastCount]
      split
      case isTrue =>
        rw [strncat_eq hstring, ← List.prefix_iff_eq_take.mp (List.takeWhile_prefix _), htail]
      case isFalse hno => rw [strncat_all hstring, ← htail, takeWhile_ne hno]
  | cons t ts ih =>
      obtain ⟨hname, -, htext, -⟩ := t.plain
      have hp : lit ++ ((t :: ts).flatMap Token.bytes ++ rest)
          = lit ++ 37 :: (t.name ++ 37 :: (t.text ++ (ts.flatMap Token.bytes ++ rest))) := by
        simp only [List.flatMap_cons, Token.bytes, List.cons_append, List.append_assoc]
      rw [hp, overflows]
      by_cases hlong : lit ≠ [] ∧ tokenSize ≤ t.name.length
      · rw [decide_eq_true hlong, Bool.true_or, if_pos rfl]
        refine rounds_overflow (scanToken_token hlit hname) ?_
        rw [if_neg hlong.1]
        exact hlong.2
      have hshort : (if lit = [] then [] else t.name).length < tokenSize := by
        split
        case isTrue => exact Nat.succ_pos _
        case isFalse hne => exact not_le.mp fun h => hlong ⟨hne, h⟩
      have hskip : decide ((content track t.name).getD
          (lit ++ 37 :: (t.name ++ 37 :: (t.text ++ (ts.flatMap Token.bytes ++ rest)))) = [])
          = decide (content track t.name = some []) := by
        rcases content track t.name with - | value
        · simp
        · simp
      have hbefore : (if skip = true then some string
            else strncat len string
              (lit ++ 37 :: (t.name ++ 37 :: (t.text ++ (ts.flatMap Token.bytes ++ rest))))
              (min lit.length (len - string.length)))
          = some ((string ++ if skip = true then [] else lit).take len) := by
        split
        case isTrue => rw [List.append_nil, List.take_of_length_le hstring]
        case isFalse => rw [strncat_eq hstring, List.take_left]
      have hspace : (if skip = true then len - string.length
            else len - ((string ++ if skip = true then [] else lit).take len).length)
          = len - ((string ++ if skip = true then [] else lit).take len).length := by
        split
        case isTrue => rw [List.append_nil, List.take_of_length_le hstring]
        case isFalse => rfl
      have hlen (x : List UInt8) : (x.take len).length ≤ len := by
        rw [List.length_take]
        exact min_le_left _ _
      rw [decide_eq_false hlong, Bool.false_or, rounds_token (scanToken_token hlit hname) hshort
        (dropWhile_append_char hlit _) (dropWhile_append_char hname _),
        takeWhile_append_char hlit, hbefore, Option.bind_some, hspace, content_append,
        strncat_all (hlen _), Option.bind_some, hskip, ih htext (hlen _), written]
      simp only [take_append_take, List.append_assoc]

end Rounds

/-! ### The place of the format -/

/-- What stands between the first `=` and the format. -/
def lead : List (List UInt8) → List UInt8
  | [] => []
  | o :: os =>
      if 61 ∈ o then
        (o.dropWhile (· ≠ 61)).tail ++ 44 :: (os.flatMap fun o => o ++ [44]) ++ ascii "format="
      else lead os

section Place

variable {os : List (List UInt8)}

theorem dropWhile_options (os : List (List UInt8)) (x : List UInt8) :
    ((os.flatMap fun o => o ++ [44]) ++ ascii "format=" ++ x).dropWhile (· ≠ 61)
      = 61 :: (lead os ++ x) := by
  induction os with
  | nil => rfl
  | cons o os ih =>
      rw [lead]
      split
      case isTrue h =>
        obtain ⟨a, b, rfl, ha⟩ := List.eq_append_cons_of_mem h
        simp only [List.flatMap_cons, List.append_assoc, List.cons_append]
        rw [dropWhile_append_char ha, dropWhile_append_char ha, List.tail_cons]
        simp only [List.nil_append]
      case isFalse h =>
        have hskip : ∀ c ∈ o ++ [44], decide (c ≠ 61) = true := by
          intro c hc
          rcases List.mem_append.mp hc with hc | hc
          · exact decide_eq_true (ne_of_mem_of_not_mem hc h)
          · rw [List.mem_singleton.mp hc]
            decide
        rw [List.flatMap_cons, List.append_assoc, List.append_assoc,
          List.dropWhile_append_of_pos hskip, ← List.append_assoc, ih]

theorem lead_of_none (h : firstValue os = none) : lead os = [] := by
  induction os with
  | nil => rfl
  | cons o os ih =>
      rw [firstValue] at h
      split at h
      case isTrue => cases h
      case isFalse hno => rw [lead, if_neg hno, ih h]

/-- An option with a value brings its comma. -/
theorem lead_of_some {value : List UInt8} (h : firstValue os = some value)
    (hcomma : ∀ o ∈ os, 44 ∉ o) : ∃ x, lead os = value ++ 44 :: x ∧ 44 ∉ value := by
  induction os with
  | nil => cases h
  | cons o os ih =>
      rw [firstValue] at h
      split at h
      case isTrue hmem =>
        rw [lead, if_pos hmem, ← Option.some.inj h]
        refine ⟨(os.flatMap fun o => o ++ [44]) ++ ascii "format=",
          by simp only [List.append_assoc, List.cons_append], fun hc => ?_⟩
        exact hcomma o List.mem_cons_self
          ((List.dropWhile_suffix _).subset (List.mem_of_mem_tail hc))
      case isFalse hno =>
        rw [lead, if_neg hno]
        exact ih h fun o ho => hcomma o (List.mem_cons_of_mem _ ho)

theorem percent_lead (h : ∀ o ∈ os, 37 ∉ o) : 37 ∉ lead os := by
  induction os with
  | nil => exact List.not_mem_nil
  | cons o os ih =>
      have hos : ∀ o ∈ os, 37 ∉ o := fun o ho => h o (List.mem_cons_of_mem _ ho)
      rw [lead]
      split
      case isTrue =>
        have htail : 37 ∉ (o.dropWhile (· ≠ 61)).tail := fun hc =>
          h o List.mem_cons_self ((List.dropWhile_suffix _).subset (List.mem_of_mem_tail hc))
        have hflat : 37 ∉ os.flatMap fun o => o ++ [44] := by
          rw [List.mem_flatMap]
          rintro ⟨o, ho, hc⟩
          rcases List.mem_append.mp hc with hc | hc
          · exact hos o ho hc
          · exact absurd (List.mem_singleton.mp hc) (by decide)
        have hformat : 37 ∉ ascii "format=" := by decide
        have hcomma : (37 : UInt8) ≠ 44 := by decide
        simp only [List.mem_append, List.mem_cons, htail, hflat, hformat, hcomma, or_self,
          not_false_eq_true]
      case isFalse => exact ih hos

variable (s : Settings)

theorem percent_rest (h : ∀ o ∈ s.after, 37 ∉ o) : 37 ∉ s.rest := by
  rw [Settings.rest, List.mem_flatMap]
  rintro ⟨o, ho, hc⟩
  rcases List.mem_cons.mp hc with hc | hc
  · exact absurd hc (by decide)
  · exact h o ho hc

theorem takeWhile_rest : s.rest.takeWhile (· ≠ 44) = [] := by
  rw [Settings.rest]
  rcases s.after with - | ⟨o, os⟩
  · rfl
  · rw [List.flatMap_cons, List.cons_append, List.takeWhile_cons_of_neg (by simp)]

theorem has_format : (strcasestr s.bytes (ascii "format")).isSome = true := by
  rw [strcasestr_isSome]
  refine ⟨(s.before.flatMap fun o => o ++ [44]).map tolower,
    (ascii "=" ++ s.text ++ s.tokens.flatMap Token.bytes ++ s.rest).map tolower, ?_⟩
  have hname : ascii "format=" = ascii "format" ++ ascii "=" := by decide
  simp only [Settings.bytes, hname, List.map_append, List.append_assoc]

theorem formatText_eq (hlead : 37 ∉ lead s.before) (hafter : ∀ o ∈ s.after, 37 ∉ o) (len : ℕ)
    (track : Track) : formatText len s.bytes track =
      if overflows (lead s.before ++ s.text) s.tokens then none
      else some ((written track false (lead s.before ++ s.text) s.tokens).take len) := by
  have hlit : 37 ∉ lead s.before ++ s.text := by simp [hlead, s.plain.1]
  have hbytes : s.bytes = (s.before.flatMap fun o => o ++ [44]) ++ ascii "format=" ++
      (s.text ++ (s.tokens.flatMap Token.bytes ++ s.rest)) := by
    simp only [Settings.bytes, List.append_assoc]
  have hrounds := @rounds_eq len track _ (percent_rest s hafter) (takeWhile_rest s) s.tokens _ _
    false hlit (show ([] : List UInt8).length ≤ len from Nat.zero_le len)
  rw [formatText, if_pos (has_format s), hbytes, dropWhile_options]
  simp only [List.length_nil, Nat.sub_zero, List.nil_append, List.append_assoc] at hrounds ⊢
  exact hrounds

end Place

/-! ### What is written, and what should be -/

section Texts

variable {track : Track}

/-- A token that is known gets the value of its field, where there is one. -/
theorem content_known {name : List UInt8} {value : Option (List UInt8)}
    (h : known track name = some value) : content track name = value := by
  have hnames {word other : List UInt8} (hw : CaseEq name word) :
      Names other name ↔ (word.map tolower).take other.length = other.map tolower := by
    rw [Names, CaseEq, List.map_take, hw]
  rw [known] at h
  split at h
  case isTrue hw =>
    obtain rfl := Option.some.inj h
    have h₁ : Names (ascii "artist") name := (hnames hw).mpr (by decide)
    have h₂ : ¬ Names (ascii "album") name := mt (hnames hw).mp (by decide)
    have h₃ : ¬ Names (ascii "title") name := mt (hnames hw).mp (by decide)
    rcases hv : track.artist with - | v <;> simp [content, h₁, h₂, h₃, hv]
  case isFalse =>
    split at h
    case isTrue hw =>
      obtain rfl := Option.some.inj h
      have h₁ : ¬ Names (ascii "artist") name := mt (hnames hw).mp (by decide)
      have h₂ : Names (ascii "album") name := (hnames hw).mpr (by decide)
      have h₃ : ¬ Names (ascii "title") name := mt (hnames hw).mp (by decide)
      rcases hv : track.album with - | v <;> simp [content, h₁, h₂, h₃, hv]
    case isFalse =>
      split at h
      case isTrue hw =>
        obtain rfl := Option.some.inj h
        have h₁ : ¬ Names (ascii "artist") name := mt (hnames hw).mp (by decide)
        have h₂ : ¬ Names (ascii "album") name := mt (hnames hw).mp (by decide)
        have h₃ : Names (ascii "title") name := (hnames hw).mpr (by decide)
        rcases hv : track.title with - | v <;> simp [content, h₁, h₂, h₃, hv]
      case isFalse => cases h

theorem length_known {name : List UInt8} (h : (known track name).isSome = true) :
    name.length ≤ 6 := by
  rw [known] at h
  have hlen {word : List UInt8} (hw : CaseEq name word) : name.length = word.length := by
    have heq := congrArg List.length hw
    rwa [List.length_map, List.length_map] at heq
  split at h
  case isTrue hw => exact (hlen hw).le
  case isFalse =>
    split at h
    case isTrue hw => exact (hlen hw).le.trans (by decide)
    case isFalse =>
      split at h
      case isTrue hw => exact (hlen hw).le.trans (by decide)
      case isFalse => cases h

theorem overflows_of_known {lit : List UInt8} {ts : List Token}
    (h : ∀ t ∈ ts, (known track t.name).isSome = true) : overflows lit ts = false := by
  induction ts generalizing lit with
  | nil => rfl
  | cons t ts ih =>
      have hlen := length_known (h t List.mem_cons_self)
      rw [overflows, ih fun t ht => h t (List.mem_cons_of_mem _ ht), Bool.or_false]
      refine decide_eq_false fun hlong => ?_
      have hsize := hlong.2
      simp only [tokenSize] at hsize
      omega

/-- The format from a text on, which is shown or not. -/
def shownFrom (track : Track) (skip : Bool) (lit : List UInt8) (ts : List Token) : List UInt8 :=
  (if skip then [] else lit) ++ ts.flatMap (Token.shown track)

theorem shownFrom_cons {t : Token} {value : Option (List UInt8)}
    (h : known track t.name = some value) (skip : Bool) (lit : List UInt8) (ts : List Token) :
    shownFrom track skip lit (t :: ts) = (if skip then [] else lit) ++ value.getD [] ++
      shownFrom track (decide (value.getD [] = [])) t.text ts := by
  simp only [shownFrom, List.flatMap_cons, Token.shown, h, decide_eq_true_eq, List.append_assoc]

theorem written_cons {t : Token} {value : Option (List UInt8)}
    (h : known track t.name = some value) (skip : Bool) (lit : List UInt8) (ts : List Token) :
    written track skip lit (t :: ts) = (if skip then [] else lit) ++ value.getD [] ++
      written track (decide (value = some [])) t.text ts := by
  rw [written, content_known h]

/-- Nothing is skipped that should be shown. -/
theorem length_shownFrom_le {ts : List Token} (h : ∀ t ∈ ts, (known track t.name).isSome = true)
    {lit : List UInt8} (hlit : 44 ∉ lit) {skip skip' : Bool} (hskip : skip = true → skip' = true) :
    (shownFrom track skip' lit ts).length ≤ (written track skip lit ts).length := by
  have hfirst : (if skip' = true then [] else lit).length ≤
      (if skip = true then [] else lit).length := by
    rcases skip with - | -
    · rcases skip' with - | - <;> simp
    · simp [hskip rfl]
  induction ts generalizing lit skip skip' with
  | nil =>
      rw [written, takeWhile_ne hlit, shownFrom, List.flatMap_nil, List.append_nil]
      split <;> simp
  | cons t ts ih =>
      obtain ⟨value, hvalue⟩ := Option.isSome_iff_exists.mp (h t List.mem_cons_self)
      have hdrop : decide (value = some []) = true → decide (value.getD [] = []) = true := by
        rcases value with - | v <;> simp
      have hle := ih (fun t ht => h t (List.mem_cons_of_mem _ ht)) t.plain.2.2.2 hdrop
        (by rcases value with - | - | - <;> simp)
      rw [shownFrom_cons hvalue, written_cons hvalue]
      simp only [List.length_append]
      omega

theorem dropped_cons {t : Token} {ts : List Token} :
    Dropped track (t :: ts) ↔
      (Empty track t → ts = [] ∨ known track t.name = some none → t.text = []) ∧
        Dropped track ts := by
  constructor
  · exact fun h => ⟨h [] t ts rfl, fun a u b hts => h (t :: a) u b (by rw [hts, List.cons_append])⟩
  · rintro ⟨hfirst, hrest⟩ (- | ⟨u, a⟩) v b hts
    · obtain ⟨rfl, rfl⟩ := List.cons.inj hts
      exact hfirst
    · exact hrest a v b (List.cons.inj hts).2

/-- What is skipped is what should be. -/
theorem written_eq_iff {ts : List Token} (h : ∀ t ∈ ts, (known track t.name).isSome = true)
    {lit : List UInt8} (hlit : 44 ∉ lit) {skip skip' : Bool} (hskip : skip = true → skip' = true) :
    written track skip lit ts = shownFrom track skip' lit ts ↔
      (skip' = true → skip = false ∨ ts = [] → lit = []) ∧ Dropped track ts := by
  induction ts generalizing lit skip skip' with
  | nil =>
      have hdropped : Dropped track [] := fun a t b hts => by simp at hts
      rw [written, takeWhile_ne hlit, shownFrom, List.flatMap_nil, List.append_nil]
      rcases skip' with - | -
      · simp [hdropped]
      · simp [hdropped]
  | cons t ts ih =>
      obtain ⟨value, hvalue⟩ := Option.isSome_iff_exists.mp (h t List.mem_cons_self)
      have hts : ∀ t ∈ ts, (known track t.name).isSome = true :=
        fun t ht => h t (List.mem_cons_of_mem _ ht)
      have hdrop : decide (value = some []) = true → decide (value.getD [] = []) = true := by
        rcases value with - | v <;> simp
      have hle := length_shownFrom_le hts t.plain.2.2.2 hdrop
      have hcond : (decide (value.getD [] = []) = true → decide (value = some []) = false ∨ ts = [] →
            t.text = []) ↔
          (Empty track t → ts = [] ∨ known track t.name = some none → t.text = []) := by
        rw [Empty, hvalue]
        rcases value with - | v
        · simp
        · by_cases hv : v = [] <;> simp [hv]
      rw [dropped_cons, ← hcond, ← ih hts t.plain.2.2.2 hdrop, written_cons hvalue,
        shownFrom_cons hvalue]
      constructor
      · intro heq
        -- the text in front is no longer than it should be, as what follows is no shorter
        have hlen := congrArg List.length heq
        simp only [List.length_append] at hlen
        have hfirst : (if skip = true then [] else lit).length =
            (if skip' = true then [] else lit).length := by
          rcases skip with - | -
          · rcases skip' with - | -
            · rfl
            · simp only [Bool.false_eq_true, if_false, if_true, List.length_nil] at hlen ⊢
              omega
          · simp [hskip rfl]
        have hsplit : ((if skip = true then [] else lit) ++ value.getD []).length =
            ((if skip' = true then [] else lit) ++ value.getD []).length := by
          rw [List.length_append, List.length_append, hfirst]
        refine ⟨fun hskip' hor => ?_, (List.append_inj heq hsplit).2⟩
        obtain rfl : skip = false := by simpa using hor
        simpa [hskip'] using hfirst
      · rintro ⟨hfirst, hrest⟩
        rw [hrest]
        congr 2
        rcases skip with - | -
        · rcases skip' with - | -
          · rfl
          · simp [hfirst rfl]
        · rw [hskip rfl]

end Texts

/-! ### Tokens that are not known -/

section Unknown

variable {track : Track}

theorem content_unknown {t : Token} (hwhole : Whole t) (h : known track t.name = none) :
    content track t.name = none := by
  have h₁ : ¬ CaseEq t.name (ascii "artist") := fun hw => by simp [known, hw] at h
  have h₂ : ¬ CaseEq t.name (ascii "album") := fun hw => by simp [known, h₁, hw] at h
  have h₃ : ¬ CaseEq t.name (ascii "title") := fun hw => by simp [known, h₁, h₂, hw] at h
  have hn₁ : ¬ Names (ascii "artist") t.name := mt (hwhole _ (by simp)) h₁
  have hn₂ : ¬ Names (ascii "album") t.name := mt (hwhole _ (by simp)) h₂
  have hn₃ : ¬ Names (ascii "title") t.name := mt (hwhole _ (by simp)) h₃
  simp [content, hn₁, hn₂, hn₃]

/-- The percent signs of the tokens that are not known are missing. -/
theorem count_written {ts : List Token} (hwhole : ∀ t ∈ ts, Whole t) {lit : List UInt8}
    (hlit : 37 ∉ lit) (skip : Bool) :
    (ts.flatMap (Token.shown track)).count 37 = (written track skip lit ts).count 37 +
      2 * ts.countP fun t => (known track t.name).isNone := by
  induction ts generalizing lit skip with
  | nil =>
      have hnone : 37 ∉ lit.takeWhile (· ≠ 44) := fun h =>
        hlit ((List.takeWhile_prefix _).subset h)
      rw [written, List.count_eq_zero_of_not_mem hnone]
      rfl
  | cons t ts ih =>
      obtain ⟨hname, -, htext, -⟩ := t.plain
      have hfirst : (if skip = true then [] else lit).count 37 = 0 := by
        split
        case isTrue => rfl
        case isFalse => exact List.count_eq_zero_of_not_mem hlit
      have hrest := ih (fun t ht => hwhole t (List.mem_cons_of_mem _ ht)) htext
        (decide (content track t.name = some []))
      have hzero : t.text.count 37 = 0 := List.count_eq_zero_of_not_mem htext
      rw [List.flatMap_cons, written, List.count_append, hrest, List.count_append,
        List.count_append, hfirst, List.countP_cons, Token.shown]
      rcases hknown : known track t.name with - | value
      · have hbytes : t.bytes.count 37 = 2 := by
          simp [Token.bytes, List.count_append, hzero, List.count_eq_zero_of_not_mem hname]
        simp only [hbytes, content_unknown (hwhole t List.mem_cons_self) hknown,
          Option.getD_none, List.count_nil, Option.isNone_none, if_true]
        omega
      · have hdropped : (if value.getD [] = [] then [] else t.text).count 37 = 0 := by
          split
          case isTrue => rfl
          case isFalse => exact hzero
        simp only [List.count_append, hdropped, content_known hknown, Option.isNone_some,
          Bool.false_eq_true, if_false]
        omega

end Unknown

/-! ### The string -/

theorem length_stretchLoop (screen : Screen) (boundary : ℤ) (room : ℕ) (string : List UInt8)
    (extra : ℕ) : (stretchLoop screen boundary room string extra).length ≤ string.length + room := by
  induction room generalizing string extra with
  | zero => exact le_rfl
  | succ room ih =>
      rw [stretchLoop]
      split
      case isTrue =>
        refine (ih _ _).trans ?_
        simp only [List.length_append, List.length_take]
        omega
      case isFalse => exact Nat.le_add_right _ _

/-- The text is not extended beyond the room there is. -/
theorem length_textStretch (screen : Screen) {string : List UInt8} {max : ℕ}
    (h : string.length ≤ max) : (textStretch screen string max).1.length ≤ max := by
  rw [textStretch]
  split
  case isTrue => exact h
  case isFalse =>
    refine (length_stretchLoop _ _ _ _ _).trans ?_
    simp only [List.length_append, List.length_take, List.length_replicate]
    omega

section Main

variable {s : Settings} {track : Track}

theorem formats_of_text
    (h : ∀ len, formatText len s.bytes track = some ((s.expected track).take len)) :
    Formats s track := by
  intro len screen displayer hconfig
  refine ⟨h len, ?_⟩
  simp only [displayerMetadata, hconfig, h len, Option.map_some]
  refine ⟨_, rfl, length_textStretch screen ?_⟩
  refine (List.takeWhile_prefix _).length_le.trans ((Cp1252.length_emitted _ _ _).trans ?_)
  rw [List.length_take]
  exact min_le_left _ _

theorem text_of_formats (h : Formats s track) (len : ℕ) :
    formatText len s.bytes track = some ((s.expected track).take len) :=
  (h len ⟨fun _ => 0, 0⟩ ⟨[], some s.bytes, 0, 0, 0, 0⟩ rfl).1

theorem formats_of_fine (h : Fine s track) : Formats s track := by
  refine formats_of_text fun len => ?_
  have hover {lit : List UInt8} : overflows lit s.tokens = false := overflows_of_known h.known
  rcases h.first with hnone | ⟨hbefore, htokens, hvalue⟩
  · have hlead : lead s.before = [] := lead_of_none hnone
    have htext : written track false s.text s.tokens = s.expected track :=
      (@written_eq_iff track _ h.known _ s.plain.2 false false id).mpr
        ⟨fun hfalse => absurd hfalse Bool.false_ne_true, h.dropped⟩
    rw [formatText_eq s (by rw [hlead]; exact List.not_mem_nil) h.after, hover,
      if_neg Bool.false_ne_true, hlead, List.nil_append, htext]
  · -- the value of the option in front happens to be the format
    obtain ⟨x, hx, hcomma⟩ := lead_of_some hvalue fun o ho => s.options o (by simp [ho])
    have htext : written track false (lead s.before ++ s.text) s.tokens = s.expected track := by
      rw [Settings.expected, htokens, written, hx, List.append_assoc, List.cons_append,
        takeWhile_append_char hcomma, List.flatMap_nil, List.append_nil]
    rw [formatText_eq s (percent_lead hbefore) h.after, hover, if_neg Bool.false_ne_true, htext]

theorem fine_of_formats (hsimple : Simple s) (h : Formats s track) : Fine s track := by
  have hbefore : ∀ o ∈ s.before, 37 ∉ o := fun o ho => hsimple.options o (by simp [ho])
  have hafter : ∀ o ∈ s.after, 37 ∉ o := fun o ho => hsimple.options o (by simp [ho])
  have hlit : 37 ∉ lead s.before ++ s.text := by simp [percent_lead hbefore, s.plain.1]
  have htext : written track false (lead s.before ++ s.text) s.tokens = s.expected track := by
    -- with enough room, all of both is seen
    have hrun := text_of_formats h (max
      (written track false (lead s.before ++ s.text) s.tokens).length (s.expected track).length)
    rw [formatText_eq s (percent_lead hbefore) hafter] at hrun
    split at hrun
    case isTrue => cases hrun
    case isFalse =>
      have heq := Option.some.inj hrun
      rwa [List.take_of_length_le (le_max_left _ _), List.take_of_length_le (le_max_right _ _)]
        at heq
  have hknown : ∀ t ∈ s.tokens, (known track t.name).isSome = true := by
    have hcount := @count_written track _ hsimple.whole _ hlit false
    have hzero : s.text.count 37 = 0 := List.count_eq_zero_of_not_mem s.plain.1
    rw [htext, Settings.expected, List.count_append, hzero] at hcount
    have hnone : s.tokens.countP (fun t => (known track t.name).isNone) = 0 := by omega
    intro t ht
    have hsome := List.countP_eq_zero.mp hnone t ht
    simpa [Option.isSome_iff_ne_none] using hsome
  rcases hvalue : firstValue s.before with - | value
  · rw [lead_of_none hvalue, List.nil_append] at htext
    have hdropped := ((@written_eq_iff track _ hknown _ s.plain.2 false false id).mp htext).2
    exact ⟨.inl hvalue, hafter, hknown, hdropped⟩
  obtain ⟨x, hx, hcomma⟩ := lead_of_some hvalue fun o ho => s.options o (by simp [ho])
  rcases htokens : s.tokens with - | ⟨t, ts⟩
  · rw [htokens, Settings.expected, htokens, written, hx, List.append_assoc, List.cons_append,
      takeWhile_append_char hcomma, List.flatMap_nil, List.append_nil] at htext
    refine ⟨.inr ⟨hbefore, htokens, by rw [hvalue, htext]⟩, hafter, hknown, fun a t b ht => ?_⟩
    rw [htokens] at ht
    simp at ht
  · -- what stands in front of the format is written as well
    exfalso
    rw [htokens] at hknown
    obtain ⟨v, hv⟩ := Option.isSome_iff_exists.mp (hknown t List.mem_cons_self)
    have hdrop : decide (v = some []) = true → decide (v.getD [] = []) = true := by
      rcases v with - | v <;> simp
    have hle := length_shownFrom_le (fun t ht => hknown t (List.mem_cons_of_mem _ ht)) t.plain.2.2.2
      hdrop
    have hexpected : s.expected track = shownFrom track false s.text s.tokens := rfl
    have hlen := congrArg List.length htext
    rw [hexpected, htokens, written_cons hv, shownFrom_cons hv, hx] at hlen
    simp only [Bool.false_eq_true, if_false, List.length_append, List.length_cons] at hlen
    omega

end Main

end Metadata

end SqueezeliteMuse
