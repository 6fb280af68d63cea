/-
SqueezeliteMuse/BtName.lean

`strip_bt_name` of cmd_config.c: the name of the Bluetooth sink is taken out of a stored command
line.

The words behind the first ` -o` go through a machine, whatever quotes they have: a word with
`bt` in it, in any letter case, begins the Bluetooth output, the next word with an `n` is taken
for the name option, and what follows is left out up to a word that begins with a dash or has a
quote, and with it in the latter case.

Main result: `strips_iff`: what is taken out is the name option of the Bluetooth output and nothing
else, if and only if no other word behind one with `bt` has an `n`, up to the name, the name has a
word of its own, and what follows it is seen as its end.
-/
import SqueezeliteMuse.Lib.Words
import Mathlib.Data.List.Basic

namespace SqueezeliteMuse

namespace BtName

open CString Words

export CString (ascii tolower)

/-! ### The code -/

/-- `parse_state_t` -/
inductive ParseState
  | searchingForBt
  | searchingForName
  | searchingForNameStart
  | searchingForNameEnd
  | searchingForBtCmdEnd
  | finishing

/-- The variables of the loop. -/
structure Scan where
  state : ParseState
  quoted : Bool
  result : List UInt8

/-- `strcasestr` finds it. -/
def has (pch : List UInt8) (sub : String) : Bool := (strcasestr pch (ascii sub)).isSome

/-- `strcat(result, " "); strcat(result, pch);`; `none` if they write behind the block. -/
def strcat (size : ℕ) (result pch : List UInt8) : Option (List UInt8) :=
  if (result ++ 32 :: pch).length ≤ size then some (result ++ 32 :: pch) else none

/-- The switch of the loop, for a block with room for `size` characters and a NUL. -/
def step (size : ℕ) (s : Scan) (pch : List UInt8) : Option Scan :=
  match s.state with
  | .searchingForBt =>
      let found :=
        if has pch "BT" then { s with state := .searchingForName, quoted := has pch "BT" } else s
      (strcat size s.result pch).map fun result => { found with result := result }
  | .searchingForName =>
      if has pch "name" || has pch "n" then some { s with state := .searchingForNameStart }
      else (strcat size s.result pch).map fun result => { s with result := result }
  | .searchingForNameStart => some { s with state := .searchingForNameEnd }
  | .searchingForNameEnd =>
      if has pch "\"" then some { s with state := .finishing }
      else if pch.head? = some 45 then
        (strcat size s.result pch).map fun result =>
          { s with
            result := result
            state := if s.quoted then .searchingForBtCmdEnd else .finishing }
      else some s
  | .searchingForBtCmdEnd =>
      let found := if has pch "\"" then { s with state := .finishing } else s
      (strcat size s.result pch).map fun result => { found with result := result }
  | .finishing => (strcat size s.result pch).map fun result => { s with result := result }

/-- `while(pch)`, with what `strtok` has left. -/
def run (size : ℕ) (s : Scan) (rest : List UInt8) : Option (List UInt8) :=
  match _h : strtok [32] rest with
  | none => some s.result
  | some (pch, rest') => (step size s pch).bind fun s => run size s rest'
termination_by rest.length
decreasing_by
  rcases @strtok_words 32 rest with ⟨hnone, -⟩ | ⟨t, r, hsome, -, hlt⟩
  · rw [_h] at hnone
    cases hnone
  · rw [_h] at hsome
    cases hsome
    exact hlt

/-- `strip_bt_name` -/
def stripBtName (optStr : List UInt8) : Option (List UInt8) :=
  match strstr optStr (ascii " -o") with
  | none => some optStr
  | some start =>
      let start := start.drop (ascii " -o").length
      run optStr.length ⟨.searchingForBt, false, optStr.take (optStr.length - start.length)⟩ start

/-! ### What it is for -/

/-- How a name is quoted. -/
inductive Quote
  | bare
  | single
  | escaped
  deriving DecidableEq

def Quote.bytes : Quote → List UInt8
  | .bare => []
  | .single => ascii "'"
  | .escaped => ascii "\\\""

/-- A text in front of the first word. -/
def openFirst (q : List UInt8) : List (List UInt8) → List (List UInt8)
  | [] => []
  | w :: ws => (q ++ w) :: ws

/-- A text behind the last word. -/
def closeLast (q : List UInt8) : List (List UInt8) → List (List UInt8)
  | [] => []
  | [w] => [w ++ q]
  | w :: w' :: ws => w :: closeLast q (w' :: ws)

/-- A word begins like the name option. -/
def IsName (w : List UInt8) : Prop := ascii "-n" <+: w ∨ ascii "--name" <+: w

/-- The name option: it may be long, and the name may follow in the same word. -/
structure NameOption where
  long : Bool
  joined : Bool
  quote : Quote
  first : List UInt8
  more : List (List UInt8)
  plain : ∀ w ∈ first :: more, Word 32 w ∧ 34 ∉ w
  bare : quote = .bare → ∀ w ∈ first :: more, w.head? ≠ some 45

/-- The name as it is written. -/
def NameOption.name (o : NameOption) : List (List UInt8) :=
  closeLast o.quote.bytes ((o.quote.bytes ++ o.first) :: o.more)

def NameOption.words (o : NameOption) : List (List UInt8) :=
  if o.joined then openFirst (if o.long then ascii "--name=" else ascii "-n") o.name
  else (if o.long then ascii "--name" else ascii "-n") :: o.name

/-- A word of another option of the Bluetooth output. -/
def Other (w : List UInt8) : Prop := Word 32 w ∧ 34 ∉ w ∧ ¬ IsName w

/-- Whether the quotes around an argument stand apart from its words. -/
structure Quotes where
  openApart : Bool
  closeApart : Bool

/-- Words in quotes. -/
def Quotes.around (q : Quotes) (ws : List (List UInt8)) : List (List UInt8) :=
  let opened := if q.openApart then ascii "\"" :: ws else openFirst (ascii "\"") ws
  if q.closeApart then opened ++ [ascii "\""] else closeLast (ascii "\"") opened

/-- The argument of the output option. -/
inductive Argument
  /-- a word -/
  | word (w : List UInt8)
  /-- words in quotes, without a name option of the Bluetooth output -/
  | quoted (q : Quotes) (w : List UInt8) (ws : List (List UInt8))
  /-- the Bluetooth output in quotes, with options, the name option and options -/
  | named (q : Quotes) (bt : List UInt8) (before : List (List UInt8)) (option : NameOption)
      (after : List (List UInt8))

def Argument.Valid : Argument → Prop
  | .word w => Word 32 w ∧ 34 ∉ w
  | .quoted _ w ws => (∀ v ∈ w :: ws, Word 32 v ∧ 34 ∉ v) ∧
      (CaseEq w (ascii "BT") → ∀ v ∈ ws, ¬ IsName v)
  | .named _ bt before _ after => CaseEq bt (ascii "BT") ∧ (∀ w ∈ before, Other w) ∧
      (∀ w ∈ after, Other w) ∧ ∀ w ∈ after.head?, w.head? = some 45

def Argument.words : Argument → List (List UInt8)
  | .word w => [w]
  | .quoted q w ws => q.around (w :: ws)
  | .named q bt before option after => q.around (bt :: (before ++ (option.words ++ after)))

/-- The argument without the name option. -/
def Argument.stripped : Argument → List (List UInt8)
  | .named q bt before _ after => q.around (bt :: (before ++ after))
  | a => a.words

/-- A command line: the command, the options up to the first output option, its argument, and other
options; or no output option. -/
structure Line where
  command : List UInt8
  head : List (List UInt8)
  output : Option (Argument × List (List UInt8))
  plain : ∀ w ∈ command :: head, Word 32 w
  isCommand : command.head? ≠ some 45
  valid : ∀ o ∈ output, o.1.Valid ∧ ∀ w ∈ o.2, Word 32 w
  first : ascii "-o" ∉ head

def Line.words (l : Line) : List (List UInt8) :=
  l.command :: l.head ++
    match l.output with
    | none => []
    | some (a, tail) => ascii "-o" :: (a.words ++ tail)

def Line.stripped (l : Line) : List (List UInt8) :=
  l.command :: l.head ++
    match l.output with
    | none => []
    | some (a, tail) => ascii "-o" :: (a.stripped ++ tail)

/-- However the words are separated: the block is large enough, and the result has the words of the
line without the name option. -/
def Strips (l : Line) : Prop :=
  ∀ s, words 32 s = l.words → ∃ r, stripBtName s = some r ∧ words 32 r = l.stripped

/-- No word behind one with `bt` has an `n`. -/
def Untouched (ws : List (List UInt8)) : Prop :=
  ∀ p b s, ws = p ++ b :: s → has b "BT" = true → ∀ w ∈ s, has w "n" = false

/-- The machine takes out this name option and nothing else: no word before it has an `n`; behind
its first word comes another one of the name; no further one begins with a dash, unless a quote
shows the end of the name; and what follows is a word without a quote, or anything if the name has
ended with a quote. -/
structure Removable (q : Quotes) (before : List (List UInt8)) (option : NameOption)
    (after : List (List UInt8)) : Prop where
  before : ∀ w ∈ before, has w "n" = false
  name : ∃ v vs, option.words.tail = v :: vs ∧
    (∀ w ∈ vs, w.head? = some 45 → 34 ∈ w) ∧
    ((after ≠ [] ∧ (q.closeApart = true ∨ 2 ≤ after.length)) ∨
      (vs ≠ [] ∧ option.quote = .escaped ∧ (after ≠ [] ∨ q.closeApart = true)))

/-- The machine takes the word in front of the name option for the option and the last word of the
name for the end of it, and the two are the same. -/
def Exchanged (q : Quotes) (before : List (List UInt8)) (option : NameOption)
    (after : List (List UInt8)) : Prop :=
  ∃ b z names, before = b ++ [z] ∧ (∀ w ∈ b, has w "n" = false) ∧ has z "n" = true ∧
    option.words.tail = names ++ [z] ∧ z.head? = some 45 ∧ (∀ w ∈ names, w.head? ≠ some 45) ∧
    (after ≠ [] ∨ q.closeApart = true)

def Argument.Fine : Argument → List (List UInt8) → Prop
  | .named q _ before option after, _ =>
      Removable q before option after ∨ Exchanged q before option after
  | a, tail => Untouched (a.words ++ tail)

/-- A line on which no slip of the code shows. -/
structure Fine (l : Line) : Prop where
  clean : ∀ w ∈ l.head, ¬ ascii "-o" <+: w
  output : ∀ a tail, l.output = some (a, tail) → a.Fine tail

/-! ### The machine on words -/

/-- What is kept, from the end of the name on. -/
def endRest : List (List UInt8) → List (List UInt8)
  | [] => []
  | w :: ws => if has w "\"" then ws else if w.head? = some 45 then w :: ws else endRest ws

/-- What is kept behind a word with `bt`. -/
def afterBt : List (List UInt8) → List (List UInt8)
  | [] => []
  | w :: ws => if has w "n" then endRest ws.tail else w :: afterBt ws

/-- What is kept of all that follows the output option. -/
def fromBt : List (List UInt8) → List (List UInt8)
  | [] => []
  | w :: ws => w :: if has w "BT" then afterBt ws else fromBt ws

def kept : ParseState → List (List UInt8) → List (List UInt8)
  | .searchingForBt, ws => fromBt ws
  | .searchingForName, ws => afterBt ws
  | .searchingForNameStart, ws => endRest ws.tail
  | .searchingForNameEnd, ws => endRest ws
  | .searchingForBtCmdEnd, ws => ws
  | .finishing, ws => ws

section Machine

variable {size : ℕ} {ws : List (List UInt8)} {w : List UInt8}

theorem kept_nil (state : ParseState) : kept state [] = [] := by
  cases state <;> rfl

theorem has_name (h : has w "name" = true) : has w "n" = true := by
  rw [has, strcasestr_isSome] at h ⊢
  have hinfix : (ascii "n").map tolower <:+: (ascii "name").map tolower := by decide
  exact hinfix.trans h

theorem has_quote (w : List UInt8) : has w "\"" = true ↔ 34 ∈ w := by
  have hlower (c : UInt8) : tolower c = 34 ↔ c = 34 := by
    constructor
    · intro h
      rw [tolower] at h
      split at h
      case isTrue hcap =>
        have h₁ := UInt8.le_iff_toNat_le.mp hcap.1
        have h₂ := UInt8.le_iff_toNat_le.mp hcap.2
        have h₃ := congrArg UInt8.toNat h
        rw [UInt8.toNat_add] at h₃
        simp only [UInt8.reduceToNat] at h₁ h₂ h₃
        omega
      case isFalse => exact h
    · rintro rfl
      decide
  have hquote : (ascii "\"").map tolower = [34] := by decide
  rw [has, strcasestr_isSome, hquote]
  constructor
  · intro h
    obtain ⟨c, hc, heq⟩ := List.mem_map.mp (h.subset List.mem_cons_self)
    exact (hlower c).mp heq ▸ hc
  · intro h
    obtain ⟨a, b, rfl⟩ := List.append_of_mem h
    exact ⟨a.map tolower, b.map tolower, by
      rw [List.map_append, List.map_cons, (hlower 34).mpr rfl, List.append_assoc,
        List.singleton_append]⟩

theorem strcat_eq {result : List UInt8} (h : (result ++ join 32 (w :: ws)).length ≤ size) :
    strcat size result w = some (result ++ 32 :: w) := by
  refine if_pos ((Nat.le_trans ?_) h)
  simp only [join, List.flatMap_cons, List.length_append, List.length_cons]
  omega

/-- A step keeps the word or not, and there is room for all the words. -/
theorem step_kept {s : Scan} (h : (s.result ++ join 32 (w :: ws)).length ≤ size) :
    ∃ s', step size s w = some s' ∧ (s'.result ++ join 32 ws).length ≤ size ∧
      s.result ++ join 32 (kept s.state (w :: ws)) = s'.result ++ join 32 (kept s'.state ws) := by
  have hcat := strcat_eq h
  have hroom : (s.result ++ join 32 ws).length ≤ size := by
    simp only [join, List.flatMap_cons, List.length_append, List.length_cons] at h ⊢
    omega
  have hkeep : ((s.result ++ 32 :: w) ++ join 32 ws).length ≤ size := by
    simpa only [join, List.flatMap_cons, List.append_assoc] using h
  have hjoin (vs : List (List UInt8)) :
      s.result ++ join 32 (w :: vs) = (s.result ++ 32 :: w) ++ join 32 vs := by
    simp only [join, List.flatMap_cons, List.append_assoc]
  rcases hs : s.state with - | - | - | - | - | -
  · -- searching for BT
    rw [step, hs]
    simp only [hcat, Option.map_some]
    refine ⟨_, rfl, hkeep, ?_⟩
    rw [kept, fromBt, hjoin]
    split
    · rfl
    · rw [hs]
      rfl
  · -- searching for the name option
    rw [step, hs]
    simp only
    by_cases hn : has w "n" = true
    · rw [hn, Bool.or_true, if_pos rfl]
      refine ⟨_, rfl, hroom, ?_⟩
      rw [kept, afterBt, if_pos hn]
      rfl
    · have hname : has w "name" = false := Bool.eq_false_iff.mpr (mt has_name hn)
      rw [hname, Bool.false_or, if_neg hn, hcat, Option.map_some]
      refine ⟨_, rfl, hkeep, ?_⟩
      rw [kept, afterBt, if_neg hn, hjoin]
      rfl
  · -- the first word of the name
    rw [step, hs]
    exact ⟨_, rfl, hroom, rfl⟩
  · -- searching for the end of the name
    rw [step, hs]
    simp only
    rw [kept, endRest]
    split
    · exact ⟨_, rfl, hroom, rfl⟩
    · split
      · rw [hcat, Option.map_some, hjoin]
        refine ⟨_, rfl, hkeep, ?_⟩
        rcases s.quoted with - | - <;> rfl
      · refine ⟨_, rfl, hroom, ?_⟩
        rw [hs]
        rfl
  · -- searching for the end of the argument
    rw [step, hs]
    simp only [hcat, Option.map_some]
    refine ⟨_, rfl, hkeep, ?_⟩
    rw [kept, hjoin]
    split
    · rfl
    · rw [hs]
      rfl
  · rw [step, hs]
    simp only [hcat, Option.map_some]
    refine ⟨_, rfl, hkeep, ?_⟩
    rw [kept, hjoin]
    rfl

theorem foldlM_kept (ws : List (List UInt8)) {s : Scan}
    (h : (s.result ++ join 32 ws).length ≤ size) :
    (ws.foldlM (step size) s).map Scan.result
      = some (s.result ++ join 32 (kept s.state ws)) := by
  induction ws generalizing s with
  | nil =>
      rw [List.foldlM_nil, kept_nil, join, List.flatMap_nil, List.append_nil]
      rfl
  | cons w ws ih =>
      obtain ⟨s', hstep, hroom, hkept⟩ := step_kept h
      rw [List.foldlM_cons, hstep, hkept]
      exact ih hroom

theorem step_appends {s s' : Scan} (h : step size s w = some s') :
    s'.result = s.result ∨ s'.result = s.result ++ 32 :: w := by
  have hcat {f : List UInt8 → Scan} (hf : ∀ x, (f x).result = x)
      (h : (strcat size s.result w).map f = some s') : s'.result = s.result ++ 32 :: w := by
    rw [strcat] at h
    split at h
    · rw [← Option.some.inj h, hf]
    · cases h
  rcases hs : s.state with - | - | - | - | - | - <;> rw [step, hs] at h <;> simp only at h
  · exact .inr (hcat (fun _ => rfl) h)
  · split at h
    · exact .inl (Option.some.inj h ▸ rfl)
    · exact .inr (hcat (fun _ => rfl) h)
  · exact .inl (Option.some.inj h ▸ rfl)
  · split at h
    · exact .inl (Option.some.inj h ▸ rfl)
    · split at h
      · exact .inr (hcat (fun _ => rfl) h)
      · exact .inl (Option.some.inj h ▸ rfl)
  · exact .inr (hcat (fun _ => rfl) h)
  · exact .inr (hcat (fun _ => rfl) h)

/-- Words are only put behind the result. -/
theorem foldlM_appends {s : Scan} {x : List UInt8} (hws : ∀ w ∈ ws, Word 32 w)
    (h : (ws.foldlM (step size) s).map Scan.result = some x) :
    ∃ vs, (∀ w ∈ vs, Word 32 w) ∧ x = s.result ++ join 32 vs := by
  induction ws generalizing s with
  | nil =>
      rw [List.foldlM_nil] at h
      exact ⟨[], by simp, by rw [← Option.some.inj h, join, List.flatMap_nil, List.append_nil]⟩
  | cons w ws ih =>
      rw [List.foldlM_cons] at h
      rcases hstep : step size s w with - | s'
      · rw [hstep] at h
        cases h
      · rw [hstep] at h
        obtain ⟨vs, hvs, rfl⟩ := ih (fun w hw => hws w (List.mem_cons_of_mem _ hw)) h
        rcases step_appends hstep with heq | heq
        · exact ⟨vs, hvs, by rw [heq]⟩
        · refine ⟨w :: vs, ?_, ?_⟩
          · exact List.forall_mem_cons.mpr ⟨hws w List.mem_cons_self, hvs⟩
          · rw [heq]
            simp [join]

theorem run_eq (s : Scan) (rest : List UInt8) :
    run size s rest = ((words 32 rest).foldlM (step size) s).map Scan.result := by
  induction hlen : rest.length using Nat.strong_induction_on generalizing s rest with
  | _ n ih =>
      rw [run]
      rcases @strtok_words 32 rest with ⟨hnone, hwords⟩ | ⟨t, r, hsome, hwords, hlt⟩
      · split
        case h_1 =>
          rw [hwords, List.foldlM_nil]
          rfl
        case h_2 heq =>
          rw [hnone] at heq
          cases heq
      · split
        case h_1 heq =>
          rw [hsome] at heq
          cases heq
        case h_2 heq =>
          rw [hsome] at heq
          cases heq
          rw [hwords, List.foldlM_cons]
          rcases step size s t with - | s'
          · rfl
          · exact ih r.length (hlen ▸ hlt) s' r rfl

end Machine

/-! ### The output option in the line -/

section Marker

variable {s t r : List UInt8} {ws : List (List UInt8)}

theorem marker_begins (hr : Ends 32 r) (h : ascii "-o" <+: t ++ r) (ht : t ≠ []) :
    ascii "-o" <+: t := by
  have hascii : ascii "-o" = [45, 111] := by decide
  rw [hascii] at h ⊢
  rcases t with - | ⟨c, - | ⟨d, t⟩⟩
  · exact absurd rfl ht
  · rcases hr with rfl | ⟨r', rfl⟩
    · simpa using h.length_le
    · exfalso
      simp only [List.cons_append, List.nil_append, List.cons_prefix_cons] at h
      exact absurd h.2.1 (by decide)
  · simp only [List.cons_append, List.cons_prefix_cons] at h ⊢
    exact ⟨h.1, h.2.1, List.nil_prefix⟩

/-- Only a blank begins the option. -/
theorem strstr_word (ht : 32 ∉ t) (s : List UInt8) :
    strstr (t ++ s) (ascii " -o") = strstr s (ascii " -o") := by
  have hascii : ascii " -o" = [32, 45, 111] := by decide
  induction t with
  | nil => rfl
  | cons c t ih =>
      simp only [List.mem_cons, not_or] at ht
      rw [List.cons_append, strstr, if_neg, ih ht.2]
      rw [hascii, List.cons_prefix_cons]
      exact fun h => ht.1 h.1

theorem strstr_blanks {bl : List UInt8} (hbl : ∀ c ∈ bl, c = 32) (hne : bl ≠ [])
    (ht : Word 32 t) : strstr (bl ++ (t ++ r)) (ascii " -o") =
      if ascii "-o" <+: t ++ r then some (32 :: (t ++ r)) else strstr r (ascii " -o") := by
  have hascii : ascii " -o" = 32 :: ascii "-o" := by decide
  induction bl with
  | nil => exact absurd rfl hne
  | cons c bl ih =>
      obtain rfl := hbl c List.mem_cons_self
      rw [List.cons_append, strstr]
      rcases bl with - | ⟨d, bl⟩
      · have hiff : ascii " -o" <+: 32 :: ([] ++ (t ++ r)) ↔ ascii "-o" <+: t ++ r := by
          rw [hascii, List.cons_prefix_cons, List.nil_append]
          exact and_iff_right rfl
        simp only [hiff]
        rw [List.nil_append, strstr_word ht.2]
      · obtain rfl := hbl d (by simp)
        have hno : ¬ ascii " -o" <+: 32 :: (32 :: bl ++ (t ++ r)) := by
          intro h
          rw [hascii, List.cons_prefix_cons, List.cons_append] at h
          have hd : ascii "-o" = [45, 111] := by decide
          rw [hd, List.cons_prefix_cons] at h
          exact absurd h.2.1 (by decide)
        rw [if_neg hno]
        exact ih (fun c hc => hbl c (List.mem_cons_of_mem _ hc)) (List.cons_ne_nil _ _)

/-- A word of the line, and the option looked for from there. -/
theorem strstr_words_cons (hs : Ends 32 s) (h : words 32 s = t :: ws) :
    ∃ bl r, s = 32 :: bl ++ (t ++ r) ∧ (∀ c ∈ bl, c = 32) ∧ Word 32 t ∧ Ends 32 r ∧
      words 32 r = ws ∧ strstr s (ascii " -o") =
        if ascii "-o" <+: t then some (32 :: (t ++ r)) else strstr r (ascii " -o") := by
  obtain ⟨bl, r, rfl, hbl, hword, hends, hr⟩ := words_eq_cons h
  rcases bl with - | ⟨c, bl⟩
  · -- a line that ends a word does not begin with one
    exfalso
    rcases hs with hs | ⟨r', hs⟩
    · simp [hword.1] at hs
    · obtain ⟨c, t', rfl⟩ := List.exists_cons_of_ne_nil hword.1
      obtain rfl := (List.cons.inj hs).1
      exact hword.2 List.mem_cons_self
  · obtain rfl := hbl c List.mem_cons_self
    refine ⟨bl, r, by simp, fun c hc => hbl c (List.mem_cons_of_mem _ hc), hword, hends, hr, ?_⟩
    rw [List.append_assoc, strstr_blanks hbl (List.cons_ne_nil _ _) hword]
    have hiff : ascii "-o" <+: t ++ r ↔ ascii "-o" <+: t :=
      ⟨fun h => marker_begins hends h hword.1, fun h => h.trans (List.prefix_append t r)⟩
    simp only [hiff]

theorem strstr_none (hs : Ends 32 s) (hws : ∀ w ∈ words 32 s, ¬ ascii "-o" <+: w) :
    strstr s (ascii " -o") = none := by
  induction hw : words 32 s generalizing s with
  | nil =>
      rcases hs with rfl | ⟨r', rfl⟩
      · rfl
      · rcases hfound : strstr (32 :: r') (ascii " -o") with - | x
        · rfl
        · -- the option has characters that no line without words has
          exfalso
          have hin := (strstr_isSome _ _).mp (Option.isSome_of_eq_some hfound)
          exact words_ne_nil (by decide : (45 : UInt8) ≠ 32)
            (hin.subset (by decide : 45 ∈ ascii " -o")) hw
  | cons t ws ih =>
      obtain ⟨bl, r, -, -, -, hends, hr, hfind⟩ := strstr_words_cons hs hw
      rw [hfind, if_neg (hws t (hw ▸ List.mem_cons_self))]
      exact ih hends (fun w hmem => hws w (by rw [hw, ← hr]; exact List.mem_cons_of_mem _ hmem)) hr

/-- The option is found behind the words in front of it, and in a word that begins with it. -/
theorem strstr_some (hs : Ends 32 s) {front : List (List UInt8)} {u : List UInt8}
    (hfront : ∀ w ∈ front, ¬ ascii "-o" <+: w)
    (h : words 32 s = front ++ (ascii "-o" ++ u) :: ws) :
    ∃ pre r, s = pre ++ (ascii " -o" ++ (u ++ r)) ∧ Ends 32 (pre ++ ascii " -o") ∧
      words 32 pre = front ∧ Ends 32 r ∧ words 32 r = ws ∧
      strstr s (ascii " -o") = some (ascii " -o" ++ (u ++ r)) := by
  have hascii : ascii " -o" = 32 :: ascii "-o" := by decide
  induction front generalizing s with
  | nil =>
      obtain ⟨bl, r, hline, hbl, hword, hends, hr, hfind⟩ := strstr_words_cons hs h
      rw [if_pos (List.prefix_append _ _), List.append_assoc] at hfind
      -- the last of the blanks belongs to the option
      have hmove : 32 :: bl = bl ++ [32] := by
        have hall : bl = List.replicate bl.length 32 := List.eq_replicate_of_mem hbl
        rw [hall, ← List.replicate_succ, ← List.replicate_succ']
      refine ⟨bl, r, ?_, ?_, ?_, hends, hr, hfind⟩
      · rw [hline, hmove, hascii]
        simp
      · rcases bl with - | ⟨c, bl⟩
        · exact .inr ⟨ascii "-o", hascii⟩
        · exact .inr ⟨bl ++ ascii " -o", by rw [hbl c List.mem_cons_self, List.cons_append]⟩
      · have hnil := words_seps hbl []
        rwa [List.append_nil, words_nil] at hnil
  | cons t front ih =>
      obtain ⟨bl, r, hline, hbl, hword, hends, hr, hfind⟩ := strstr_words_cons hs h
      rw [if_neg (hfront t List.mem_cons_self)] at hfind
      obtain ⟨pre, r', hr', hcut, hpre, hends', hwords, hfind'⟩ :=
        ih hends (fun w hw => hfront w (List.mem_cons_of_mem _ hw)) hr
      have hends₀ : Ends 32 pre := by
        rcases pre with - | ⟨c, pre⟩
        · exact .inl rfl
        · rcases hends with rfl | ⟨x, hx⟩
          · simp at hr'
          · rw [hx] at hr'
            exact .inr ⟨pre, by rw [(List.cons.inj hr').1]⟩
      refine ⟨32 :: bl ++ (t ++ pre), r', ?_, .inr ⟨_, rfl⟩, ?_, hends', hwords,
        hfind.trans hfind'⟩
      · rw [hline, hr']
        simp
      · have hseps : ∀ c ∈ 32 :: bl, c = 32 := by
          intro c hc
          exact (List.mem_cons.mp hc).elim id (hbl c)
        rw [words_seps hseps, words_cons hword hends₀, hpre]

end Marker

/-! ### The line as words -/

section Lines

variable {ws : List (List UInt8)}

theorem endRest_subset (ws : List (List UInt8)) : endRest ws ⊆ ws := by
  induction ws with
  | nil => exact List.Subset.refl _
  | cons w ws ih =>
      rw [endRest]
      split
      · exact List.subset_cons_self _ _
      · split
        · exact List.Subset.refl _
        · exact List.subset_cons_of_subset _ ih

theorem endRest_length (ws : List (List UInt8)) : (endRest ws).length ≤ ws.length := by
  induction ws with
  | nil => exact le_rfl
  | cons w ws ih =>
      rw [endRest, List.length_cons]
      split
      · omega
      · split
        · exact le_rfl
        · omega

theorem afterBt_subset (ws : List (List UInt8)) : afterBt ws ⊆ ws := by
  induction ws with
  | nil => exact List.Subset.refl _
  | cons w ws ih =>
      rw [afterBt]
      split
      · exact fun v hv => List.mem_cons_of_mem _ (List.mem_of_mem_tail (endRest_subset _ hv))
      · exact List.cons_subset_cons _ ih

theorem fromBt_subset (ws : List (List UInt8)) : fromBt ws ⊆ ws := by
  induction ws with
  | nil => exact List.Subset.refl _
  | cons w ws ih =>
      rw [fromBt]
      split
      · exact List.cons_subset_cons _ (afterBt_subset ws)
      · exact List.cons_subset_cons _ ih

/-- The command does not begin like the option. -/
theorem strstr_command {command r bl : List UInt8} (hword : Word 32 command)
    (hcommand : command.head? ≠ some 45) (hbl : ∀ c ∈ bl, c = 32) :
    strstr (bl ++ (command ++ r)) (ascii " -o") = strstr r (ascii " -o") := by
  rcases List.eq_nil_or_concat' bl with rfl | ⟨bl', c, rfl⟩
  · rw [List.nil_append, strstr_word hword.2]
  · rw [strstr_blanks hbl (by simp) hword, if_neg]
    obtain ⟨c, command, rfl⟩ := List.exists_cons_of_ne_nil hword.1
    have hascii : ascii "-o" = [45, 111] := by decide
    rw [hascii, List.cons_append, List.cons_prefix_cons]
    exact fun h => hcommand (by rw [← h.1, List.head?_cons])

/-- The line is cut behind the option, and the words from there on go through the machine. -/
theorem stripBtName_cut {s command u : List UInt8} {front : List (List UInt8)}
    (hcommand : command.head? ≠ some 45) (hclean : ∀ w ∈ front, ¬ ascii "-o" <+: w)
    (h : words 32 s = command :: (front ++ (ascii "-o" ++ u) :: ws)) :
    ∃ done r, s.length = done.length + (u ++ r).length ∧
      words 32 done = command :: (front ++ [ascii "-o"]) ∧ Ends 32 r ∧ words 32 r = ws ∧
      stripBtName s = run s.length ⟨.searchingForBt, false, done⟩ (u ++ r) := by
  have hascii : ascii " -o" = 32 :: ascii "-o" := by decide
  have hoption : Word 32 (ascii "-o") := ⟨by decide, by decide⟩
  obtain ⟨bl, r₀, rfl, hbl, hword, hends, hr₀⟩ := words_eq_cons h
  obtain ⟨pre, r, rfl, hcut, hpre, hendr, hr, hfind⟩ := strstr_some hends hclean hr₀
  have hline : bl ++ command ++ (pre ++ (ascii " -o" ++ (u ++ r)))
      = (bl ++ (command ++ (pre ++ ascii " -o"))) ++ (u ++ r) := by
    simp only [List.append_assoc]
  have htake : (bl ++ command ++ (pre ++ (ascii " -o" ++ (u ++ r)))).take
      ((bl ++ command ++ (pre ++ (ascii " -o" ++ (u ++ r)))).length - (u ++ r).length)
      = bl ++ (command ++ (pre ++ ascii " -o")) := by
    rw [hline, List.length_append, Nat.add_sub_cancel, List.take_left]
  refine ⟨bl ++ (command ++ (pre ++ ascii " -o")), r, ?_, ?_, hendr, hr, ?_⟩
  · rw [hline, List.length_append]
  · rw [words_seps hbl, words_cons hword hcut, hascii, words_append, hpre, words_word hoption]
  · rw [stripBtName, List.append_assoc bl, strstr_command hword hcommand hbl, hfind]
    simp only [List.drop_left]
    rw [← List.append_assoc bl, htake]

theorem stripBtName_present {s command : List UInt8} {front : List (List UInt8)}
    (hcommand : command.head? ≠ some 45) (hclean : ∀ w ∈ front, ¬ ascii "-o" <+: w)
    (h : words 32 s = command :: (front ++ ascii "-o" :: ws)) :
    ∃ r, stripBtName s = some r ∧
      words 32 r = command :: (front ++ ascii "-o" :: fromBt ws) := by
  obtain ⟨done, r, hlen, hdone, hends, hr, hstrip⟩ := @stripBtName_cut _ s _ [] _ hcommand hclean h
  rw [List.nil_append] at hlen hstrip
  have hvalid : ∀ w ∈ fromBt ws, Word 32 w := fun w hw =>
    word_of_mem (hr.symm ▸ fromBt_subset ws hw)
  have hroom : (done ++ join 32 (words 32 r)).length ≤ s.length := by
    have hjoin := length_join_le hends
    rw [List.length_append]
    omega
  have hrun := @foldlM_kept _ (words 32 r) ⟨.searchingForBt, false, done⟩ hroom
  refine ⟨done ++ join 32 (fromBt ws), ?_, ?_⟩
  · rw [hstrip, run_eq, hrun, hr]
    rfl
  · rw [words_append_join hvalid, hdone]
    simp

/-- A word that begins with the option is cut. -/
theorem stripBtName_split {s command u x : List UInt8} {front : List (List UInt8)}
    (hcommand : command.head? ≠ some 45) (hclean : ∀ w ∈ front, ¬ ascii "-o" <+: w)
    (h : words 32 s = command :: (front ++ (ascii "-o" ++ u) :: ws))
    (hx : stripBtName s = some x) :
    ∃ vs, words 32 x = command :: (front ++ ascii "-o" :: vs) := by
  obtain ⟨done, r, -, hdone, -, -, hstrip⟩ := stripBtName_cut hcommand hclean h
  rw [hstrip, run_eq] at hx
  obtain ⟨vs, hvs, rfl⟩ := foldlM_appends (fun w hw => word_of_mem hw) hx
  exact ⟨vs, by rw [words_append_join hvs, hdone]; simp⟩

theorem stripBtName_absent {s command : List UInt8} {front : List (List UInt8)}
    (hcommand : command.head? ≠ some 45) (hclean : ∀ w ∈ front, ¬ ascii "-o" <+: w)
    (h : words 32 s = command :: front) : stripBtName s = some s := by
  obtain ⟨bl, r, rfl, hbl, hword, hends, hr⟩ := words_eq_cons h
  rw [stripBtName, List.append_assoc, strstr_command hword hcommand hbl,
    strstr_none hends (fun w hw => hclean w (hr ▸ hw))]

end Lines

/-! ### Words in quotes -/

section Around

variable {q w : List UInt8} {ws : List (List UInt8)}

theorem closeLast_concat (q : List UInt8) (ws : List (List UInt8)) (w : List UInt8) :
    closeLast q (ws ++ [w]) = ws ++ [w ++ q] := by
  induction ws with
  | nil => rfl
  | cons v ws ih =>
      rcases ws with - | ⟨u, ws⟩
      · rfl
      · rw [List.cons_append, List.cons_append, closeLast, ← List.cons_append, ih,
          List.cons_append, List.cons_append, List.cons_append]

theorem closeLast_append (q : List UInt8) (us : List (List UInt8)) (h : ws ≠ []) :
    closeLast q (us ++ ws) = us ++ closeLast q ws := by
  obtain ⟨vs, w, rfl⟩ := (List.eq_nil_or_concat' ws).resolve_left h
  rw [← List.append_assoc, closeLast_concat, closeLast_concat, List.append_assoc]

theorem closeLast_all {P : List UInt8 → Prop} (h : ∀ w ∈ ws, P w ∧ P (w ++ q)) :
    ∀ w ∈ closeLast q ws, P w := by
  rcases List.eq_nil_or_concat' ws with rfl | ⟨vs, v, rfl⟩
  · exact fun w hw => by cases hw
  · rw [closeLast_concat]
    intro w hw
    rcases List.mem_append.mp hw with hw | hw
    · exact (h w (List.mem_append_left _ hw)).1
    · rw [List.mem_singleton.mp hw]
      exact (h v (List.mem_append_right _ (List.mem_singleton_self v))).2

theorem word_append (hw : Word 32 w) (hq : 32 ∉ q) : Word 32 (w ++ q) ∧ Word 32 (q ++ w) := by
  have hne := hw.1
  refine ⟨⟨by simp [hne], ?_⟩, ⟨by simp [hne], ?_⟩⟩ <;> simp [hw.2, hq]

theorem word_around (q : Quotes) {v : List UInt8} (h : ∀ w ∈ v :: ws, Word 32 w) :
    ∀ w ∈ q.around (v :: ws), Word 32 w := by
  have hquote : 32 ∉ ascii "\"" := by decide
  have hmark : Word 32 (ascii "\"") := ⟨by decide, hquote⟩
  have hopened : ∀ w ∈ (if q.openApart = true then ascii "\"" :: (v :: ws)
      else openFirst (ascii "\"") (v :: ws)), Word 32 w := by
    intro w hw
    split at hw
    case isTrue =>
      rcases List.mem_cons.mp hw with rfl | hw
      · exact hmark
      · exact h w hw
    case isFalse =>
      rcases List.mem_cons.mp hw with rfl | hw
      · exact (word_append (h v List.mem_cons_self) hquote).2
      · exact h w (List.mem_cons_of_mem _ hw)
  intro w hw
  rw [Quotes.around] at hw
  split at hw
  case isTrue =>
    rcases List.mem_append.mp hw with hw | hw
    · exact hopened w hw
    · rw [List.mem_singleton.mp hw]
      exact hmark
  case isFalse =>
    exact closeLast_all (fun w hw => ⟨hopened w hw, (word_append (hopened w hw) hquote).1⟩) w hw

/-- The quote and the word behind it. -/
def opening (q : Quotes) (v : List UInt8) : List (List UInt8) :=
  if q.openApart then [ascii "\"", v] else [ascii "\"" ++ v]

/-- The words up to the quote. -/
def closing (q : Quotes) (ws : List (List UInt8)) : List (List UInt8) :=
  if q.closeApart then ws ++ [ascii "\""] else closeLast (ascii "\"") ws

theorem around_cons (q : Quotes) (v : List UInt8) (ws : List (List UInt8)) :
    q.around (v :: ws) = closing q (opening q v ++ ws) := by
  rw [Quotes.around, closing, opening]
  rcases q.openApart with - | - <;> rfl

theorem closing_append {q : Quotes} (us : List (List UInt8)) (h : ws ≠ [] ∨ q.closeApart = true) :
    closing q (us ++ ws) = us ++ closing q ws := by
  rw [closing, closing]
  split
  case isTrue => rw [List.append_assoc]
  case isFalse hno => exact closeLast_append _ us (h.resolve_right hno)

theorem has_bt {v : List UInt8} (hv : CaseEq v (ascii "BT")) (x : List UInt8) :
    has (x ++ v) "BT" = true := by
  rw [has, strcasestr_isSome]
  exact ⟨x.map tolower, [], by rw [List.map_append, ← show _ = _ from hv, List.append_nil]⟩

/-- The Bluetooth output is found. -/
theorem fromBt_opening (q : Quotes) {v : List UInt8} (hv : CaseEq v (ascii "BT"))
    (ws : List (List UInt8)) : fromBt (opening q v ++ ws) = opening q v ++ afterBt ws := by
  rw [opening]
  split
  case isTrue =>
    have hno : has (ascii "\"") "BT" = false := by decide
    have hyes : has v "BT" = true := by simpa using has_bt hv []
    simp only [List.cons_append, List.nil_append, fromBt, hno, hyes, Bool.false_eq_true, if_false,
      if_true]
  case isFalse =>
    have hyes := has_bt hv (ascii "\"")
    rw [List.singleton_append, fromBt, if_pos hyes, List.singleton_append]

end Around

/-! ### The name option -/

section Option

variable {q : Quote} {t w : List UInt8} {us ws : List (List UInt8)}

/-- The words of a name option: the flag with what follows in the same word, and the words `us` of
the name, the last one closed. -/
structure NameWords (q : Quote) (t : List UInt8) (us : List (List UInt8)) : Prop where
  word : ∀ w ∈ t :: closeLast q.bytes us, Word 32 w
  isName : IsName t
  has_n : has t "n" = true
  dash : t.head? = some 45
  inner : ∀ u ∈ us.tail, 34 ∉ u
  plain : q ≠ .escaped → ∀ w ∈ t :: closeLast q.bytes us, 34 ∉ w

/-- A flag, and what may follow in the same word. -/
theorem isName_flag {flag : List UInt8}
    (hflag : flag ∈ [ascii "-n", ascii "--name", ascii "--name="]) (x : List UInt8) :
    IsName (flag ++ x) ∧ has (flag ++ x) "n" = true ∧ (flag ++ x).head? = some 45 ∧
      Word 32 flag ∧ 34 ∉ flag := by
  have hn : has (flag ++ x) "n" = true := by
    rw [has, strcasestr_isSome, List.map_append]
    have hin : (ascii "n").map tolower <:+: flag.map tolower := by
      simp only [List.mem_cons, List.not_mem_nil, or_false] at hflag
      rcases hflag with rfl | rfl | rfl <;> decide
    exact hin.trans (List.prefix_append _ _).isInfix
  have hname : ascii "-n" <+: flag ∨ ascii "--name" <+: flag := by
    simp only [List.mem_cons, List.not_mem_nil, or_false] at hflag
    rcases hflag with rfl | rfl | rfl <;> decide
  have hrest : flag.head? = some 45 ∧ (flag ≠ [] ∧ 32 ∉ flag) ∧ 34 ∉ flag := by
    simp only [List.mem_cons, List.not_mem_nil, or_false] at hflag
    rcases hflag with rfl | rfl | rfl <;> decide
  refine ⟨hname.imp (fun h => h.trans (List.prefix_append _ _))
    (fun h => h.trans (List.prefix_append _ _)), hn, ?_, hrest.2⟩
  rw [List.head?_append, hrest.1]
  rfl

theorem quote_bytes (q : Quote) : 32 ∉ q.bytes ∧ (q ≠ .escaped → 34 ∉ q.bytes) := by
  cases q <;> decide

/-- A word of the name, as it stands in the text. -/
theorem quoted_word (q : Quote) (h : Word 32 w ∧ 34 ∉ w) :
    Word 32 (w ++ q.bytes) ∧ Word 32 (q.bytes ++ w) ∧
      (q ≠ .escaped → 34 ∉ w ++ q.bytes ∧ 34 ∉ q.bytes ++ w) := by
  obtain ⟨hblank, hquote⟩ := quote_bytes q
  obtain ⟨hclose, hopen⟩ := word_append h.1 hblank
  refine ⟨hclose, hopen, fun hq => ?_⟩
  simp [h.2, hquote hq]

/-- The words of the name, the first one opened or not. -/
theorem nameWords_of (hisName : IsName t) (hn : has t "n" = true) (hdash : t.head? = some 45)
    (ht : Word 32 t) (hplain : q ≠ .escaped → 34 ∉ t)
    (hus : ∀ u ∈ us, Word 32 u ∧ (q ≠ .escaped → 34 ∉ u)) (htail : ∀ u ∈ us.tail, 34 ∉ u) :
    NameWords q t us where
  word := by
    have hblank := (quote_bytes q).1
    refine List.forall_mem_cons.mpr ⟨ht, closeLast_all fun u hu => ⟨(hus u hu).1, ?_⟩⟩
    exact (word_append (hus u hu).1 hblank).1
  isName := hisName
  has_n := hn
  dash := hdash
  inner := htail
  plain := by
    intro hq
    refine List.forall_mem_cons.mpr ⟨hplain hq, closeLast_all fun u hu => ?_⟩
    have hu := (hus u hu).2 hq
    exact ⟨hu, by simp [hu, (quote_bytes q).2 hq]⟩

theorem NameOption.facts (o : NameOption) :
    ∃ t us, o.words = t :: closeLast o.quote.bytes us ∧ NameWords o.quote t us := by
  have hfirst := quoted_word o.quote (o.plain o.first List.mem_cons_self)
  have hmore : ∀ u ∈ o.more, Word 32 u ∧ 34 ∉ u := fun u hu => o.plain u (List.mem_cons_of_mem _ hu)
  rw [NameOption.words, NameOption.name]
  split
  case isFalse =>
    -- the name in words of its own
    have hflag : (if o.long = true then ascii "--name" else ascii "-n") ∈
        [ascii "-n", ascii "--name", ascii "--name="] := by
      split <;> simp
    have hfacts := isName_flag hflag []
    rw [List.append_nil] at hfacts
    obtain ⟨hisName, hn, hdash, hword, hquote⟩ := hfacts
    refine ⟨_, (o.quote.bytes ++ o.first) :: o.more, rfl,
      nameWords_of hisName hn hdash hword (fun _ => hquote) ?_ (fun u hu => (hmore u hu).2)⟩
    exact List.forall_mem_cons.mpr ⟨⟨hfirst.2.1, fun hq => (hfirst.2.2 hq).2⟩,
      fun u hu => ⟨(hmore u hu).1, fun _ => (hmore u hu).2⟩⟩
  case isTrue =>
    have hflag : (if o.long = true then ascii "--name=" else ascii "-n") ∈
        [ascii "-n", ascii "--name", ascii "--name="] := by
      split <;> simp
    have hrest : (∀ u ∈ o.more, Word 32 u ∧ (o.quote ≠ .escaped → 34 ∉ u)) ∧
        ∀ u ∈ o.more.tail, 34 ∉ u :=
      ⟨fun u hu => ⟨(hmore u hu).1, fun _ => (hmore u hu).2⟩,
        fun u hu => (hmore u (List.mem_of_mem_tail hu)).2⟩
    have hjoined (x : List UInt8) (hx : Word 32 x) (hplain : o.quote ≠ .escaped → 34 ∉ x) :
        NameWords o.quote ((if o.long = true then ascii "--name=" else ascii "-n") ++ x)
          o.more := by
      obtain ⟨hisName, hn, hdash, hword, hquote⟩ := isName_flag hflag x
      exact nameWords_of hisName hn hdash (word_append hword hx.2).1
        (fun hq => by simp [hquote, hplain hq]) hrest.1 hrest.2
    rcases hm : o.more with - | ⟨m, ms⟩
    · refine ⟨_, [], rfl, ?_⟩
      have hblank := (quote_bytes o.quote).1
      have hname := hjoined (o.quote.bytes ++ o.first ++ o.quote.bytes)
        (word_append hfirst.2.1 hblank).1
        (fun hq => by simp [(o.plain o.first List.mem_cons_self).2, (quote_bytes o.quote).2 hq])
      rwa [hm] at hname
    · refine ⟨_, m :: ms, rfl, ?_⟩
      have hname := hjoined (o.quote.bytes ++ o.first) hfirst.2.1 (fun hq => (hfirst.2.2 hq).2)
      rwa [hm] at hname

theorem closeLast_eq_append {c w : List UInt8} {a : List (List UInt8)}
    (h : closeLast c us = a ++ [w]) : ∃ v, us = a ++ [v] ∧ w = v ++ c := by
  rcases List.eq_nil_or_concat' us with rfl | ⟨b, v, rfl⟩
  · simp [closeLast] at h
  · rw [closeLast_concat] at h
    obtain ⟨rfl, hv⟩ := List.append_inj' h rfl
    exact ⟨v, rfl, (List.singleton_inj.mp hv).symm⟩

/-- The end of a name in escaped quotes has one. -/
theorem last_escaped {a : List (List UInt8)} (h : closeLast Quote.escaped.bytes us = a ++ [w]) :
    34 ∈ w := by
  obtain ⟨v, -, rfl⟩ := closeLast_eq_append h
  exact List.mem_append_right _ (by decide)

end Option

/-! ### The end of the name -/

section EndRest

variable {w z : List UInt8} {ws rest X : List (List UInt8)}

/-- A word that does not end the name. -/
def Passed (w : List UInt8) : Prop := w.head? ≠ some 45 ∧ 34 ∉ w

theorem endRest_passed {a : List (List UInt8)} (h : ∀ w ∈ a, Passed w) (ws : List (List UInt8)) :
    endRest (a ++ ws) = endRest ws := by
  induction a with
  | nil => rfl
  | cons w a ih =>
      have hw := h w List.mem_cons_self
      rw [List.cons_append, endRest, if_neg (mt (has_quote w).mp hw.2), if_neg hw.1]
      exact ih fun v hv => h v (List.mem_cons_of_mem _ hv)

theorem endRest_quote (h : 34 ∈ w) (ws : List (List UInt8)) : endRest (w :: ws) = ws := by
  rw [endRest, if_pos ((has_quote w).mpr h)]

theorem endRest_dash (h : 34 ∉ w) (hd : w.head? = some 45) (ws : List (List UInt8)) :
    endRest (w :: ws) = w :: ws := by
  rw [endRest, if_neg (mt (has_quote w).mp h), if_pos hd]

/-- Where the name ends: nowhere, at a word with a quote, or in front of one with a dash. -/
theorem endRest_cases (h : endRest ws = rest) :
    (rest = [] ∧ ∀ w ∈ ws, Passed w) ∨
    (∃ a w, ws = a ++ w :: rest ∧ (∀ u ∈ a, Passed u) ∧ 34 ∈ w) ∨
    ∃ a w b, ws = a ++ rest ∧ rest = w :: b ∧ (∀ u ∈ a, Passed u) ∧ w.head? = some 45 ∧ 34 ∉ w := by
  induction ws with
  | nil => exact .inl ⟨h.symm, by simp⟩
  | cons w ws ih =>
      by_cases hq : 34 ∈ w
      · rw [endRest_quote hq] at h
        exact .inr (.inl ⟨[], w, by rw [h, List.nil_append], by simp, hq⟩)
      · by_cases hd : w.head? = some 45
        · rw [endRest_dash hq hd] at h
          exact .inr (.inr ⟨[], w, ws, h, h.symm, by simp, hd, hq⟩)
        · have hpass : Passed w := ⟨hd, hq⟩
          rw [endRest, if_neg (mt (has_quote w).mp hq), if_neg hd] at h
          rcases ih h with ⟨hnil, hall⟩ | ⟨a, v, rfl, hall, hv⟩ | ⟨a, v, b, rfl, hrest, hall, hv⟩
          · exact .inl ⟨hnil, List.forall_mem_cons.mpr ⟨hpass, hall⟩⟩
          · exact .inr (.inl ⟨w :: a, v, rfl, List.forall_mem_cons.mpr ⟨hpass, hall⟩, hv⟩)
          · exact .inr (.inr ⟨w :: a, v, b, rfl, hrest, List.forall_mem_cons.mpr ⟨hpass, hall⟩, hv⟩)

/-- What follows is kept, if nothing but the words of the name ends it. -/
theorem endRest_append (hX : X ≠ []) (vs : List (List UInt8)) : endRest (vs ++ X) = X ↔
    (∃ a w, vs = a ++ [w] ∧ (∀ u ∈ a, Passed u) ∧ 34 ∈ w) ∨
    ((∀ u ∈ vs, Passed u) ∧ ∃ x b, X = x :: b ∧ x.head? = some 45 ∧ 34 ∉ x) := by
  constructor
  · intro h
    rcases endRest_cases h with ⟨hnil, -⟩ | ⟨a, w, heq, hall, hw⟩ | ⟨a, w, b, heq, hrest, hall, hw⟩
    · exact absurd hnil hX
    · rw [← List.singleton_append, ← List.append_assoc] at heq
      exact .inl ⟨a, w, List.append_cancel_right heq, hall, hw⟩
    · rw [List.append_cancel_right heq]
      exact .inr ⟨hall, w, b, hrest, hw⟩
  · rintro (⟨a, w, rfl, hall, hw⟩ | ⟨hall, x, b, rfl, hd, hq⟩)
    · rw [List.append_assoc, endRest_passed hall, List.singleton_append, endRest_quote hw]
    · rw [endRest_passed hall, endRest_dash hq hd]

/-- A word of the name is kept only as its end. -/
theorem endRest_last {ts : List (List UInt8)} (h : endRest (ts ++ X) = z :: X) :
    (∃ a u, ts = a ++ [u, z] ∧ 34 ∈ u) ∨
      ∃ a, ts = a ++ [z] ∧ (∀ u ∈ a, Passed u) ∧ z.head? = some 45 ∧ 34 ∉ z := by
  rcases endRest_cases h with ⟨hnil, -⟩ | ⟨a, u, heq, -, hu⟩ | ⟨a, w, b, heq, hrest, hall, hw⟩
  · cases hnil
  · have hsplit : ts ++ X = (a ++ [u, z]) ++ X := by simp [heq]
    exact .inl ⟨a, u, List.append_cancel_right hsplit, hu⟩
  · obtain ⟨rfl, rfl⟩ := List.cons.inj hrest
    have hsplit : ts ++ X = (a ++ [z]) ++ X := by simp [heq]
    exact .inr ⟨a, List.append_cancel_right hsplit, hall, hw⟩

/-- With two words taken out in front of the name option, the rest cannot be put back. -/
theorem endRest_ne {t : List UInt8} {ts bs : List (List UInt8)} (ht : t.head? = some 45)
    (hname : IsName t) (hbs : ∀ w ∈ bs, ¬ IsName w) (hne : bs ≠ []) (hquote : 34 ∈ t → ts ≠ bs)
    (b : List (List UInt8)) : endRest (b ++ (t :: ts ++ X)) ≠ bs ++ X := by
  -- the flag is not passed over, and it is not kept
  have hpassed {a : List (List UInt8)} (hall : ∀ u ∈ a, Passed u) : t ∉ a :=
    fun hmem => (hall t hmem).1 ht
  have hkept : t ∉ bs := fun hmem => hbs t hmem hname
  intro h
  rcases endRest_cases h with ⟨hnil, -⟩ | ⟨a, y, heq, hall, hy⟩ | ⟨a, w, c, heq, hrest, hall, hw⟩
  · exact hne (List.append_eq_nil_iff.mp hnil).1
  · have hsplit : (b ++ t :: ts) ++ X = (a ++ y :: bs) ++ X := by simpa using heq
    have heq' := List.append_eq_append_iff.mp (List.append_cancel_right hsplit)
    rcases heq' with ⟨e, he, hts⟩ | ⟨e, -, hts⟩
    · rcases e with - | ⟨x, e⟩
      · obtain ⟨rfl, hbs'⟩ := List.cons.inj hts
        exact hquote hy hbs'
      · obtain ⟨rfl, -⟩ := List.cons.inj hts
        exact hpassed hall (by simp [he])
    · rcases e with - | ⟨x, e⟩
      · obtain ⟨rfl, hbs'⟩ := List.cons.inj hts
        exact hquote hy hbs'.symm
      · obtain ⟨-, hbs'⟩ := List.cons.inj hts
        exact hkept (by simp [hbs'])
  · have hsplit : (b ++ t :: ts) ++ X = (a ++ bs) ++ X := by simpa using heq
    have hmem : t ∈ a ++ bs := List.append_cancel_right hsplit ▸ by simp
    exact (List.mem_append.mp hmem).elim (hpassed hall) hkept

end EndRest

/-! ### The argument -/

section Named

variable {q : Quotes} {t w : List UInt8} {before after tail ts us X : List (List UInt8)}
  {option : NameOption}

/-- What the words behind the output leave, if the closing quote is not part of the name. -/
theorem afterBt_open (ht : t.head? = some 45) (hname : IsName t) (hn : has t "n" = true)
    (hbefore : ∀ w ∈ before, ¬ IsName w) (hquote : 34 ∈ t → ts ⊆ before → ts = []) :
    afterBt (before ++ (t :: ts ++ X)) = before ++ X ↔
      ((∀ w ∈ before, has w "n" = false) ∧ endRest (ts ++ X).tail = X) ∨
      ∃ b z, before = b ++ [z] ∧ (∀ w ∈ b, has w "n" = false) ∧ has z "n" = true ∧
        endRest (ts ++ X) = z :: X := by
  induction before with
  | nil =>
      rw [List.nil_append, List.cons_append, afterBt, if_pos hn]
      simp
  | cons w before ih =>
      have hih := ih (fun v hv => hbefore v (List.mem_cons_of_mem _ hv))
        fun h hsub => hquote h (List.subset_cons_of_subset _ hsub)
      have hcons : afterBt (w :: before ++ (t :: ts ++ X)) = if has w "n" = true
          then endRest (before ++ (t :: ts ++ X)).tail
          else w :: afterBt (before ++ (t :: ts ++ X)) := rfl
      rw [hcons]
      by_cases hw : has w "n" = true
      · -- this word is taken for the name option
        rw [if_pos hw]
        rcases before with - | ⟨c, b⟩
        · simp only [List.nil_append, List.cons_append, List.tail_cons]
          constructor
          · exact fun h => .inr ⟨[], w, rfl, by simp, hw, h⟩
          · rintro (⟨hall, -⟩ | ⟨b, z, hb, -, -, h⟩)
            · exact absurd hw (by simp [hall w List.mem_cons_self])
            · rcases b with - | ⟨y, b⟩
              · exact (List.singleton_inj.mp hb) ▸ h
              · simp at hb
        · constructor
          · intro h
            refine absurd h (endRest_ne ht hname hbefore (List.cons_ne_nil _ _) ?_ b)
            rintro hmem rfl
            exact List.cons_ne_nil _ _ (hquote hmem (List.Subset.refl _))
          · rintro (⟨hall, -⟩ | ⟨b', z, hb, hall, -⟩)
            · exact absurd hw (by simp [hall w List.mem_cons_self])
            · rcases b' with - | ⟨y, b'⟩
              · simp at hb
              · obtain ⟨rfl, -⟩ := List.cons.inj hb
                exact absurd hw (by simp [hall w List.mem_cons_self])
      · have hno : has w "n" = false := Bool.eq_false_iff.mpr hw
        rw [if_neg hw, @List.cons_append _ w before X, List.cons.injEq, and_iff_right rfl, hih]
        constructor
        · rintro (⟨hall, h⟩ | ⟨b, z, rfl, hall, h⟩)
          · exact .inl ⟨List.forall_mem_cons.mpr ⟨hno, hall⟩, h⟩
          · exact .inr ⟨w :: b, z, rfl, List.forall_mem_cons.mpr ⟨hno, hall⟩, h⟩
        · rintro (⟨hall, h⟩ | ⟨b, z, hb, hall, hz, h⟩)
          · exact .inl ⟨(List.forall_mem_cons.mp hall).2, h⟩
          · rcases b with - | ⟨y, b⟩
            · obtain ⟨rfl, -⟩ := List.cons.inj hb
              exact absurd hz hw
            · obtain ⟨rfl, rfl⟩ := List.cons.inj hb
              exact .inr ⟨b, z, rfl, (List.forall_mem_cons.mp hall).2, hz, h⟩

/-- A closing quote on the last word of the name goes with it. -/
theorem afterBt_closed {q : List UInt8} (hq : q ≠ []) (ht : t.head? = some 45) (hname : IsName t)
    (hbefore : ∀ w ∈ closeLast q before, ¬ IsName w) (hne : before ≠ [])
    (hquote : 34 ∈ t → ts ⊆ closeLast q before → ts = [])
    (hlast : ∀ w ∈ before, endRest (ts ++ X) ≠ (w ++ q) :: X) :
    afterBt (before ++ (t :: ts ++ X)) ≠ closeLast q before ++ X := by
  induction before with
  | nil => exact absurd rfl hne
  | cons w before ih =>
      have hcons : afterBt (w :: before ++ (t :: ts ++ X)) = if has w "n" = true
          then endRest (before ++ (t :: ts ++ X)).tail
          else w :: afterBt (before ++ (t :: ts ++ X)) := rfl
      rw [hcons]
      rcases before with - | ⟨c, b⟩
      · intro h
        split at h
        case isTrue => exact hlast w List.mem_cons_self h
        case isFalse =>
          -- the word has no quote yet
          have hw : w = w ++ q := (List.cons.inj h).1
          exact hq (List.append_right_eq_self.mp hw.symm)
      · have hclose : closeLast q (w :: c :: b) = w :: closeLast q (c :: b) := rfl
        rw [hclose] at hbefore hquote ⊢
        split
        case isTrue =>
          refine endRest_ne ht hname hbefore (List.cons_ne_nil _ _) ?_ b
          rintro hmem rfl
          exact List.cons_ne_nil _ _ (hquote hmem (List.Subset.refl _))
        case isFalse =>
          intro h
          refine ih (fun v hv => hbefore v (List.mem_cons_of_mem _ hv)) (List.cons_ne_nil _ _) ?_
            (fun v hv => hlast v (List.mem_cons_of_mem _ hv)) (List.cons.inj h).2
          exact fun hmem hsub => hquote hmem (List.subset_cons_of_subset _ hsub)

theorem closing_ne_nil (happart : after ≠ [] ∨ q.closeApart = true) : closing q after ≠ [] := by
  rw [closing]
  split
  case isTrue => simp
  case isFalse hno =>
    rcases List.eq_nil_or_concat' after with rfl | ⟨a, w, rfl⟩
    · exact absurd rfl (happart.resolve_right hno)
    · simp [closeLast_concat]

/-- What follows the name begins with an option that has no quote. -/
theorem closing_head (hall : ∀ w ∈ after, Other w) (hdash : ∀ w ∈ after.head?, w.head? = some 45)
    (happart : after ≠ [] ∨ q.closeApart = true) :
    (∃ x b, closing q after ++ X = x :: b ∧ x.head? = some 45 ∧ 34 ∉ x) ↔
      after ≠ [] ∧ (q.closeApart = true ∨ 2 ≤ after.length) := by
  have hquote : 34 ∈ ascii "\"" := by decide
  rcases after with - | ⟨a, after⟩
  · -- the quote stands alone
    have hclose := happart.resolve_left (fun h => h rfl)
    rw [closing, if_pos hclose]
    constructor
    · rintro ⟨x, b, heq, -, hx⟩
      obtain ⟨rfl, -⟩ := List.cons.inj heq
      exact absurd hquote hx
    · exact fun h => absurd rfl h.1
  · have ha : a.head? = some 45 ∧ 34 ∉ a := ⟨hdash a rfl, (hall a List.mem_cons_self).2.1⟩
    rw [closing]
    split
    case isTrue hclose =>
      exact iff_of_true ⟨a, _, rfl, ha⟩ ⟨List.cons_ne_nil _ _, .inl hclose⟩
    case isFalse hno =>
      rcases after with - | ⟨b, after⟩
      · refine iff_of_false ?_ ?_
        · rintro ⟨x, b, heq, -, hx⟩
          obtain ⟨rfl, -⟩ := List.cons.inj heq
          exact hx (List.mem_append_right _ hquote)
        · rintro ⟨-, hclose | hlen⟩
          · exact hno hclose
          · simp at hlen
      · exact iff_of_true ⟨a, _, rfl, ha⟩ ⟨List.cons_ne_nil _ _, .inr (by simp)⟩

theorem closeLast_cons (c u : List UInt8) (us : List (List UInt8)) :
    ∃ v, closeLast c (u :: us) = v :: closeLast c us := by
  rcases us with - | ⟨v, us⟩
  · exact ⟨u ++ c, rfl⟩
  · exact ⟨u, rfl⟩

/-- The name option is taken out and what follows is kept. -/
theorem removable_iff (h : option.words = t :: closeLast option.quote.bytes us)
    (hn : NameWords option.quote t us) (hall : ∀ w ∈ after, Other w)
    (hdash : ∀ w ∈ after.head?, w.head? = some 45) (happart : after ≠ [] ∨ q.closeApart = true) :
    ((∀ w ∈ before, has w "n" = false) ∧
      endRest (closeLast option.quote.bytes us ++ (closing q after ++ tail)).tail
        = closing q after ++ tail) ↔ Removable q before option after := by
  have hne : closing q after ++ tail ≠ [] := by simp [closing_ne_nil happart]
  have htail : option.words.tail = closeLast option.quote.bytes us := by rw [h, List.tail_cons]
  have hplain : option.quote ≠ .escaped → ∀ w ∈ closeLast option.quote.bytes us, 34 ∉ w :=
    fun hq w hw => hn.plain hq w (List.mem_cons_of_mem _ hw)
  rcases us with - | ⟨u, us⟩
  · -- the first word behind the option is taken for the name
    refine iff_of_false ?_ ?_
    · rintro ⟨-, hrest⟩
      obtain ⟨x, b, hx⟩ := List.exists_cons_of_ne_nil hne
      have hlen := endRest_length b
      rw [closeLast, List.nil_append, hx, List.tail_cons] at hrest
      rw [hrest, List.length_cons] at hlen
      omega
    · rintro ⟨-, v, vs, hname, -⟩
      rw [htail] at hname
      cases hname
  · obtain ⟨v, hv⟩ := closeLast_cons option.quote.bytes u us
    rw [hv] at htail hplain ⊢
    rw [List.cons_append, List.tail_cons, endRest_append hne,
      closing_head hall hdash happart]
    have hrest : ∀ w ∈ closeLast option.quote.bytes us, option.quote ≠ .escaped → 34 ∉ w :=
      fun w hw hq => hplain hq w (List.mem_cons_of_mem _ hw)
    constructor
    · rintro ⟨hbefore, ⟨a, w, hvs, hpass, hw⟩ | ⟨hpass, hhead⟩⟩
      · have hesc : option.quote = .escaped := by
          by_contra hq
          exact hrest w (by simp [hvs]) hq hw
        refine ⟨hbefore, v, _, htail, ?_, .inr ⟨by simp [hvs], hesc, happart⟩⟩
        intro x hx hd
        rw [hvs] at hx
        rcases List.mem_append.mp hx with hx | hx
        · exact absurd hd (hpass x hx).1
        · rwa [List.mem_singleton.mp hx]
      · exact ⟨hbefore, v, _, htail, fun x hx hd => absurd hd (hpass x hx).1, .inl hhead⟩
    · rintro ⟨hbefore, v', vs, hname, hd, hends⟩
      rw [htail] at hname
      obtain ⟨rfl, rfl⟩ := List.cons.inj hname
      refine ⟨hbefore, ?_⟩
      by_cases hesc : us ≠ [] ∧ option.quote = .escaped
      · -- the last word has the quote
        obtain ⟨a, w, hus⟩ := (List.eq_nil_or_concat' us).resolve_left hesc.1
        rw [hus, closeLast_concat] at hd ⊢
        have hinner : ∀ x ∈ a, 34 ∉ x := fun x hx => hn.inner x (by simp [hus, hx])
        refine .inl ⟨a, _, rfl, fun x hx => ⟨?_, hinner x hx⟩, ?_⟩
        · exact fun hdash => hinner x hx (hd x (List.mem_append_left _ hx) hdash)
        · rw [hesc.2]
          exact List.mem_append_right _ (by decide)
      · have hnone : ∀ x ∈ closeLast option.quote.bytes us, 34 ∉ x := by
          intro x hx
          refine hrest x hx fun hq => hesc ⟨?_, hq⟩
          rintro rfl
          cases hx
        refine .inr ⟨fun x hx => ⟨fun hdash => hnone x hx (hd x hx hdash), hnone x hx⟩, ?_⟩
        refine hends.resolve_right ?_
        rintro ⟨hvs, hq, -⟩
        refine hesc ⟨?_, hq⟩
        rintro rfl
        exact hvs rfl

theorem exchanged_iff (h : option.words = t :: closeLast option.quote.bytes us)
    (hn : NameWords option.quote t us) (hbefore : ∀ w ∈ before, Other w)
    (happart : after ≠ [] ∨ q.closeApart = true) :
    (∃ b z, before = b ++ [z] ∧ (∀ w ∈ b, has w "n" = false) ∧ has z "n" = true ∧
      endRest (closeLast option.quote.bytes us ++ X) = z :: X) ↔
      Exchanged q before option after := by
  have htail : option.words.tail = closeLast option.quote.bytes us := by rw [h, List.tail_cons]
  -- a word from in front of the option has no quote, and so the name has none
  have hplain {a : List (List UInt8)} {z : List UInt8} (hz : z ∈ before)
      (hts : closeLast option.quote.bytes us = a ++ [z]) : ∀ u ∈ a, 34 ∉ u := by
    have hesc : option.quote ≠ .escaped := by
      intro hq
      rw [hq] at hts
      exact (hbefore z hz).2.1 (last_escaped hts)
    exact fun u hu => hn.plain hesc u (List.mem_cons_of_mem _ (by simp [hts, hu]))
  rw [Exchanged, htail]
  constructor
  · rintro ⟨b, z, rfl, hb, hz, hrest⟩
    have hmem : z ∈ b ++ [z] := by simp
    rcases endRest_last hrest with ⟨a, u, hts, hu⟩ | ⟨a, hts, hall, hd, -⟩
    · have hsplit : closeLast option.quote.bytes us = (a ++ [u]) ++ [z] := by simp [hts]
      exact absurd hu (hplain hmem hsplit u (by simp))
    · exact ⟨b, z, a, rfl, hb, hz, hts, hd, fun w hw => (hall w hw).1, happart⟩
  · rintro ⟨b, z, names, rfl, hb, hz, hts, hd, hnames, -⟩
    have hmem : z ∈ b ++ [z] := by simp
    have hall : ∀ u ∈ names, Passed u := fun u hu => ⟨hnames u hu, hplain hmem hts u hu⟩
    refine ⟨b, z, rfl, hb, hz, ?_⟩
    rw [hts, List.append_assoc, endRest_passed hall, List.singleton_append,
      endRest_dash (hbefore z hmem).2.1 hd]

/-- A closing quote does not make a word a name option. -/
theorem isName_close (h : ¬ IsName w) : ¬ IsName (w ++ ascii "\"") := by
  have hflag {flag : List UInt8} (hno : 34 ∉ flag) (hpre : flag <+: w ++ ascii "\"") :
      flag <+: w := by
    have hascii : ascii "\"" = [34] := by decide
    rw [hascii] at hpre
    refine (List.prefix_concat_iff.mp hpre).resolve_left ?_
    rintro rfl
    simp at hno
  exact fun hname => h (hname.imp (hflag (by decide)) (hflag (by decide)))

theorem closeLast_mem {c : List UInt8} (h : w ∈ closeLast c ts) :
    w ∈ ts ∨ ∃ v ∈ ts, w = v ++ c := by
  rcases List.eq_nil_or_concat' ts with rfl | ⟨a, v, rfl⟩
  · cases h
  · rw [closeLast_concat] at h
    rcases List.mem_append.mp h with h | h
    · exact .inl (List.mem_append_left _ h)
    · exact .inr ⟨v, by simp, List.mem_singleton.mp h⟩

/-- The closing quote of the argument goes with the last word of the name. -/
theorem named_closed (h : option.words = t :: closeLast option.quote.bytes us)
    (hn : NameWords option.quote t us) (hbefore : ∀ w ∈ before, Other w) (hne : before ≠ []) :
    afterBt (before ++ (closeLast (ascii "\"") option.words ++ X))
      ≠ closeLast (ascii "\"") before ++ X := by
  have hquote : ascii "\"" ≠ [] := by decide
  have hother : ∀ w ∈ closeLast (ascii "\"") before, ¬ IsName w := by
    intro w hw
    rcases closeLast_mem hw with hw | ⟨v, hv, rfl⟩
    · exact (hbefore w hw).2.2
    · exact isName_close (hbefore v hv).2.2
  rw [h]
  rcases List.eq_nil_or_concat' (closeLast option.quote.bytes us) with hts | ⟨a, y, hts⟩
  · -- the name is in the word of the option
    have hhead : (t ++ ascii "\"").head? = some 45 := by
      rw [List.head?_append, hn.dash]
      rfl
    have hname : IsName (t ++ ascii "\"") :=
      hn.isName.imp (fun h => h.trans (List.prefix_append _ _))
        (fun h => h.trans (List.prefix_append _ _))
    rw [hts]
    refine afterBt_closed hquote hhead hname hother hne (fun _ _ => rfl) fun w _ hrest => ?_
    rcases endRest_last hrest with ⟨a, u, hnil, -⟩ | ⟨a, hnil, -⟩ <;> simp at hnil
  · rw [hts, ← List.cons_append, closeLast_concat, List.cons_append]
    -- a name in escaped quotes ends with one, the words in front of the option do not
    have hesc : 34 ∈ y ↔ option.quote = .escaped := by
      constructor
      · intro hy
        by_contra hq
        exact hn.plain hq y (by simp [hts]) hy
      · intro hq
        rw [hq] at hts
        exact last_escaped hts
    have hlast {v : List UInt8} (hv : v ∈ before)
        (heq : y ++ ascii "\"" = v ++ ascii "\"") : option.quote ≠ .escaped := by
      rw [List.append_cancel_right heq, ← not_iff_not] at hesc
      exact hesc.mp (hbefore v hv).2.1
    refine afterBt_closed hquote hn.dash hn.isName hother hne ?_ ?_
    · intro ht hsub
      exfalso
      have hq : option.quote = .escaped := by
        by_contra hq
        exact hn.plain hq t List.mem_cons_self ht
      rcases closeLast_mem (hsub (List.mem_append_right _ (List.mem_singleton_self _))) with
        hmem | ⟨v, hv, heq⟩
      · exact (hbefore _ hmem).2.1 (by simp [hesc.mpr hq])
      · exact hlast hv heq hq
    · intro w hw hrest
      rcases endRest_last hrest with ⟨b, u, heq, hu⟩ | ⟨b, -, -, -, hno⟩
      · have hsplit : a ++ [y ++ ascii "\""] = (b ++ [u]) ++ [w ++ ascii "\""] := by simp [heq]
        obtain ⟨rfl, hy⟩ := List.append_inj' hsplit rfl
        exact hn.plain (hlast hw (List.singleton_inj.mp hy)) u (by simp [hts]) hu
      · exact hno (List.mem_append_right _ (by decide))

/-- The name option of the Bluetooth output, and nothing else. -/
theorem named_iff {bt : List UInt8} (hvalid : (Argument.named q bt before option after).Valid) :
    fromBt ((Argument.named q bt before option after).words ++ tail)
        = (Argument.named q bt before option after).stripped ++ tail ↔
      Removable q before option after ∨ Exchanged q before option after := by
  obtain ⟨hbt, hbefore, hafter, hdash⟩ := hvalid
  obtain ⟨t, us, hwords, hn⟩ := option.facts
  rw [Argument.words, Argument.stripped, around_cons, around_cons]
  by_cases happart : after ≠ [] ∨ q.closeApart = true
  · have hleft : closing q (opening q bt ++ (before ++ (option.words ++ after))) ++ tail
        = opening q bt ++ (before ++ (t :: closeLast option.quote.bytes us ++
          (closing q after ++ tail))) := by
      have happend := closing_append (opening q bt ++ (before ++ option.words)) happart
      simp only [List.append_assoc] at happend ⊢
      rw [happend, hwords]
      simp only [List.append_assoc]
    have hright : closing q (opening q bt ++ (before ++ after)) ++ tail
        = opening q bt ++ (before ++ (closing q after ++ tail)) := by
      have happend := closing_append (opening q bt ++ before) happart
      simp only [List.append_assoc] at happend ⊢
      rw [happend]
      simp only [List.append_assoc]
    have hquote : 34 ∈ t → closeLast option.quote.bytes us ⊆ before →
        closeLast option.quote.bytes us = [] := by
      intro ht hsub
      have hq : option.quote = .escaped := by
        by_contra hq
        exact hn.plain hq t List.mem_cons_self ht
      rcases List.eq_nil_or_concat' (closeLast option.quote.bytes us) with hts | ⟨a, y, hts⟩
      · exact hts
      · have hy := (hbefore y (hsub (by simp [hts]))).2.1
        rw [hq] at hts
        exact absurd (last_escaped hts) hy
    rw [hleft, hright, fromBt_opening q hbt, List.append_cancel_left_eq,
      afterBt_open hn.dash hn.isName hn.has_n (fun w hw => (hbefore w hw).2.2) hquote,
      removable_iff hwords hn hafter hdash happart, exchanged_iff hwords hn hbefore happart]
  · -- the last word of the name has the closing quote
    refine iff_of_false ?_ ?_
    · have hafter₀ : after = [] := by
        by_contra hne
        exact happart (.inl hne)
      have hclosing (ws : List (List UInt8)) : closing q ws = closeLast (ascii "\"") ws :=
        if_neg fun hc => happart (.inr hc)
      have hne : option.words ≠ [] := by simp [hwords]
      have hleft : closeLast (ascii "\"") (opening q bt ++ (before ++ option.words)) ++ tail
          = opening q bt ++ (before ++ (closeLast (ascii "\"") option.words ++ tail)) := by
        rw [closeLast_append _ _ (by simp [hne]), closeLast_append _ _ hne]
        simp only [List.append_assoc]
      rw [hafter₀, List.append_nil, List.append_nil, hclosing, hclosing, hleft,
        fromBt_opening q hbt]
      rcases before with - | ⟨b, before⟩
      · -- and the output has none
        obtain ⟨o, v, ho⟩ : ∃ o v, opening q bt = o ++ [v] := by
          rw [opening]
          split
          case isTrue => exact ⟨[ascii "\""], bt, rfl⟩
          case isFalse => exact ⟨[], _, rfl⟩
        rw [ho, List.append_nil, closeLast_concat]
        intro heq
        simp only [List.append_assoc, List.append_cancel_left_eq, List.singleton_append,
          List.cons.injEq] at heq
        exact absurd (List.append_right_eq_self.mp heq.1.symm) (by decide)
      · rw [closeLast_append _ _ (List.cons_ne_nil _ _), List.append_assoc]
        intro heq
        exact named_closed hwords hn hbefore (List.cons_ne_nil _ _) (List.append_cancel_left heq)
    · rintro (⟨-, v, vs, -, -, ⟨hafter₀, -⟩ | ⟨-, -, h⟩⟩ | ⟨-, -, -, -, -, -, -, -, -, h⟩)
      · exact happart (.inl hafter₀)
      · exact happart h
      · exact happart h

end Named

section Whole

variable {ws tail : List (List UInt8)} {a : Argument} {l : Line}

theorem afterBt_eq_self : afterBt ws = ws ↔ ∀ w ∈ ws, has w "n" = false := by
  induction ws with
  | nil => simp [afterBt]
  | cons w ws ih =>
      rw [afterBt]
      split
      case isTrue hn =>
        refine iff_of_false ?_ ?_
        · intro h
          have hlen := endRest_length ws.tail
          rw [h, List.length_tail, List.length_cons] at hlen
          omega
        · exact fun h => absurd hn (by simp [h w List.mem_cons_self])
      case isFalse hno =>
        rw [List.cons.injEq, and_iff_right rfl, ih, List.forall_mem_cons]
        exact (and_iff_right (Bool.eq_false_iff.mpr hno)).symm

theorem fromBt_eq_self : fromBt ws = ws ↔ Untouched ws := by
  induction ws with
  | nil =>
      refine iff_of_true rfl ?_
      intro p b s h
      simp at h
  | cons w ws ih =>
      rw [fromBt, List.cons.injEq, and_iff_right rfl]
      split
      case isTrue hbt =>
        rw [afterBt_eq_self]
        constructor
        · intro h p b s heq _ v hv
          rcases p with - | ⟨x, p⟩
          · obtain ⟨-, rfl⟩ := List.cons.inj heq
            exact h v hv
          · obtain ⟨-, rfl⟩ := List.cons.inj heq
            exact h v (by simp [hv])
        · exact fun h => h [] w ws rfl hbt
      case isFalse hno =>
        rw [ih]
        constructor
        · intro h p b s heq hb
          rcases p with - | ⟨x, p⟩
          · obtain ⟨rfl, -⟩ := List.cons.inj heq
            exact absurd hb hno
          · obtain ⟨-, rfl⟩ := List.cons.inj heq
            exact h p b s rfl hb
        · exact fun h p b s heq => h (w :: p) b s (by rw [heq, List.cons_append])

theorem argument_iff (h : a.Valid) :
    fromBt (a.words ++ tail) = a.stripped ++ tail ↔ a.Fine tail := by
  cases a with
  | word w => exact fromBt_eq_self
  | quoted q w ws => exact fromBt_eq_self
  | named q bt before option after => exact named_iff h

theorem Argument.word_words (h : a.Valid) : ∀ w ∈ a.words, Word 32 w := by
  cases a with
  | word w =>
      intro v hv
      rw [List.mem_singleton.mp hv]
      exact h.1
  | quoted q w ws => exact word_around q fun v hv => (h.1 v hv).1
  | named q bt before option after =>
      obtain ⟨hbt, hbefore, hafter, -⟩ := h
      obtain ⟨t, us, hwords, hn⟩ := option.facts
      refine word_around q fun v hv => ?_
      simp only [List.mem_cons, List.mem_append] at hv
      rcases hv with rfl | hv | hv | hv
      · have hmap : v.map tolower = [98, 116] := hbt
        refine ⟨?_, fun hblank => ?_⟩
        · rintro rfl
          cases hmap
        · have hmem := List.mem_map_of_mem hblank (f := tolower)
          rw [hmap] at hmem
          exact absurd hmem (by decide)
      · exact (hbefore v hv).1
      · exact hn.word v (hwords ▸ hv)
      · exact (hafter v hv).1

theorem Line.word_words (l : Line) : ∀ w ∈ l.words, Word 32 w := by
  intro w hw
  rw [Line.words] at hw
  rcases List.mem_append.mp hw with hw | hw
  · exact l.plain w hw
  · split at hw
    case h_1 => cases hw
    case h_2 a tail hout =>
      have hvalid := l.valid (a, tail) hout
      rcases List.mem_cons.mp hw with rfl | hw
      · exact ⟨by decide, by decide⟩
      · exact (List.mem_append.mp hw).elim (a.word_words hvalid.1 w) (hvalid.2 w)

/-- A word in front of the output option that begins like it is cut. -/
theorem strips_clean (h : Strips l) : ∀ w ∈ l.head, ¬ ascii "-o" <+: w := by
  by_contra hno
  simp only [not_forall, not_not] at hno
  obtain ⟨w₀, hw₀, hpre₀⟩ := hno
  -- the first such word
  have hfind : (l.head.find? fun w => decide (ascii "-o" <+: w)).isSome := by
    rw [List.find?_isSome]
    exact ⟨w₀, hw₀, by simpa using hpre₀⟩
  obtain ⟨w, hw⟩ := Option.isSome_iff_exists.mp hfind
  obtain ⟨hpre, front, rest, hhead, hfront⟩ := List.find?_eq_some_iff_append.mp hw
  obtain ⟨u, rfl⟩ := of_decide_eq_true hpre
  have hclean : ∀ v ∈ front, ¬ ascii "-o" <+: v := fun v hv => by simpa using hfront v hv
  have hwords : ∃ ws, l.words = l.command :: (front ++ (ascii "-o" ++ u) :: ws) := by
    rw [Line.words, hhead]
    exact ⟨_, by rw [List.cons_append, List.append_assoc, List.cons_append]⟩
  have hstripped : ∃ ws, l.stripped = l.command :: (front ++ (ascii "-o" ++ u) :: ws) := by
    rw [Line.stripped, hhead]
    exact ⟨_, by rw [List.cons_append, List.append_assoc, List.cons_append]⟩
  obtain ⟨ws, hws⟩ := hwords
  obtain ⟨ws', hws'⟩ := hstripped
  have hline := words_line l.word_words
  obtain ⟨x, hx, hres⟩ := h _ hline
  rw [hws] at hline
  obtain ⟨vs, hvs⟩ := stripBtName_split l.isCommand hclean hline (hws ▸ hx)
  rw [hres, hws', List.cons.injEq, and_iff_right rfl, List.append_cancel_left_eq] at hvs
  have hu := (List.cons.inj hvs).1
  exact l.first (by rw [hhead, hu]; simp)

/-- Only the name option of the Bluetooth output is taken out, if and only if the machine finds the
name where it stands. -/
theorem strips_iff (l : Line) : Strips l ↔ Fine l := by
  constructor
  · intro h
    refine ⟨strips_clean h, fun a tail hout => ?_⟩
    have hvalid := l.valid (a, tail) hout
    have hline := words_line l.word_words
    obtain ⟨x, hx, hres⟩ := h _ hline
    have hwords : l.words = l.command :: (l.head ++ ascii "-o" :: (a.words ++ tail)) := by
      rw [Line.words, hout, List.cons_append]
    have hstripped : l.stripped = l.command :: (l.head ++ ascii "-o" :: (a.stripped ++ tail)) := by
      rw [Line.stripped, hout, List.cons_append]
    rw [hwords] at hline hx
    obtain ⟨y, hy, hkept⟩ := stripBtName_present l.isCommand (strips_clean h) hline
    rw [hx] at hy
    cases hy
    rw [hres, hstripped, List.cons.injEq, and_iff_right rfl, List.append_cancel_left_eq,
      List.cons.injEq, and_iff_right rfl] at hkept
    exact (argument_iff hvalid.1).mp hkept.symm
  · intro h s hs
    rcases hout : l.output with - | ⟨a, tail⟩
    · have hwords : l.words = l.command :: l.head := by
        rw [Line.words, hout, List.append_nil]
      have hstripped : l.stripped = l.command :: l.head := by
        rw [Line.stripped, hout, List.append_nil]
      refine ⟨s, stripBtName_absent l.isCommand h.clean (hs.trans hwords), ?_⟩
      rw [hs, hwords, hstripped]
    · have hwords : l.words = l.command :: (l.head ++ ascii "-o" :: (a.words ++ tail)) := by
        rw [Line.words, hout, List.cons_append]
      obtain ⟨r, hr, hkept⟩ := stripBtName_present l.isCommand h.clean (hs.trans hwords)
      have hvalid := l.valid (a, tail) hout
      refine ⟨r, hr, ?_⟩
      rw [hkept, (argument_iff hvalid.1).mpr (h.output a tail hout), Line.stripped, hout,
        List.cons_append]

/-- `squeezelite -o "BT -n Sink" -b 500` -/
def sinkLine : Line where
  command := ascii "squeezelite"
  head := []
  output := some (.named ⟨false, false⟩ (ascii "BT") []
    { long := false
      joined := false
      quote := .bare
      first := ascii "Sink"
      more := []
      plain := by unfold Word; decide
      bare := by decide } [], [ascii "-b", ascii "500"])
  plain := by unfold Word; decide
  isCommand := by decide
  valid := by
    rintro o ho
    cases ho
    refine ⟨⟨by decide, by simp, by simp, by simp⟩, ?_⟩
    unfold Word
    decide
  first := by decide

/-- The closing quote goes with the last word of the name. -/
theorem strips_not_all : ¬ ∀ l : Line, Strips l := by
  intro h
  have hline : words 32 (ascii "squeezelite -o \"BT -n Sink\" -b 500") = sinkLine.words := by
    decide +kernel
  have hwords : sinkLine.words = ascii "squeezelite" :: ([] ++ ascii "-o" ::
      [ascii "\"BT", ascii "-n", ascii "Sink\"", ascii "-b", ascii "500"]) := by decide
  obtain ⟨r, hr, hres⟩ := h sinkLine _ hline
  obtain ⟨r', hr', hkept⟩ := stripBtName_present sinkLine.isCommand (by simp)
    (hline.trans hwords)
  rw [hr] at hr'
  cases hr'
  rw [hres] at hkept
  exact absurd hkept (by decide)

end Whole

end BtName

end SqueezeliteMuse
