/-
SqueezeliteMuse/PlayerName.lean

The name of the player in the command line of squeezelite.

`set_name` of embedded.c (the server) edits the stored line: it cuts out what stands from the first
" -n" up to the next " -" behind which there is no quote, and appends the option with the new name
in quotes.  `set_squeezelite_player_name` of cmd_system.c (the console) splits the line, replaces
what follows a "-n" or "--name", capital or small, and joins the arguments with blanks; where there
is none, it appends the option with the name as it is.

`esp_console_split_argv` is a parameter.  It splits a line that is written as its documentation
says (`CommandLine.Splits`), and nothing is known of other lines.  The console runs a command with
less than 28 arguments.

Main result: `renames`: both put the new name in place of the old one, and keep all other
arguments, if the line has the option once or not at all and is free of what they stumble on.
-/
import SqueezeliteMuse.Lib.CString
import SqueezeliteMuse.Lib.CommandLine

namespace SqueezeliteMuse

namespace PlayerName

open CString CommandLine

/-! ### The code -/

/-- The loop of `set_name`, with the `strstr` in it: where the next option begins, for a `q`. -/
def nameEnd : List UInt8 → Option (List UInt8)
  | [] => none
  | c :: q =>
      if [32, 45] <+: c :: q then
        if 34 ∉ c :: q ∨ 34 ∉ q then some (c :: q) else nameEnd q
      else nameEnd q

/-- The line of `set_name` without the name. -/
def withoutName (cmd : List UInt8) : List UInt8 :=
  match strstr cmd [32, 45, 110] with
  | some p => cmd.take (cmd.length - p.length) ++ (nameEnd (p.drop 3)).getD []
  | none => cmd

/-- `set_name`, for a line that is stored. -/
def setName (cmd name : List UInt8) : List UInt8 :=
  withoutName cmd ++ ([32, 45, 110, 32, 34] ++ name ++ [34])

/-- `scanstate_t` -/
inductive ScanState
  | scanning | processingName

/-- An argument behind which there is the name. -/
def IsNameOption (arg : List UInt8) : Prop :=
  CaseEq arg [45, 45, 110, 97, 109, 101] ∨ CaseEq arg [45, 110]

instance (arg : List UInt8) : Decidable (IsNameOption arg) := inferInstanceAs (Decidable (_ ∨ _))

/-- The loop of `set_squeezelite_player_name`: the arguments of the new line, and `bFoundParm`. -/
def renameArgs (cleaned : List UInt8) :
    ScanState → List (List UInt8) → List (List UInt8) × Bool
  | _, [] => ([], false)
  | .scanning, arg :: args =>
      let r := renameArgs cleaned (if IsNameOption arg then .processingName else .scanning) args
      (arg :: r.1, r.2)
  | .processingName, _ :: args => (cleaned :: (renameArgs cleaned .scanning args).1, true)

/-- `cleaned_name` -/
def cleanedName (name : List UInt8) : List UInt8 := name.map fun c => if c = 32 then 95 else c

/-- A line that is stored, and the size of the buffer where it was made. -/
structure Stored where
  line : List UInt8
  allocated : ℕ

/-- `set_squeezelite_player_name`; there is memory for the copies. -/
def setSqueezelitePlayerName (console : Splitter) (nvsConfig name : List UInt8) :
    Option Stored :=
  if nvsConfig = [] then none
  else
    let r := renameArgs (cleanedName name) .scanning (console.split nvsConfig 22)
    some
      { line := join r.1 ++ if r.2 then [] else [32, 45, 110, 32] ++ name
        allocated := nvsConfig.length + (cleanedName name).length + 4 + 1 }

/-! ### What is required -/

/-- "-n" -/
def NAME : List UInt8 := [45, 110]

/-- `max_cmdline_args` -/
def MAX_CMDLINE_ARGS : ℕ := 28

/-- The arguments but for the option of the name. -/
def others : List (List UInt8) → List (List UInt8)
  | [] => []
  | [arg] => [arg]
  | arg :: value :: args => if arg = NAME then others args else arg :: others (value :: args)

/-- The new line has the option once, with the name, and all other arguments of the old one. -/
def Renamed (console : Splitter) (name old new : List UInt8) : Prop :=
  ∀ args, Splits old args →
    ∃ xs ys, xs ++ ys = others args ∧ NAME ∉ xs ∧ NAME ∉ ys ∧
      console.split new MAX_CMDLINE_ARGS = xs ++ NAME :: name :: ys

/-- The server gives the player a name: what is moved stays inside the line, and a second time
changes nothing. -/
structure ServerRenames (console : Splitter) (old name : List UInt8) : Prop where
  renamed : Renamed console name old (setName old name)
  inside : (withoutName old).length ≤ old.length
  again : setName (setName old name) name = setName old name

/-- The console does. -/
structure ConsoleRenames (console : Splitter) (old name : List UInt8) (new : Stored) : Prop where
  stored : setSqueezelitePlayerName console old name = some new
  renamed : Renamed console (cleanedName name) old new.line
  inside : new.line.length + 1 ≤ new.allocated
  again : (setSqueezelitePlayerName console new.line name).map (·.line) = some new.line

/-! ### When it is so -/

/-- A line with the option once, and behind it, if anything, an option, and no quote.  If the name
is not in quotes, there is no " -" in it. -/
structure OneName where
  front : List UInt8
  blanks : ℕ
  raw : List UInt8
  trailing : ℕ
  tail : List UInt8
  before : List (List UInt8)
  value : List UInt8
  after : List (List UInt8)
  front_splits : Splits front before
  front_free : strstr front [32, 45, 110] = none
  word : Word raw value
  value_free : (∃ text, raw = 34 :: text ++ [34]) ∨
    strstr (32 :: List.replicate blanks 32 ++ raw) [32, 45] = none
  tail_splits : tail = [] ∧ after = [] ∨ ∃ t, tail = 32 :: 45 :: t ∧ Splits (45 :: t) after
  tail_free : 34 ∉ tail ∧ strstr tail [32, 45, 110] = none
  others_free : NAME ∉ before ++ after

/-- The text of the name, with the blanks around it. -/
def OneName.text (o : OneName) : List UInt8 :=
  32 :: List.replicate o.blanks 32 ++ (o.raw ++ List.replicate o.trailing 32)

def OneName.line (o : OneName) : List UInt8 := o.front ++ ([32, 45, 110] ++ (o.text ++ o.tail))

/-- The lines that the server can edit, and the names it can put in quotes. -/
def ServerFits (old : List UInt8) (args : List (List UInt8)) (name : List UInt8) : Prop :=
  Quotable name ∧ (others args).length + 2 < MAX_CMDLINE_ARGS ∧
    ((strstr old [32, 45, 110] = none ∧ NAME ∉ args) ∨ ∃ o : OneName, o.line = old)

/-- The lines that the console can join again: with no quotes and escapes, and the option once,
or not at all for a name without blanks. -/
def ConsoleFits (args : List (List UInt8)) (name : List UInt8) : Prop :=
  Plain (cleanedName name) ∧
    ((∃ before value after, args = before ++ NAME :: value :: after ∧ args.length < 22 ∧
        ∀ a ∈ before ++ after, Plain a ∧ ¬ IsNameOption a) ∨
      (args ≠ [] ∧ args.length + 2 < 22 ∧ (∀ a ∈ args, Plain a ∧ ¬ IsNameOption a) ∧ 32 ∉ name))

/-! ### The end of a name -/

section End

variable {a q t s : List UInt8}

/-- The loop as it is written, with `strstr` and `strchr`. -/
theorem nameEnd_eq (q : List UInt8) :
    nameEnd q = (strstr q [32, 45]).bind fun q =>
      if 34 ∉ q ∨ 34 ∉ q.drop 1 then some q else nameEnd (q.drop 1) := by
  induction q with
  | nil => rfl
  | cons c q ih =>
      rw [nameEnd, strstr]
      by_cases hpre : [32, 45] <+: c :: q
      · rw [if_pos hpre, if_pos hpre]
        rfl
      · rw [if_neg hpre, if_neg hpre, ih]

/-- In quotes, nothing ends. -/
theorem nameEnd_quote (a t : List UInt8) : nameEnd (a ++ 34 :: t) = nameEnd t := by
  induction a with
  | nil =>
      have hpre : ¬ [32, 45] <+: 34 :: t := by
        rintro ⟨s, hs⟩
        exact absurd (List.cons.inj hs).1 (by decide)
      rw [List.nil_append, nameEnd, if_neg hpre]
  | cons c a ih =>
      have hquote : 34 ∈ a ++ 34 :: t := List.mem_append_right _ List.mem_cons_self
      have hno : ¬ (34 ∉ c :: (a ++ 34 :: t) ∨ 34 ∉ a ++ 34 :: t) := by
        rintro (h | h)
        · exact h (List.mem_cons_of_mem c hquote)
        · exact h hquote
      rw [List.cons_append, nameEnd, if_neg hno, ite_self, ih]

/-- Without a " -" neither. -/
theorem nameEnd_free (ha : strstr a [32, 45] = none) (ht : t = [] ∨ ∃ s, t = 32 :: s) :
    nameEnd (a ++ t) = nameEnd t := by
  rcases ht with rfl | ⟨s, rfl⟩
  · rw [List.append_nil, nameEnd_eq, ha]
    rfl
  · rw [nameEnd_eq, strstr_behind (by decide) ha, ← nameEnd_eq]

theorem strstr_blanks (n : ℕ) : strstr (List.replicate n 32) [32, 45] = none := by
  induction n with
  | zero => rfl
  | succ n ih =>
      have hpre : ¬ [32, 45] <+: (32 : UInt8) :: List.replicate n 32 := by
        rintro ⟨s, hs⟩
        have hmem : (45 : UInt8) ∈ List.replicate n 32 := by
          rw [← (List.cons.inj hs).2]
          exact List.mem_cons_self
        exact absurd (List.eq_of_mem_replicate hmem) (by decide)
      rw [List.replicate_succ, strstr, if_neg hpre, ih]

/-- Where no quote follows, the next option ends the name. -/
theorem nameEnd_option (h : 34 ∉ 32 :: 45 :: t) :
    nameEnd (32 :: 45 :: t) = some (32 :: 45 :: t) := by
  rw [nameEnd, if_pos ⟨t, rfl⟩, if_pos (.inl h)]

/-- The old name goes with the blanks around it. -/
theorem OneName.nameEnd_text (o : OneName) : (nameEnd (o.text ++ o.tail)).getD [] = o.tail := by
  have hstart : ∀ n, List.replicate n (32 : UInt8) ++ o.tail = [] ∨
      ∃ s, List.replicate n 32 ++ o.tail = 32 :: s := by
    intro n
    rcases n with - | n
    · rcases o.tail_splits with ⟨htail, -⟩ | ⟨t, htail, -⟩
      · exact .inl htail
      · exact .inr ⟨45 :: t, htail⟩
    · exact .inr ⟨_, rfl⟩
  have hblanks : nameEnd (List.replicate o.trailing 32 ++ o.tail) = nameEnd o.tail :=
    nameEnd_free (strstr_blanks _) (hstart 0)
  have htext : nameEnd (o.text ++ o.tail) = nameEnd o.tail := by
    rw [← hblanks, OneName.text]
    rcases o.value_free with ⟨text, hraw⟩ | hfree
    · have hquote := nameEnd_quote (32 :: List.replicate o.blanks 32 ++ 34 :: text)
        (List.replicate o.trailing 32 ++ o.tail)
      rw [← hquote, hraw]
      simp only [List.append_assoc, List.cons_append, List.nil_append]
    · rw [← nameEnd_free hfree (hstart o.trailing)]
      simp only [List.append_assoc, List.cons_append]
  rw [htext]
  rcases o.tail_splits with ⟨htail, -⟩ | ⟨t, htail, -⟩
  · rw [htail]
    rfl
  · have hquote := o.tail_free.1
    rw [htail] at hquote ⊢
    rw [nameEnd_option hquote]
    rfl

end End

/-! ### The server -/

section Server

variable {console : Splitter} {old name : List UInt8} {args before after : List (List UInt8)}

theorem others_append (h : NAME ∉ before) (value : List UInt8) (after : List (List UInt8)) :
    others (before ++ NAME :: value :: after) = before ++ others after := by
  induction before with
  | nil => rw [List.nil_append, others, if_pos rfl, List.nil_append]
  | cons a before ih =>
      have ha : a ≠ NAME := fun heq => h (heq ▸ List.mem_cons_self)
      have hrest := ih fun hmem => h (List.mem_cons_of_mem a hmem)
      rcases before with - | ⟨b, before⟩
      · rw [List.nil_append] at hrest
        rw [List.cons_append, List.nil_append, others, if_neg ha, hrest, List.nil_append,
          List.singleton_append]
      · rw [List.cons_append] at hrest
        rw [List.cons_append, List.cons_append, others, if_neg ha, hrest, List.cons_append,
          List.cons_append, List.cons_append]

theorem others_of_not_mem (h : NAME ∉ args) : others args = args := by
  induction args with
  | nil => rfl
  | cons a args ih =>
      have ha : a ≠ NAME := fun heq => h (heq ▸ List.mem_cons_self)
      have hrest := ih fun hmem => h (List.mem_cons_of_mem a hmem)
      rcases args with - | ⟨b, args⟩
      · rfl
      · rw [others, if_neg ha, hrest]

/-- What is cut out of a line is one option. -/
theorem OneName.withoutName_line (o : OneName) : withoutName o.line = o.front ++ o.tail := by
  have hfound : strstr o.line [32, 45, 110] = some ([32, 45, 110] ++ (o.text ++ o.tail)) := by
    have hbehind := strstr_behind (by decide) o.front_free (45 :: 110 :: (o.text ++ o.tail))
    rw [strstr, if_pos ⟨o.text ++ o.tail, rfl⟩] at hbehind
    exact hbehind
  have hlength : o.line.length - ([32, 45, 110] ++ (o.text ++ o.tail)).length =
      o.front.length := by
    rw [OneName.line, List.length_append, Nat.add_sub_cancel]
  have htake : o.line.take o.front.length = o.front := by
    rw [OneName.line, List.take_left]
  rw [withoutName, hfound]
  dsimp only
  rw [hlength, htake]
  exact congrArg (o.front ++ ·) o.nameEnd_text

/-- And what is left is the rest. -/
theorem OneName.splits_rest (o : OneName) : Splits (o.front ++ o.tail) (o.before ++ o.after) := by
  rcases o.tail_splits with ⟨htail, hafter⟩ | ⟨t, htail, hsplits⟩
  · rw [htail, hafter, List.append_nil, List.append_nil]
    exact o.front_splits
  · rw [htail]
    exact o.front_splits.append hsplits

theorem OneName.splits_line (o : OneName) :
    Splits o.line (o.before ++ NAME :: o.value :: o.after) := by
  have hoption : Word [45, 110] NAME := word_plain (by decide)
  have hvalue : Splits (List.replicate o.blanks 32 ++
      (o.raw ++ List.replicate o.trailing 32 ++ o.tail)) (o.value :: o.after) := by
    apply splits_blanks
    rcases o.tail_splits with ⟨htail, hafter⟩ | ⟨t, htail, hsplits⟩
    · rw [htail, hafter, List.append_nil]
      exact splits_word_blanks o.word o.trailing
    · rw [htail, List.append_assoc]
      rcases o.trailing with - | n
      · exact .word o.word hsplits
      · exact .word o.word (splits_blanks n (.blank hsplits))
  have hall := o.front_splits.append (.word hoption hvalue)
  rw [OneName.line, OneName.text]
  simpa only [List.append_assoc, List.cons_append, List.nil_append] using hall

theorem OneName.rest_free (o : OneName) : strstr (o.front ++ o.tail) [32, 45, 110] = none := by
  rcases o.tail_splits with ⟨htail, -⟩ | ⟨t, htail, -⟩
  · rw [htail, List.append_nil]
    exact o.front_free
  · have htailFree := o.tail_free.2
    rw [htail] at htailFree ⊢
    rw [strstr_behind (by decide) o.front_free, htailFree]

/-- A line that the server can edit, without the name. -/
theorem withoutName_spec (h : Splits old args) (console : Splitter)
    (hfits : ServerFits old args name) :
    Splits (withoutName old) (others args) ∧ NAME ∉ others args ∧
      strstr (withoutName old) [32, 45, 110] = none ∧ (withoutName old).length ≤ old.length := by
  rcases hfits.2.2 with ⟨hnone, hfree⟩ | ⟨o, rfl⟩
  · have hsame : withoutName old = old := by
      rw [withoutName, hnone]
    rw [hsame, others_of_not_mem hfree]
    exact ⟨h, hfree, hnone, Nat.le_refl _⟩
  · obtain rfl := h.unique console o.splits_line
    have hbefore : NAME ∉ o.before := fun hmem => o.others_free (List.mem_append_left _ hmem)
    have hafter : NAME ∉ o.after := fun hmem => o.others_free (List.mem_append_right _ hmem)
    rw [o.withoutName_line, others_append hbefore, others_of_not_mem hafter]
    refine ⟨o.splits_rest, o.others_free, o.rest_free, ?_⟩
    rw [OneName.line, List.length_append, List.length_append, List.length_append,
      List.length_append]
    omega

/-- A name that is in quotes already is replaced by itself. -/
theorem setName_setName (cmd name : List UInt8)
    (h : strstr (withoutName cmd) [32, 45, 110] = none) :
    setName (setName cmd name) name = setName cmd name := by
  have hfound : strstr (setName cmd name) [32, 45, 110] =
      some ([32, 45, 110, 32, 34] ++ name ++ [34]) := by
    have hbehind := strstr_behind (by decide) h (45 :: 110 :: 32 :: 34 :: (name ++ [34]))
    rw [strstr, if_pos ⟨32 :: 34 :: (name ++ [34]), rfl⟩] at hbehind
    exact hbehind
  have hend : nameEnd (32 :: 34 :: (name ++ [34])) = none := nameEnd_quote (32 :: 34 :: name) []
  have hlength : (setName cmd name).length - ([32, 45, 110, 32, 34] ++ name ++ [34]).length =
      (withoutName cmd).length := by
    rw [setName, List.length_append, Nat.add_sub_cancel]
  have hsame : withoutName (setName cmd name) = withoutName cmd := by
    rw [withoutName, hfound]
    dsimp only
    rw [hlength]
    have htake : (setName cmd name).take (withoutName cmd).length = withoutName cmd := by
      rw [setName, List.take_left]
    rw [htake]
    show withoutName cmd ++ (nameEnd (32 :: 34 :: (name ++ [34]))).getD [] = withoutName cmd
    rw [hend]
    exact List.append_nil _
  rw [setName, hsame, ← setName]

theorem server_renames (h : Splits old args) (hfits : ServerFits old args name) :
    ServerRenames console old name := by
  obtain ⟨hrest, hfree, hnone, hlength⟩ := withoutName_spec h console hfits
  refine ⟨fun args' h' => ?_, hlength, setName_setName old name hnone⟩
  obtain rfl := h.unique console h'
  have hoption : Splits (45 :: 110 :: 32 :: (34 :: name ++ [34])) [NAME, name] :=
    .word (show Word [45, 110] NAME from word_plain (by decide)) (.last (word_quoted hfits.1))
  have hnew : Splits (setName old name) (others args ++ [NAME, name]) := by
    have happend := hrest.append hoption
    rw [setName]
    simpa only [List.cons_append, List.nil_append] using happend
  refine ⟨others args, [], List.append_nil _, hfree, List.not_mem_nil, ?_⟩
  have hroom := hfits.2.1
  rw [console.documented hnew, List.take_of_length_le]
  rw [List.length_append, List.length_cons, List.length_singleton]
  omega

end Server

/-! ### The console -/

section Console

variable {console : Splitter} {old name cleaned : List UInt8}
  {args before after : List (List UInt8)}

/-- No name behind arguments that are no such option. -/
theorem renameArgs_append (cleaned : List UInt8) (h : ∀ a ∈ before, ¬ IsNameOption a)
    (args : List (List UInt8)) :
    renameArgs cleaned .scanning (before ++ args) =
      (before ++ (renameArgs cleaned .scanning args).1, (renameArgs cleaned .scanning args).2) := by
  induction before with
  | nil => rfl
  | cons a before ih =>
      rw [List.cons_append, renameArgs]
      rw [if_neg (h a List.mem_cons_self), ih fun b hb => h b (List.mem_cons_of_mem a hb)]
      rfl

theorem renameArgs_none (cleaned : List UInt8) (h : ∀ a ∈ args, ¬ IsNameOption a) :
    renameArgs cleaned .scanning args = (args, false) := by
  have happend := renameArgs_append cleaned h []
  rw [List.append_nil, renameArgs, List.append_nil] at happend
  exact happend

theorem renameArgs_one (h : ∀ a ∈ before ++ after, ¬ IsNameOption a) (value : List UInt8) :
    renameArgs cleaned .scanning (before ++ NAME :: value :: after) =
      (before ++ NAME :: cleaned :: after, true) := by
  have hname : IsNameOption NAME := .inr rfl
  have hafter := renameArgs_none cleaned fun a ha => h a (List.mem_append_right before ha)
  rw [renameArgs_append cleaned fun a ha => h a (List.mem_append_left after ha)]
  rw [renameArgs, if_pos hname, renameArgs, hafter]

theorem not_mem_of_plain (h : ∀ a ∈ args, Plain a ∧ ¬ IsNameOption a) : NAME ∉ args :=
  fun hmem => (h NAME hmem).2 (.inr rfl)

theorem cleanedName_of_not_mem (h : 32 ∉ name) : cleanedName name = name := by
  have hsame : ∀ c ∈ name, (if c = 32 then 95 else c) = c := by
    intro c hc
    rw [if_neg]
    intro heq
    rw [heq] at hc
    exact h hc
  rw [cleanedName, List.map_congr_left hsame, List.map_id']

/-- The arguments of a new line, with the name in its place. -/
def renewed (before : List (List UInt8)) (name : List UInt8) (after : List (List UInt8)) :
    List (List UInt8) :=
  before ++ NAME :: cleanedName name :: after

/-- They can be written as they are. -/
theorem splits_renewed (hplain : ∀ a ∈ before ++ after, Plain a ∧ ¬ IsNameOption a)
    (hname : Plain (cleanedName name)) :
    Splits (join (renewed before name after)) (renewed before name after) := by
  apply splits_join
  intro a ha
  rcases List.mem_append.mp ha with ha | ha
  · exact (hplain a (List.mem_append_left after ha)).1
  · rcases List.mem_cons.mp ha with rfl | ha
    · decide
    · rcases List.mem_cons.mp ha with rfl | ha
      · exact hname
      · exact (hplain a (List.mem_append_right before ha)).1

theorem ne_nil_of_splits (console : Splitter) (h : Splits old args) (hne : args ≠ []) :
    old ≠ [] := by
  rintro rfl
  exact hne (h.unique console .nil)

/-- Of a line with the option once the console makes one with the name in its place. -/
theorem set_one (h : Splits old (before ++ NAME :: args)) (value : List UInt8)
    (hargs : args = value :: after) (hlength : (before ++ NAME :: args).length < 22)
    (hplain : ∀ a ∈ before ++ after, ¬ IsNameOption a) :
    setSqueezelitePlayerName console old name =
      some ⟨join (renewed before name after), old.length + (cleanedName name).length + 4 + 1⟩ := by
  have hne : old ≠ [] := ne_nil_of_splits console h
    (List.append_ne_nil_of_right_ne_nil _ (List.cons_ne_nil _ _))
  have hsplit : console.split old 22 = before ++ NAME :: args := by
    rw [console.documented h, List.take_of_length_le (by omega)]
  rw [setSqueezelitePlayerName, if_neg hne, hsplit, hargs, renameArgs_one hplain]
  dsimp only
  rw [if_pos rfl, List.append_nil, renewed]

/-- Of one without it, it makes one with the option at its end. -/
theorem set_none (h : Splits old args) (hne : args ≠ []) (hlength : args.length < 22)
    (hplain : ∀ a ∈ args, ¬ IsNameOption a) (hname : 32 ∉ name) :
    setSqueezelitePlayerName console old name =
      some ⟨join (renewed args name []), old.length + (cleanedName name).length + 4 + 1⟩ := by
  have hold : old ≠ [] := ne_nil_of_splits console h hne
  have hsplit : console.split old 22 = args := by
    rw [console.documented h, List.take_of_length_le (by omega)]
  have hjoin : join (renewed args name []) = join args ++ ([32, 45, 110, 32] ++ name) := by
    rw [renewed, cleanedName_of_not_mem hname, join_append hne (List.cons_ne_nil _ _)]
    rfl
  rw [setSqueezelitePlayerName, if_neg hold, hsplit, renameArgs_none _ hplain, hjoin]
  rfl

/-- The new line, for the lines that the console can join again. -/
theorem set_renewed (console : Splitter) (h : Splits old args) (hfits : ConsoleFits args name) :
    ∃ before after, others args = before ++ after ∧
      (∀ a ∈ before ++ after, Plain a ∧ ¬ IsNameOption a) ∧
      (renewed before name after).length < 22 ∧
      extent (renewed before name after) ≤ old.length + (cleanedName name).length + 5 ∧
      setSqueezelitePlayerName console old name =
        some ⟨join (renewed before name after),
          old.length + (cleanedName name).length + 4 + 1⟩ := by
  have hextent := h.extent_le
  rcases hfits.2 with ⟨before, value, after, rfl, hlength, hplain⟩ |
    ⟨hne, hlength, hplain, hname⟩
  · refine ⟨before, after, ?_, hplain, ?_, ?_, ?_⟩
    · have hbefore : NAME ∉ before :=
        not_mem_of_plain fun a ha => hplain a (List.mem_append_left after ha)
      have hafter : NAME ∉ after :=
        not_mem_of_plain fun a ha => hplain a (List.mem_append_right before ha)
      rw [others_append hbefore, others_of_not_mem hafter]
    · rw [List.length_append, List.length_cons, List.length_cons] at hlength
      rw [renewed, List.length_append, List.length_cons, List.length_cons]
      exact hlength
    · rw [extent_append, extent_cons, extent_cons] at hextent
      rw [renewed, extent_append, extent_cons, extent_cons]
      omega
    · exact set_one h value rfl hlength fun a ha => (hplain a ha).2
  · refine ⟨args, [], ?_, ?_, ?_, ?_, ?_⟩
    · rw [others_of_not_mem (not_mem_of_plain hplain), List.append_nil]
    · rw [List.append_nil]
      exact hplain
    · rw [renewed, List.length_append, List.length_cons, List.length_singleton]
      omega
    · have hlength : NAME.length = 2 := rfl
      rw [renewed, extent_append, extent_cons, extent_cons, extent_nil]
      omega
    · exact set_none h hne (by omega) (fun a ha => (hplain a ha).2) hname

theorem console_renames (h : Splits old args) (hfits : ConsoleFits args name) :
    ∃ new, ConsoleRenames console old name new := by
  obtain ⟨before, after, hothers, hplain, hlength, hextent, hset⟩ :=
    set_renewed console h hfits
  have hsplits := splits_renewed hplain hfits.1
  have hbefore : NAME ∉ before :=
    not_mem_of_plain fun a ha => hplain a (List.mem_append_left after ha)
  have hafter : NAME ∉ after :=
    not_mem_of_plain fun a ha => hplain a (List.mem_append_right before ha)
  refine ⟨_, hset, fun args' h' => ?_, ?_, ?_⟩
  · obtain rfl := h.unique console h'
    refine ⟨before, after, hothers.symm, hbefore, hafter, ?_⟩
    have hroom : (renewed before name after).length ≤ MAX_CMDLINE_ARGS - 1 := by
      rw [MAX_CMDLINE_ARGS]
      omega
    dsimp only
    rw [console.documented hsplits, List.take_of_length_le hroom, renewed]
  · have hne : renewed before name after ≠ [] :=
      List.append_ne_nil_of_right_ne_nil _ (List.cons_ne_nil _ _)
    dsimp only
    rw [length_join hne]
    omega
  · dsimp only
    rw [set_one hsplits (cleanedName name) rfl hlength fun a ha => (hplain a ha).2]
    rfl

end Console

/-- The server and the console rename the player, for the lines and names that fit. -/
theorem renames (console : Splitter) (old : List UInt8) (args : List (List UInt8))
    (name : List UInt8) (h : Splits old args) :
    (ServerFits old args name → ServerRenames console old name) ∧
      (ConsoleFits args name → ∃ new, ConsoleRenames console old name new) :=
  ⟨server_renames h, console_renames h⟩

/-- A line with the option between the command and another option. -/
def oldLine : OneName where
  front := CString.ascii "squeezelite"
  blanks := 0
  raw := CString.ascii "Muse"
  trailing := 0
  tail := CString.ascii " -o I2S"
  before := [CString.ascii "squeezelite"]
  value := CString.ascii "Muse"
  after := [CString.ascii "-o", CString.ascii "I2S"]
  front_splits := .last (word_plain (by decide))
  front_free := by decide
  word := word_plain (by decide)
  value_free := .inr (by decide)
  tail_splits := .inr ⟨CString.ascii "o I2S", by decide,
    splits_join (show ∀ a ∈ [CString.ascii "-o", CString.ascii "I2S"], Plain a by decide)⟩
  tail_free := by decide
  others_free := by decide

/-- The player of that line moves to the living room. -/
theorem living_room :
    ServerRenames splitter oldLine.line (CString.ascii "living room") ∧
      ∃ new, ConsoleRenames splitter oldLine.line (CString.ascii "living room") new :=
  ⟨(renames splitter oldLine.line _ (CString.ascii "living room") oldLine.splits_line).1
      ⟨by decide, by decide, .inr ⟨oldLine, rfl⟩⟩,
    (renames splitter oldLine.line _ (CString.ascii "living room") oldLine.splits_line).2
      ⟨by decide, .inl ⟨oldLine.before, oldLine.value, oldLine.after, rfl, by decide, by decide⟩⟩⟩

/-- For the server, an option with a value in quotes is part of the name. -/
theorem quoted_value_lost :
    ¬ ∀ (console : Splitter) (old : List UInt8) (args : List (List UInt8)) (name : List UInt8),
      Splits old args →
        ServerRenames console old name ∧ ∃ new, ConsoleRenames console old name new := by
  intro h
  have hvalue : Word (34 :: CString.ascii "x y" ++ [34]) (CString.ascii "x y") :=
    word_quoted (by decide)
  have hplain : ∀ a ∈ [CString.ascii "s", NAME, CString.ascii "A", CString.ascii "-o"],
      Plain a := by decide
  have hsplits := (splits_join hplain).append (.last hvalue)
  obtain ⟨xs, ys, hall, -, -, hnew⟩ :=
    (h splitter _ _ (CString.ascii "B") hsplits).1.renamed _ hsplits
  have hthree : (xs ++ ys).length = 3 := by
    rw [hall]
    decide
  have hlength : (xs ++ NAME :: CString.ascii "B" :: ys).length = 3 := by
    rw [← hnew]
    decide
  rw [List.length_append, List.length_cons, List.length_cons] at hlength
  rw [List.length_append] at hthree
  omega

end PlayerName

end SqueezeliteMuse
