/-
SqueezeliteMuse/Lib/CommandLine.lean

Command lines with quotes and escapes.

An argument is written bare, or in quotes if it has blanks, and a backslash stands before a
blank, a quote or a backslash that is meant as such.  `Splits line args` says that a line is
written in this way; what a splitter makes of other lines is left open (`Splitter`).  A line that is
read like this can be written behind another (`Splits.append`), and arguments without blanks,
quotes and backslashes can be written as they are (`splits_join`).

`argv` is a splitter, with one state for each kind of place in a line.
Nothing here is about a particular program.
-/
import Mathlib.Algebra.Order.Ring.Int
import Mathlib.Data.List.Basic
import Mathlib.Data.Nat.Notation
import Mathlib.Tactic.Common

namespace CommandLine

/-- The characters that have a meaning: a blank, a quote and a backslash. -/
def Special (c : UInt8) : Prop := c = 32 ∨ c = 34 ∨ c = 92

instance (c : UInt8) : Decidable (Special c) := inferInstanceAs (Decidable (_ ∨ _ ∨ _))

/-- How a text is written outside quotes. -/
inductive Unquoted : List UInt8 → List UInt8 → Prop
  | nil : Unquoted [] []
  | char {c : UInt8} {raw text : List UInt8} (hc : ¬ Special c) (h : Unquoted raw text) :
      Unquoted (c :: raw) (c :: text)
  | escape {c : UInt8} {raw text : List UInt8} (hc : Special c) (h : Unquoted raw text) :
      Unquoted (92 :: c :: raw) (c :: text)

/-- How a text is written in quotes. -/
inductive InQuotes : List UInt8 → List UInt8 → Prop
  | nil : InQuotes [] []
  | char {c : UInt8} {raw text : List UInt8} (hc : c ≠ 34 ∧ c ≠ 92) (h : InQuotes raw text) :
      InQuotes (c :: raw) (c :: text)
  | escape {c : UInt8} {raw text : List UInt8} (hc : Special c) (h : InQuotes raw text) :
      InQuotes (92 :: c :: raw) (c :: text)

/-- How an argument is written. -/
inductive Word : List UInt8 → List UInt8 → Prop
  | bare {raw text : List UInt8} (hne : raw ≠ []) (h : Unquoted raw text) : Word raw text
  | quoted {raw text : List UInt8} (h : InQuotes raw text) : Word (34 :: raw ++ [34]) text

/-- How a line with some arguments is written. -/
inductive Splits : List UInt8 → List (List UInt8) → Prop
  | nil : Splits [] []
  | blank {line : List UInt8} {args : List (List UInt8)} (h : Splits line args) :
      Splits (32 :: line) args
  | last {raw text : List UInt8} (hw : Word raw text) : Splits raw [text]
  | word {raw text line : List UInt8} {args : List (List UInt8)} (hw : Word raw text)
      (h : Splits line args) : Splits (raw ++ 32 :: line) (text :: args)

/-- What makes arguments of a line, less than `size` of them. -/
structure Splitter where
  split : List UInt8 → ℕ → List (List UInt8)
  documented : ∀ {line : List UInt8} {args : List (List UInt8)}, Splits line args →
    ∀ size, split line size = args.take (size - 1)

/-- An argument that can be written as it is. -/
def Plain (text : List UInt8) : Prop := text ≠ [] ∧ ∀ c ∈ text, ¬ Special c

instance (text : List UInt8) : Decidable (Plain text) :=
  have : Decidable (∀ c ∈ text, ¬ Special c) := List.decidableBAll _ text
  inferInstanceAs (Decidable (_ ∧ _))

/-- A text that can be put in quotes as it is. -/
def Quotable (text : List UInt8) : Prop := ∀ c ∈ text, c ≠ 34 ∧ c ≠ 92

instance (text : List UInt8) : Decidable (Quotable text) := List.decidableBAll _ text

/-- Arguments with one blank between two of them. -/
def join : List (List UInt8) → List UInt8
  | [] => []
  | [a] => a
  | a :: b :: args => a ++ 32 :: join (b :: args)

section Lines

variable {line line' raw text : List UInt8} {args args' : List (List UInt8)}

/-- A line behind a line. -/
theorem Splits.append (h : Splits line args) (h' : Splits line' args') :
    Splits (line ++ 32 :: line') (args ++ args') := by
  induction h with
  | nil => exact .blank h'
  | blank _ ih => exact .blank ih
  | last hw => exact .word hw h'
  | word hw _ ih =>
      rw [List.append_assoc, List.cons_append]
      exact .word hw ih

theorem splits_blanks (n : ℕ) (h : Splits line args) :
    Splits (List.replicate n 32 ++ line) args := by
  induction n with
  | zero => exact h
  | succ n ih => exact .blank ih

/-- Blanks behind the last argument. -/
theorem splits_word_blanks (hw : Word raw text) (n : ℕ) :
    Splits (raw ++ List.replicate n 32) [text] := by
  rcases n with - | n
  · rw [List.replicate_zero, List.append_nil]
    exact .last hw
  · have hblanks := splits_blanks n .nil
    rw [List.append_nil] at hblanks
    exact .word hw hblanks

theorem unquoted_plain (h : ∀ c ∈ text, ¬ Special c) : Unquoted text text := by
  induction text with
  | nil => exact .nil
  | cons c text ih =>
      exact .char (h c List.mem_cons_self) (ih fun d hd => h d (List.mem_cons_of_mem c hd))

theorem word_plain (h : Plain text) : Word text text := .bare h.1 (unquoted_plain h.2)

/-- In quotes, all that matters is quotes and backslashes. -/
theorem inQuotes_quotable (h : Quotable text) : InQuotes text text := by
  induction text with
  | nil => exact .nil
  | cons c text ih =>
      exact .char (h c List.mem_cons_self) (ih fun d hd => h d (List.mem_cons_of_mem c hd))

theorem word_quoted (h : Quotable text) : Word (34 :: text ++ [34]) text :=
  .quoted (inQuotes_quotable h)

/-- Arguments that can be written as they are. -/
theorem splits_join (h : ∀ a ∈ args, Plain a) : Splits (join args) args := by
  induction args with
  | nil => exact .nil
  | cons a args ih =>
      have ha := word_plain (h a List.mem_cons_self)
      rcases args with - | ⟨b, args⟩
      · exact .last ha
      · exact .word ha (ih fun c hc => h c (List.mem_cons_of_mem a hc))

theorem join_append (hne : args ≠ []) (hne' : args' ≠ []) :
    join (args ++ args') = join args ++ 32 :: join args' := by
  induction args with
  | nil => exact absurd rfl hne
  | cons a args ih =>
      obtain ⟨b, args', rfl⟩ := List.exists_cons_of_ne_nil hne'
      rcases args with - | ⟨c, args⟩
      · rfl
      · rw [List.cons_append, List.cons_append, join, ← List.cons_append,
          ih (List.cons_ne_nil c args), join, List.append_assoc, List.cons_append]

/-- The bytes of the arguments, and one more for each. -/
def extent (args : List (List UInt8)) : ℕ := (args.map fun a => a.length + 1).sum

@[simp] theorem extent_nil : extent [] = 0 := rfl

@[simp] theorem extent_cons (a : List UInt8) (args : List (List UInt8)) :
    extent (a :: args) = a.length + 1 + extent args := by
  simp [extent]

@[simp] theorem extent_append (args args' : List (List UInt8)) :
    extent (args ++ args') = extent args + extent args' := by
  simp [extent]

theorem length_join (hne : args ≠ []) : (join args).length + 1 = extent args := by
  induction args with
  | nil => exact absurd rfl hne
  | cons a args ih =>
      rcases args with - | ⟨b, args⟩
      · rw [join, extent_cons, extent_nil]
      · have hrest := ih (List.cons_ne_nil b args)
        rw [join, List.length_append, List.length_cons, extent_cons]
        omega

theorem Unquoted.length_le (h : Unquoted raw text) : text.length ≤ raw.length := by
  induction h with
  | nil => exact Nat.le_refl _
  | char _ _ ih => exact Nat.succ_le_succ ih
  | escape _ _ ih =>
      rw [List.length_cons, List.length_cons, List.length_cons]
      omega

theorem InQuotes.length_le (h : InQuotes raw text) : text.length ≤ raw.length := by
  induction h with
  | nil => exact Nat.le_refl _
  | char _ _ ih => exact Nat.succ_le_succ ih
  | escape _ _ ih =>
      rw [List.length_cons, List.length_cons, List.length_cons]
      omega

theorem Word.length_le (h : Word raw text) : text.length ≤ raw.length := by
  cases h with
  | bare _ h => exact h.length_le
  | quoted h =>
      have hle := h.length_le
      rw [List.length_append, List.length_cons]
      omega

/-- The arguments are not longer than the line they come from. -/
theorem Splits.extent_le (h : Splits line args) : extent args ≤ line.length + 1 := by
  induction h with
  | nil => exact Nat.zero_le _
  | blank _ ih =>
      rw [List.length_cons]
      omega
  | last hw =>
      have hle := hw.length_le
      rw [extent_cons, extent_nil]
      omega
  | word hw _ ih =>
      have hle := hw.length_le
      rw [extent_cons, List.length_append, List.length_cons]
      omega

/-- A line is read in one way. -/
theorem Splits.unique (s : Splitter) (h : Splits line args) (h' : Splits line args') :
    args = args' := by
  have hsize := (s.documented h (args.length + args'.length + 1)).symm.trans
    (s.documented h' (args.length + args'.length + 1))
  rwa [Nat.add_sub_cancel, List.take_of_length_le (by omega),
    List.take_of_length_le (by omega)] at hsize

end Lines

/-! ### A splitter -/

/-- Where in a line a splitter is. -/
inductive Place
  | space | arg | quotedArg | argEscaped | quotedArgEscaped

/-- The arguments of the rest of a line, behind what there is of the current one. -/
def argv : Place → List UInt8 → List UInt8 → List (List UInt8)
  | .space, _, [] => []
  | _, arg, [] => [arg]
  | .space, arg, c :: line =>
      if c = 32 then argv .space arg line
      else if c = 34 then argv .quotedArg [] line
      else if c = 92 then argv .argEscaped [] line
      else argv .arg [c] line
  | .arg, arg, c :: line =>
      if c = 32 then arg :: argv .space [] line
      else if c = 92 then argv .argEscaped arg line
      else argv .arg (arg ++ [c]) line
  | .quotedArg, arg, c :: line =>
      if c = 34 then arg :: argv .space [] line
      else if c = 92 then argv .quotedArgEscaped arg line
      else argv .quotedArg (arg ++ [c]) line
  | .argEscaped, arg, c :: line =>
      argv .arg (if Special c then arg ++ [c] else arg) line
  | .quotedArgEscaped, arg, c :: line =>
      argv .quotedArg (if Special c then arg ++ [c] else arg) line

attribute [local simp] argv

section Argv

variable {raw text line : List UInt8} {args : List (List UInt8)}

theorem argv_unquoted (h : Unquoted raw text) (arg rest : List UInt8) :
    argv .arg arg (raw ++ rest) = argv .arg (arg ++ text) rest := by
  induction h generalizing arg with
  | nil => rw [List.nil_append, List.append_nil]
  | char hc _ ih =>
      obtain ⟨hblank, -, hescape⟩ := not_or.mp hc |>.imp_right not_or.mp
      rw [List.cons_append, argv, if_neg hblank, if_neg hescape, ih, List.append_assoc,
        List.singleton_append]
  | escape hc _ ih =>
      rw [List.cons_append, List.cons_append, argv, if_neg (by decide), if_pos rfl, argv,
        if_pos hc, ih, List.append_assoc, List.singleton_append]

theorem argv_inQuotes (h : InQuotes raw text) (arg rest : List UInt8) :
    argv .quotedArg arg (raw ++ rest) = argv .quotedArg (arg ++ text) rest := by
  induction h generalizing arg with
  | nil => rw [List.nil_append, List.append_nil]
  | char hc _ ih =>
      rw [List.cons_append, argv, if_neg hc.1, if_neg hc.2, ih, List.append_assoc,
        List.singleton_append]
  | escape hc _ ih =>
      rw [List.cons_append, List.cons_append, argv, if_neg (by decide), if_pos rfl, argv,
        if_pos hc, ih, List.append_assoc, List.singleton_append]

/-- A first character outside quotes opens an argument. -/
theorem argv_bare (hne : raw ≠ []) (h : Unquoted raw text) (arg rest : List UInt8) :
    argv .space arg (raw ++ rest) = argv .arg text rest := by
  cases h with
  | nil => exact absurd rfl hne
  | char hc h =>
      obtain ⟨hblank, hquote, hescape⟩ := not_or.mp hc |>.imp_right not_or.mp
      rw [List.cons_append, argv, if_neg hblank, if_neg hquote, if_neg hescape,
        argv_unquoted h, List.singleton_append]
  | escape hc h =>
      rw [List.cons_append, List.cons_append, argv, if_neg (by decide), if_neg (by decide),
        if_pos rfl, argv, if_pos hc, argv_unquoted h, List.nil_append, List.singleton_append]

/-- Behind an argument there is a blank. -/
theorem argv_word (h : Word raw text) (arg rest : List UInt8) :
    argv .space arg (raw ++ 32 :: rest) = text :: argv .space [] rest := by
  cases h with
  | bare hne h => rw [argv_bare hne h, argv, if_pos rfl]
  | quoted h =>
      rw [List.append_assoc, List.cons_append, argv, if_neg (by decide), if_pos rfl,
        argv_inQuotes h, List.nil_append, List.singleton_append, argv, if_pos rfl, argv, if_pos rfl]

/-- Or there is nothing. -/
theorem argv_last (h : Word raw text) (arg : List UInt8) : argv .space arg raw = [text] := by
  cases h with
  | bare hne h =>
      have hbare := argv_bare hne h arg []
      rw [List.append_nil] at hbare
      rw [hbare, argv]
      exact fun h => Place.noConfusion h
  | quoted h =>
      rw [List.cons_append, argv, if_neg (by decide), if_pos rfl, argv_inQuotes h,
        List.nil_append, argv, if_pos rfl, argv]

theorem argv_eq (h : Splits line args) (arg : List UInt8) : argv .space arg line = args := by
  induction h generalizing arg with
  | nil => rfl
  | blank _ ih => rw [argv, if_pos rfl, ih]
  | last hw => exact argv_last hw arg
  | word hw _ ih => rw [argv_word hw, ih]

/-- The arguments of a line, but less than `size`. -/
def splitter : Splitter where
  split line size := (argv .space [] line).take (size - 1)
  documented h size := by rw [argv_eq h]

end Argv

end CommandLine
