/-
SqueezeliteMuse/Lib/Words.lean

The words of a line, which are separated by one character, repeated or not.

`words` is what `strtok` gives one after the other (`strtok_words`).  A line is known by its words up
to the separators between them: `words_eq_cons` finds the first word in the line, and
`words_append_join` gives back the words that are put behind a line.

Nothing here is about a particular program.
-/
import SqueezeliteMuse.Lib.CString
import Mathlib.Data.List.TakeWhile

namespace Words

open CString

variable (sep : UInt8)

/-- The words, the first of which has begun. -/
def wordsFrom : List UInt8 → List UInt8 → List (List UInt8)
  | cur, [] => if cur = [] then [] else [cur]
  | cur, c :: s =>
      if c = sep then if cur = [] then wordsFrom [] s else cur :: wordsFrom [] s
      else wordsFrom (cur ++ [c]) s

def words (s : List UInt8) : List (List UInt8) := wordsFrom sep [] s

/-- What can stand as a word. -/
def Word (w : List UInt8) : Prop := w ≠ [] ∧ sep ∉ w

/-- What can follow a word. -/
def Ends (r : List UInt8) : Prop := r = [] ∨ ∃ r', r = sep :: r'

/-- Words with a separator in front of each. -/
def join (ws : List (List UInt8)) : List UInt8 := ws.flatMap fun w => sep :: w

variable {sep} {s r t : List UInt8}

@[simp] theorem words_nil : words sep [] = [] := rfl

@[simp] theorem words_sep (s : List UInt8) : words sep (sep :: s) = words sep s := by
  rw [words, wordsFrom, if_pos rfl, if_pos rfl, words]

theorem wordsFrom_append (cur x y : List UInt8) :
    wordsFrom sep cur (x ++ sep :: y) = wordsFrom sep cur x ++ words sep y := by
  induction x generalizing cur with
  | nil =>
      simp only [List.nil_append, wordsFrom, if_true, words]
      split
      case isTrue => rfl
      case isFalse => rfl
  | cons c x ih =>
      rw [List.cons_append, wordsFrom, wordsFrom]
      split
      case isTrue =>
        split
        case isTrue => exact ih []
        case isFalse => rw [ih [], List.cons_append]
      case isFalse => exact ih _

theorem words_append (x y : List UInt8) :
    words sep (x ++ sep :: y) = words sep x ++ words sep y :=
  wordsFrom_append [] x y

theorem words_seps {bl : List UInt8} (h : ∀ c ∈ bl, c = sep) (s : List UInt8) :
    words sep (bl ++ s) = words sep s := by
  induction bl with
  | nil => rfl
  | cons c bl ih =>
      obtain rfl := h c List.mem_cons_self
      rw [List.cons_append, words_sep, ih fun c hc => h c (List.mem_cons_of_mem _ hc)]

theorem wordsFrom_word (cur : List UInt8) (h : sep ∉ t) :
    wordsFrom sep cur t = if cur ++ t = [] then [] else [cur ++ t] := by
  induction t generalizing cur with
  | nil => rw [wordsFrom, List.append_nil]
  | cons c t ih =>
      simp only [List.mem_cons, not_or] at h
      rw [wordsFrom, if_neg (Ne.symm h.1), ih _ h.2, List.append_assoc, List.singleton_append]

theorem words_word (h : Word sep t) : words sep t = [t] := by
  rw [words, wordsFrom_word [] h.2, List.nil_append, if_neg h.1]

/-- A word that begins a line. -/
theorem words_cons (h : Word sep t) (hr : Ends sep r) :
    words sep (t ++ r) = t :: words sep r := by
  rcases hr with rfl | ⟨r', rfl⟩
  · rw [List.append_nil, words_word h, words_nil]
  · rw [words_append, words_word h, words_sep, List.singleton_append]

theorem words_append_join {ws : List (List UInt8)} (h : ∀ w ∈ ws, Word sep w) (x : List UInt8) :
    words sep (x ++ join sep ws) = words sep x ++ ws := by
  induction ws generalizing x with
  | nil => rw [join, List.flatMap_nil, List.append_nil, List.append_nil]
  | cons w ws ih =>
      have hw := h w List.mem_cons_self
      have hends : Ends sep (join sep ws) := by
        rcases ws with - | ⟨v, ws⟩
        · exact .inl rfl
        · exact .inr ⟨_, rfl⟩
      have hjoin : join sep (w :: ws) = sep :: (w ++ join sep ws) := rfl
      have hws := ih (fun w hw => h w (List.mem_cons_of_mem _ hw)) []
      rw [List.nil_append, words_nil, List.nil_append] at hws
      rw [hjoin, words_append, words_cons hw hends, hws]

/-- The first word stands behind separators. -/
theorem words_eq_cons {ws : List (List UInt8)} (h : words sep s = t :: ws) :
    ∃ bl r, s = bl ++ t ++ r ∧ (∀ c ∈ bl, c = sep) ∧ Word sep t ∧ Ends sep r ∧
      words sep r = ws := by
  have hbl : ∀ c ∈ s.takeWhile (· = sep), c = sep := fun c hc => by
    simpa using List.mem_takeWhile_imp hc
  have hs : s.takeWhile (· = sep) ++ s.dropWhile (· = sep) = s := List.takeWhile_append_dropWhile
  rcases hrest : s.dropWhile (· = sep) with - | ⟨c, s'⟩
  · rw [← hs, hrest, words_seps hbl] at h
    cases h
  · have hc : c ≠ sep := by
      have hhead := List.head?_dropWhile_not (· = sep) s
      rw [hrest] at hhead
      simpa using hhead
    have hword : Word sep ((c :: s').takeWhile (· ≠ sep)) := by
      refine ⟨?_, fun hmem => ?_⟩
      · rw [List.takeWhile_cons_of_pos (by simpa using hc)]
        exact List.cons_ne_nil _ _
      · simpa using List.mem_takeWhile_imp hmem
    have hends : Ends sep ((c :: s').dropWhile (· ≠ sep)) := by
      rcases hr : (c :: s').dropWhile (· ≠ sep) with - | ⟨d, r⟩
      · exact .inl rfl
      · have hhead := List.head?_dropWhile_not (· ≠ sep) (c :: s')
        rw [hr] at hhead
        have hd : d = sep := by simpa using hhead
        exact .inr ⟨r, by rw [hd]⟩
    have hsplit : (c :: s').takeWhile (· ≠ sep) ++ (c :: s').dropWhile (· ≠ sep) = c :: s' :=
      List.takeWhile_append_dropWhile
    rw [← hs, hrest, words_seps hbl, ← hsplit, words_cons hword hends] at h
    obtain ⟨rfl, hws⟩ := List.cons.inj h
    refine ⟨_, _, ?_, hbl, hword, hends, hws⟩
    rw [List.append_assoc, hsplit, ← hrest, hs]

theorem word_of_mem (h : t ∈ words sep s) : Word sep t := by
  induction hw : words sep s generalizing s with
  | nil =>
      rw [hw] at h
      cases h
  | cons v ws ih =>
      obtain ⟨-, r, -, -, hword, -, hr⟩ := words_eq_cons hw
      rw [hw] at h
      rcases List.mem_cons.mp h with rfl | h
      · exact hword
      · exact ih (hr ▸ h) hr

/-- Any words make a line. -/
theorem words_line {ws : List (List UInt8)} (h : ∀ w ∈ ws, Word sep w) :
    words sep (join sep ws) = ws := by
  have hjoin := words_append_join h []
  rwa [List.nil_append, words_nil, List.nil_append] at hjoin

/-- The words with a separator each are no longer than the line and one more. -/
theorem length_join_words (s : List UInt8) : (join sep (words sep s)).length ≤ s.length + 1 := by
  have hfrom (cur : List UInt8) :
      (join sep (wordsFrom sep cur s)).length ≤ cur.length + s.length + 1 := by
    induction s generalizing cur with
    | nil =>
        rw [wordsFrom]
        split <;> simp [join]
    | cons c s ih =>
        have hnil := ih []
        have hnext := ih (cur ++ [c])
        simp only [join, List.length_nil, List.length_append, List.length_cons] at hnil hnext
        simp only [wordsFrom, join]
        split
        · split
          · simp only [List.length_cons]
            omega
          · simp only [List.flatMap_cons, List.length_append, List.length_cons]
            omega
        · simp only [List.length_cons]
          omega
  have hall := hfrom []
  rw [List.length_nil, Nat.zero_add] at hall
  exact hall

/-- Behind a word there is room for what follows. -/
theorem length_join_le (h : Ends sep r) : (join sep (words sep r)).length ≤ r.length := by
  rcases h with rfl | ⟨r', rfl⟩
  · exact le_rfl
  · rw [words_sep]
    exact length_join_words r'

theorem wordsFrom_ne_nil {cur : List UInt8} (h : cur ≠ []) (s : List UInt8) :
    wordsFrom sep cur s ≠ [] := by
  induction s generalizing cur with
  | nil => simp [wordsFrom, h]
  | cons c s ih =>
      rw [wordsFrom]
      split
      case isTrue => exact List.cons_ne_nil _ _
      case isFalse => exact ih (by simp)

/-- A character that is no separator is part of a word. -/
theorem words_ne_nil {c : UInt8} (hc : c ≠ sep) (h : c ∈ s) : words sep s ≠ [] := by
  rw [words]
  induction s with
  | nil => cases h
  | cons d s ih =>
      rw [wordsFrom]
      split
      case isTrue hd =>
        rw [if_pos rfl]
        exact ih ((List.mem_cons.mp h).resolve_left fun heq => hc (heq.trans hd))
      case isFalse => exact wordsFrom_ne_nil (by simp) s

/-- The words, one after the other. -/
theorem strtok_words (s : List UInt8) :
    (strtok [sep] s = none ∧ words sep s = []) ∨
      ∃ t rest, strtok [sep] s = some (t, rest) ∧ words sep s = t :: words sep rest ∧
        rest.length < s.length := by
  rcases hw : words sep s with - | ⟨t, ws⟩
  · refine .inl ⟨?_, rfl⟩
    rw [strtok]
    have hnil : s.dropWhile (· ∈ [sep]) = [] := by
      rw [List.dropWhile_eq_nil_iff]
      intro c hc
      by_contra hne
      exact words_ne_nil (by simpa using hne) hc hw
    rw [hnil]
  · obtain ⟨bl, r, rfl, hbl, hword, hends, hr⟩ := words_eq_cons hw
    obtain ⟨c, t', rfl⟩ := List.exists_cons_of_ne_nil hword.1
    have hdrop : (bl ++ (c :: t') ++ r).dropWhile (· ∈ [sep]) = (c :: t') ++ r := by
      have hc : c ≠ sep := fun heq => hword.2 (heq ▸ List.mem_cons_self)
      rw [List.append_assoc, List.dropWhile_append_of_pos (fun x hx => by simp [hbl x hx]),
        List.cons_append, List.dropWhile_cons_of_neg (by simpa using hc)]
    have hkeep : ∀ x ∈ c :: t', decide (x ∉ [sep]) = true := by
      intro x hx
      have hne : x ≠ sep := fun heq => hword.2 (heq ▸ hx)
      simpa using hne
    refine .inr ⟨c :: t', r.tail, ?_, ?_, ?_⟩
    · rw [strtok, hdrop, List.cons_append]
      simp only [← List.cons_append]
      rw [List.takeWhile_append_of_pos hkeep, List.dropWhile_append_of_pos hkeep]
      rcases hends with rfl | ⟨r', rfl⟩
      · rw [List.takeWhile_nil, List.dropWhile_nil, List.append_nil]
      · rw [List.takeWhile_cons_of_neg (by simp), List.dropWhile_cons_of_neg (by simp),
          List.append_nil]
    · rcases hends with rfl | ⟨r', rfl⟩
      · rw [← hr, List.tail_nil]
      · rw [← hr, words_sep, List.tail_cons]
    · simp only [List.length_append, List.length_cons, List.length_tail]
      omega

end Words
