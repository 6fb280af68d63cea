/-
SqueezeliteMuse/Equalizer.lean

The settings of the equalizer, as they are kept in the configuration.

`equalizer_update` writes a band as a sign and two characters, each a part of the gain with
0x30 added, and puts a comma between two bands.  The parts of a gain below 0 are themselves
below 0, so what follows its sign are no digits.  `equalizer_init` takes the tokens between
the separators, and `atoi` of each.

Main result: `read_back_iff`: the gains come back exactly where none of them is below 0.
-/
import SqueezeliteMuse.Lib.CString
import Mathlib.Tactic.IntervalCases

namespace SqueezeliteMuse

namespace Equalizer

open CString

/-! ### The code -/

def EQ_BANDS : ℕ := 10

/-- `s8_t gain[EQ_BANDS]` -/
structure Gains where
  bands : List ℤ
  count : bands.length = EQ_BANDS
  fits : ∀ g ∈ bands, -128 ≤ g ∧ g ≤ 127

/-- `equalizer`, and the entry of the configuration. -/
structure State where
  gain : Gains
  update : Bool
  config : List UInt8

/-- An `int`, as a `char` keeps it. -/
def toChar (x : ℤ) : UInt8 := UInt8.ofInt x

/-- What `equalizer_update` writes for a band. -/
def bandText (g : ℤ) : List UInt8 :=
  (if g < 0 then [45] else []) ++ [toChar (g.tdiv 10 + 0x30), toChar (g.tmod 10 + 0x30)]

/-- The loop of `equalizer_update`. -/
def bandsText : List ℤ → List UInt8
  | [] => []
  | [g] => bandText g
  | g :: g' :: gain => bandText g ++ 44 :: bandsText (g' :: gain)

/-- `config`, as `equalizer_update` leaves it. -/
def configBlock (gain : List ℤ) : List UInt8 :=
  bandsText gain ++ List.replicate (EQ_BANDS * 4 + 1 - (bandsText gain).length) 0

/-- `equalizer_update` -/
def update (gain : Gains) : State where
  gain := gain
  update := true
  config := CString.cstr (configBlock gain.bands)

/-- `atoi`, as an `s8_t` keeps it. -/
def bandValue (p : List UInt8) : ℤ := (atol p).bmod 256

/-- The loop of `equalizer_init`, with `i` bands to go.  What is not reached stays 0. -/
def readBands : ℕ → Option (List UInt8 × List UInt8) → List ℤ
  | i, none => List.replicate i 0
  | 0, some _ => []
  | i + 1, some (p, rest) => bandValue p :: readBands i (strtok (CString.ascii ", :") rest)

/-- `gain`, as `equalizer_init` leaves it. -/
def initBands (config : List UInt8) : List ℤ :=
  readBands EQ_BANDS (strtok (CString.ascii ", !") config)

theorem readBands_length (i : ℕ) (p : Option (List UInt8 × List UInt8)) :
    (readBands i p).length = i := by
  induction i generalizing p with
  | zero => cases p <;> rfl
  | succ i ih =>
      rcases p with - | ⟨p, rest⟩
      · exact List.length_replicate
      · rw [readBands, List.length_cons, ih]

theorem readBands_fits (i : ℕ) (p : Option (List UInt8 × List UInt8)) :
    ∀ g ∈ readBands i p, -128 ≤ g ∧ g ≤ 127 := by
  induction i generalizing p with
  | zero => cases p <;> simp [readBands]
  | succ i ih =>
      intro g hg
      rcases p with - | ⟨p, rest⟩
      · have hzero : g = 0 := List.eq_of_mem_replicate hg
        omega
      · rcases List.mem_cons.mp hg with rfl | hg
        · rw [bandValue]
          have hlo := Int.le_bmod (x := atol p) (m := 256) (by decide)
          have hhi := Int.bmod_lt (x := atol p) (m := 256) (by decide)
          omega
        · exact ih _ g hg

/-- `equalizer_init` -/
def init (st : State) : State :=
  update ⟨initBands st.config, readBands_length _ _, readBands_fits _ _⟩

/-! ### What is written -/

/-- A byte that neither ends the string nor separates two bands. -/
def Inside (c : UInt8) : Prop := c ≠ 0 ∧ c ∉ CString.ascii ", :!"

instance (c : UInt8) : Decidable (Inside c) := inferInstanceAs (Decidable (_ ∧ _))

/-- What is behind the sign of a gain below 0: its second character is no digit, and where its
first is one, it is a 0. -/
theorem bandText_negative : ∀ g : Fin 99, ∃ x y : UInt8,
    bandText (-(g.val + 1 : ℤ)) = [45, x, y] ∧
      (isdigit x = false ∨ x = 48 ∧ isdigit y = false) := by
  intro g
  refine ⟨toChar ((-(g.val + 1 : ℤ)).tdiv 10 + 0x30), toChar ((-(g.val + 1 : ℤ)).tmod 10 + 0x30),
    ?_, ?_⟩
  · rw [bandText, if_pos (by omega), List.singleton_append]
  · revert g
    decide

theorem bandText_length (g : ℤ) : (bandText g).length ≤ 3 := by
  rw [bandText]
  split <;> simp

/-- No band has a NUL. -/
theorem bandText_ne_zero : ∀ g : Fin 256, (0 : UInt8) ∉ bandText ((g.val : ℤ) - 128) := by
  decide +kernel

theorem bandText_ne_nil (g : ℤ) : bandText g ≠ [] := by
  simp [bandText]

/-- The text of a gain from 0 up is its two digits. -/
theorem bandText_digits : ∀ g : Fin 100,
    (∀ c ∈ bandText (g.val : ℤ), Inside c) ∧ bandValue (bandText (g.val : ℤ)) = (g.val : ℤ) := by
  intro g
  -- over the characters of the text, not over every byte
  have h : ∀ g : Fin 100, (bandText (g.val : ℤ)).all (fun c => decide (Inside c)) = true ∧
      bandValue (bandText (g.val : ℤ)) = (g.val : ℤ) := by decide
  exact ⟨fun c hc => of_decide_eq_true (List.all_eq_true.mp (h g).1 c hc), (h g).2⟩

variable {g : ℤ} {gain : List ℤ}

theorem bandText_inside (hlo : 0 ≤ g) (hhi : g ≤ 99) : ∀ c ∈ bandText g, Inside c := by
  have h := (bandText_digits ⟨g.toNat, by omega⟩).1
  rwa [Int.toNat_of_nonneg hlo] at h

theorem bandValue_bandText (hlo : 0 ≤ g) (hhi : g ≤ 99) : bandValue (bandText g) = g := by
  have h := (bandText_digits ⟨g.toNat, by omega⟩).2
  rwa [Int.toNat_of_nonneg hlo] at h

/-- A band, and what the loop puts behind it. -/
theorem bandsText_cons (g : ℤ) (gain : List ℤ) :
    bandsText (g :: gain) =
      bandText g ++ if gain = [] then [] else 44 :: bandsText gain := by
  rcases gain with - | ⟨g', gain⟩
  · rw [if_pos rfl, List.append_nil, bandsText]
  · rw [bandsText, if_neg (List.cons_ne_nil g' gain)]

theorem bandsText_length (gain : List ℤ) : (bandsText gain).length ≤ gain.length * 4 := by
  induction gain with
  | nil => rfl
  | cons g gain ih =>
      have hband := bandText_length g
      rw [bandsText_cons, List.length_append, List.length_cons]
      split <;> simp only [List.length_nil, List.length_cons] <;> omega

/-- The string is inside `config`, and it has its end there. -/
theorem configBlock_length (gain : Gains) :
    (bandsText gain.bands).length < EQ_BANDS * 4 + 1 ∧
      (configBlock gain.bands).length = EQ_BANDS * 4 + 1 := by
  have hle := bandsText_length gain.bands
  rw [gain.count] at hle
  constructor
  · omega
  · rw [configBlock, List.length_append, List.length_replicate]
    omega

theorem bandsText_ne_zero (h : ∀ g ∈ gain, -128 ≤ g ∧ g ≤ 127) : 0 ∉ bandsText gain := by
  induction gain with
  | nil => exact List.not_mem_nil
  | cons g gain ih =>
      have hg := h g List.mem_cons_self
      have hband := bandText_ne_zero ⟨(g + 128).toNat, by omega⟩
      rw [Int.toNat_of_nonneg (by omega), Int.add_sub_cancel] at hband
      have hrest := ih fun g' hg' => h g' (List.mem_cons_of_mem g hg')
      rw [bandsText_cons, List.mem_append, not_or]
      refine ⟨hband, ?_⟩
      split
      · exact List.not_mem_nil
      · rw [List.mem_cons, not_or]
        exact ⟨by decide, hrest⟩

/-- What the configuration keeps is what the loop has written. -/
theorem update_config (gain : Gains) : (update gain).config = bandsText gain.bands := by
  have hzero := bandsText_ne_zero gain.fits
  have hroom := (configBlock_length gain).1
  obtain ⟨n, hn⟩ : ∃ n, EQ_BANDS * 4 + 1 - (bandsText gain.bands).length = n + 1 :=
    ⟨EQ_BANDS * 4 - (bandsText gain.bands).length, by omega⟩
  have hkeep : ∀ c ∈ bandsText gain.bands, decide (c ≠ 0) = true :=
    fun c hc => decide_eq_true fun h => hzero (h ▸ hc)
  rw [update, configBlock, hn, List.replicate_succ]
  simp only [CString.cstr]
  rw [List.takeWhile_append_of_pos hkeep, List.takeWhile_cons_of_neg (by decide), List.append_nil]

/-! ### What is read of it -/

/-- The separators of `strtok`: the comma is one, and a band has none. -/
structure Separates (delim : List UInt8) : Prop where
  comma : 44 ∈ delim
  inside : ∀ c, Inside c → c ∉ delim

theorem separates_first : Separates (CString.ascii ", !") where
  comma := by decide
  inside c hc h := hc.2 (by revert h; simp only [CString.ascii]; simp; tauto)

theorem separates_next : Separates (CString.ascii ", :") where
  comma := by decide
  inside c hc h := hc.2 (by revert h; simp only [CString.ascii]; simp; tauto)

variable {delim : List UInt8}

/-- A gain from 0 up is the first token. -/
theorem strtok_band (hd : Separates delim) (hlo : 0 ≤ g) (hhi : g ≤ 99) (gain : List ℤ) :
    strtok delim (bandsText (g :: gain)) = some (bandText g, bandsText gain) := by
  have hinside : ∀ c ∈ bandText g, c ∉ delim :=
    fun c hc => hd.inside c (bandText_inside hlo hhi c hc)
  rw [bandsText_cons]
  split
  case isTrue h =>
    subst h
    rw [List.append_nil, strtok_last (bandText_ne_nil g) hinside, bandsText]
  case isFalse h => exact strtok_token (bandText_ne_nil g) hinside hd.comma

/-- A gain below 0 is read as 0. -/
theorem strtok_negative (hd : Separates delim) (hlo : -99 ≤ g) (hneg : g < 0) (gain : List ℤ) :
    ∃ p rest, strtok delim (bandsText (g :: gain)) = some (p, rest) ∧ bandValue p = 0 := by
  obtain ⟨x, y, htext, hxy⟩ := bandText_negative ⟨(-g - 1).toNat, by omega⟩
  have hg : -(((-g - 1).toNat : ℤ) + 1) = g := by omega
  rw [hg] at htext
  have hminus : (45 : UInt8) ∉ delim := hd.inside 45 (by decide)
  obtain ⟨s, hs⟩ : ∃ s, bandsText (g :: gain) = 45 :: x :: y :: s :=
    ⟨_, by rw [bandsText_cons, htext]; rfl⟩
  obtain ⟨rest, hrest⟩ := strtok_cons (s := x :: y :: s) hminus
  refine ⟨_, rest, hs ▸ hrest, ?_⟩
  -- the sign is there, and no digit of worth behind it
  have hdigits : digits ((x :: y :: s).takeWhile (· ∉ delim)) = 0 := by
    by_cases hx : x ∈ delim
    · rw [List.takeWhile_cons_of_neg (by simpa using hx)]
      rfl
    · rw [List.takeWhile_cons_of_pos (by simpa using hx)]
      rcases hxy with hx' | ⟨rfl, hy⟩
      · exact digits_of_not_digit hx'
      · rw [digits_zero_cons]
        by_cases hy' : y ∈ delim
        · rw [List.takeWhile_cons_of_neg (by simpa using hy')]
          rfl
        · rw [List.takeWhile_cons_of_pos (by simpa using hy')]
          exact digits_of_not_digit hy
  have hspace : ∀ t : List UInt8, ((45 : UInt8) :: t).dropWhile isspace = 45 :: t :=
    fun t => List.dropWhile_cons_of_neg (by decide)
  rw [bandValue, atol, hspace]
  simp only [if_pos, hdigits]
  decide

/-- The bands that are read are those that were written where none is below 0, and the first
below 0 makes a difference. -/
theorem readBands_iff (h : ∀ g ∈ gain, -99 ≤ g ∧ g ≤ 99) (hd : Separates delim) :
    readBands gain.length (strtok delim (bandsText gain)) = gain ↔ ∀ g ∈ gain, 0 ≤ g := by
  induction gain generalizing delim with
  | nil => exact iff_of_true rfl fun g hg => absurd hg List.not_mem_nil
  | cons g gain ih =>
      have hg := h g List.mem_cons_self
      have hrest := ih (fun g' hg' => h g' (List.mem_cons_of_mem g hg')) separates_next
      rw [List.length_cons, List.forall_mem_cons]
      by_cases hneg : g < 0
      · obtain ⟨p, rest, hp, hvalue⟩ := strtok_negative hd hg.1 hneg gain
        rw [hp, readBands, hvalue]
        constructor
        · intro heq
          have hzero := (List.cons.inj heq).1
          omega
        · rintro ⟨hpos, -⟩
          omega
      · have hpos : 0 ≤ g := by omega
        rw [strtok_band hd hpos hg.2, readBands, bandValue_bandText hpos hg.2, List.cons_inj_right,
          hrest]
        exact (and_iff_right hpos).symm

/-- What `equalizer_init` finds of the gains that `equalizer_update` has stored. -/
theorem read_back_iff (gain : Gains) (haccepted : ∀ g ∈ gain.bands, -99 ≤ g ∧ g ≤ 99) :
    (init (update gain)).gain.bands = gain.bands ↔ ∀ g ∈ gain.bands, 0 ≤ g := by
  have h := readBands_iff haccepted separates_first
  rw [gain.count, ← update_config] at h
  exact h

/-- Ten gains, of 12 and 3 in turn. -/
def raised : Gains where
  bands := [12, 3, 12, 3, 12, 3, 12, 3, 12, 3]
  count := rfl
  fits := by decide

theorem raised_read_back : (init (update raised)).gain.bands = raised.bands :=
  (read_back_iff raised (by decide)).mpr (by decide)

/-- The first of ten gains is -5, and the rest is 0. -/
def lowered : Gains where
  bands := [-5, 0, 0, 0, 0, 0, 0, 0, 0, 0]
  count := rfl
  fits := by decide

/-- It comes back as 0: what is stored begins with "-0+". -/
theorem lowered_lost :
    ¬ ∀ gain : Gains, (∀ g ∈ gain.bands, -99 ≤ g ∧ g ≤ 99) →
      (init (update gain)).gain.bands = gain.bands := by
  intro h
  have hbands : (init (update lowered)).gain.bands = lowered.bands := h lowered (by decide)
  revert hbands
  decide

end Equalizer

end SqueezeliteMuse
