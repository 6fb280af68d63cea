/-
SqueezeliteMuse/SampleRates.lean

The table of sample rates that the option `-r` of main.c makes.

The option is a list of rates, or a maximum, or a range.  A list is sorted: as often as the table
is long, the largest rate below the last one is taken, or 0.  For a range the maximum comes first,
and behind it the rates of TEST_RATES that are in the range.  Whoever reads the table goes on up
to a 0.

Main result: `rates_iff`: the table has its 0, and nothing is written beyond it, if and only if
a list is not of 18 different rates that can all be taken, and a range is not from 8000 or less to
more than 768000.
-/
import SqueezeliteMuse.Lib.CString
import SqueezeliteMuse.Lib.Octets
import SqueezeliteMuse.Lib.Selection
import Mathlib.Order.Nat

namespace SqueezeliteMuse

namespace SampleRates

open CString Selection

/-! ### The code -/

/-- `MAX_SUPPORTED_SAMPLERATES` -/
def MAX_SUPPORTED_SAMPLERATES : ℕ := 18

/-- `TEST_RATES` -/
def TEST_RATES : List ℕ :=
  [768000, 705600, 384000, 352800, 192000, 176400, 96000, 88200, 48000, 44100, 32000, 24000,
    22500, 16000, 12000, 11025, 8000, 0]

/-- What `next_param` returns, and its `str`. -/
def nextParam (c : UInt8) : Option (List UInt8) → Option (List UInt8) × Option (List UInt8)
  | none => (none, none)
  | some str =>
      let ret := str.takeWhile (· ≠ c)
      (if ret = [] then none else some ret,
        if c ∈ str then some (str.drop (ret.length + 1)) else none)

/-- `atoi`, as an `unsigned` keeps it. -/
def atou (s : List UInt8) : ℕ := (atol s % 2 ^ 32).toNat

/-- The loop that fills `tmp`, with `i` places to go. -/
def tmpRates : ℕ → Option (List UInt8) × Option (List UInt8) → List ℕ
  | 0, _ => []
  | i + 1, (none, _) => List.replicate (i + 1) 0
  | i + 1, (some r, str) => atou r :: tmpRates i (nextParam 44 str)

/-- The inner loop: the largest of `tmp` below `last`. -/
def largest (tmp : List ℕ) (last : ℕ) : ℕ :=
  tmp.foldl (fun largest t => if largest < t ∧ t < last then t else largest) 0

/-- The outer loop, with `i` places to go. -/
def sortLoop (tmp : List ℕ) : ℕ → ℕ → List ℕ
  | 0, _ => []
  | i + 1, last => largest tmp last :: sortLoop tmp i (largest tmp last)

/-- The loop over `ref`: the table, and `j`. -/
def refLoop (min : ℕ) : List ℕ → (ℕ → ℕ) → ℕ → (ℕ → ℕ) × ℕ
  | [], rates, j => (rates, j)
  | r :: ref, rates, j =>
      if r < rates (j - 1) ∧ min ≤ r then refLoop min ref (Function.update rates j r) (j + 1)
      else refLoop min ref rates j

/-- What the option is. -/
inductive Form
  | absent
  | list (tmp : List ℕ)
  | range (min max : ℕ)
  deriving DecidableEq

/-- A range, with its ends in order. -/
def ordered (min max : ℕ) : Form := if max < min then .range max min else .range min max

/-- The range of `str1` and `str2`. -/
def rangeForm (str1 str2 : Option (List UInt8)) : Form :=
  let max := match str2, str1 with
    | some s, _ => atou s
    | none, some s => atou s
    | none, none => 768000
  let min := match str1, str2 with
    | some s, some _ => atou s
    | _, _ => 0
  ordered min max

/-- The option, read. -/
def form (optarg : List UInt8) : Form :=
  match (nextParam 58 (some optarg)).1 with
  | none => .absent
  | some rstr =>
      if (strstr rstr (CString.ascii ",")).isSome then
        .list (tmpRates MAX_SUPPORTED_SAMPLERATES (nextParam 44 (some rstr)))
      else
        let str1 := nextParam 45 (some rstr)
        rangeForm str1.1 (nextParam 45 str1.2).1

/-- `dstr` -/
def delay (optarg : List UInt8) : Option ℕ :=
  ((nextParam 58 (nextParam 58 (some optarg)).2).1).map atou

/-- The table, how many of its places are written, the delay, and `user_rates`. -/
structure Table where
  rates : ℕ → ℕ
  count : ℕ
  rateDelay : ℕ
  userRates : Bool

/-- `rates`, before the option is read, with what is in memory behind it. -/
def clear (behind : ℕ → ℕ) : ℕ → ℕ := fun i => if i < MAX_SUPPORTED_SAMPLERATES then 0 else behind i

/-- The table that a form makes. -/
def fill (rates : ℕ → ℕ) : Form → (ℕ → ℕ) × ℕ
  | .absent => (rates, 0)
  | .list tmp =>
      (Ring.write rates 0 (sortLoop tmp MAX_SUPPORTED_SAMPLERATES 999999),
        MAX_SUPPORTED_SAMPLERATES)
  | .range min max => refLoop min TEST_RATES (Function.update rates 0 max) 1

/-- The option `-r`. -/
def option (behind : ℕ → ℕ) (optarg : List UInt8) : Table :=
  let filled := fill (clear behind) (form optarg)
  { rates := filled.1
    count := filled.2
    rateDelay := (delay optarg).getD 0
    userRates := filled.1 0 ≠ 0 }

/-- `output.supported_rates`, where the device has those of `tested`. -/
def supportedRates (tested : ℕ → ℕ) (t : Table) : ℕ → ℕ := fun i =>
  if t.userRates ∧ i < MAX_SUPPORTED_SAMPLERATES then t.rates i else tested i

/-! ### What it is for -/

/-- The places of the table. -/
def places (t : Table) : List ℕ := (List.range MAX_SUPPORTED_SAMPLERATES).map t.rates

/-- What a reader finds that goes on up to a 0. -/
def entries (t : Table) : List ℕ := (places t).takeWhile fun r => decide (r ≠ 0)

/-- The rates that the option allows. -/
def Allowed : Form → ℕ → Prop
  | .absent, _ => False
  | .list tmp, r => r ∈ tmp
  | .range min max, r => min ≤ r ∧ r ≤ max ∧ (r = max ∨ r ∈ TEST_RATES)

/-- A table that can be read up to its 0. -/
structure Proper (optarg : List UInt8) (t : Table) : Prop where
  inside : t.count ≤ MAX_SUPPORTED_SAMPLERATES
  ended : 0 ∈ places t
  decreasing : (entries t).Pairwise (· > ·)
  allowed : ∀ r ∈ entries t, Allowed (form optarg) r

/-- There is room for the 0. -/
def Fits : Form → Prop
  | .absent => True
  | .list tmp => ¬ (tmp.Nodup ∧ ∀ r ∈ tmp, 0 < r ∧ r < 999999)
  | .range min max => max ≤ 768000 ∨ 8000 < min

instance : DecidablePred Fits
  | .absent => inferInstanceAs (Decidable True)
  | .list _ => inferInstanceAs (Decidable (¬ _))
  | .range _ _ => inferInstanceAs (Decidable (_ ∨ _))

/-! ### Lists of rates -/

section Lists

variable {tmp : List ℕ} {last n : ℕ}

/-- The loops are a selection. -/
theorem sortLoop_eq_descend (tmp : List ℕ) (n last : ℕ) :
    sortLoop tmp n last = descend tmp n last := by
  induction n generalizing last with
  | zero => rfl
  | succ n ih =>
      rw [sortLoop, descend, ih]
      rfl

theorem length_tmpRates (i : ℕ) (r : Option (List UInt8) × Option (List UInt8)) :
    (tmpRates i r).length = i := by
  induction i generalizing r with
  | zero => rfl
  | succ i ih =>
      rcases r with ⟨- | r, str⟩
      · exact List.length_replicate
      · rw [tmpRates, List.length_cons, ih]

/-- What is in the places of the table where so many are written from the start. -/
theorem map_range_write (behind : ℕ → ℕ) {xs : List ℕ}
    (h : xs.length ≤ MAX_SUPPORTED_SAMPLERATES) :
    (List.range MAX_SUPPORTED_SAMPLERATES).map (Ring.write (clear behind) 0 xs) =
      xs ++ List.replicate (MAX_SUPPORTED_SAMPLERATES - xs.length) 0 := by
  refine List.ext_getElem (by simp; omega) fun i hi _ => ?_
  have hlt : i < MAX_SUPPORTED_SAMPLERATES := by simpa using hi
  rw [List.getElem_map, List.getElem_range, List.getElem_append]
  split
  case isTrue hin =>
    have hadd := Ring.write_add (m := clear behind) (p := 0) hin
    rwa [Nat.zero_add] at hadd
  case isFalse hout =>
    rw [List.getElem_replicate, Ring.write_of_ge (by omega), clear, if_pos hlt]

/-- Zeros behind a list are no entries. -/
theorem takeWhile_zeros (xs : List ℕ) (k : ℕ) :
    (xs ++ List.replicate k 0).takeWhile (fun r => decide (r ≠ 0)) =
      xs.takeWhile fun r => decide (r ≠ 0) := by
  induction xs with
  | nil => cases k <;> rfl
  | cons x xs ih => rw [List.cons_append, List.takeWhile_cons, List.takeWhile_cons, ih]

/-- The table of a list. -/
theorem list_proper (behind : ℕ → ℕ) (hlen : tmp.length = MAX_SUPPORTED_SAMPLERATES) :
    (0 ∈ (List.range MAX_SUPPORTED_SAMPLERATES).map (fill (clear behind) (.list tmp)).1 ↔
        Fits (.list tmp)) ∧
      (((List.range MAX_SUPPORTED_SAMPLERATES).map (fill (clear behind) (.list tmp)).1).takeWhile
        fun r => decide (r ≠ 0)).Pairwise (· > ·) ∧
      ∀ r ∈ ((List.range MAX_SUPPORTED_SAMPLERATES).map
        (fill (clear behind) (.list tmp)).1).takeWhile (fun r => decide (r ≠ 0)), r ∈ tmp := by
  have hplaces : (List.range MAX_SUPPORTED_SAMPLERATES).map (fill (clear behind) (.list tmp)).1 =
      descend tmp MAX_SUPPORTED_SAMPLERATES 999999 := by
    show (List.range _).map (Ring.write (clear behind) 0 (sortLoop tmp _ 999999)) = _
    rw [sortLoop_eq_descend, map_range_write behind (length_descend _ _ _).le, length_descend]
    exact List.append_nil _
  rw [hplaces]
  refine ⟨?_, pairwise_descend tmp _ _, fun r hr => ?_⟩
  · have hcard := (below tmp 999999).card_le_card (Finset.filter_subset _ _)
    have hle := hcard.trans tmp.toFinset_card_le
    have hfull : (below tmp 999999).card = MAX_SUPPORTED_SAMPLERATES ↔
        tmp.Nodup ∧ ∀ r ∈ tmp, 0 < r ∧ r < 999999 := hlen ▸ card_below_eq_length
    have hended : 0 ∈ descend tmp MAX_SUPPORTED_SAMPLERATES 999999 ↔
        (below tmp 999999).card < MAX_SUPPORTED_SAMPLERATES := bot_mem_descend
    rw [Fits, hended, ← hfull]
    omega
  · have hne : r ≠ ⊥ := by simpa using List.mem_takeWhile_imp hr
    exact (mem_descend ((List.takeWhile_sublist _).subset hr) hne).1

end Lists

/-! ### Ranges -/

section Ranges

variable {min max : ℕ}

/-- The rates of TEST_RATES that come behind the maximum. -/
def inRange (min max : ℕ) (ref : List ℕ) : List ℕ := ref.filter fun r => decide (min ≤ r ∧ r < max)

/-- Where the reference goes down, the loop stores what is in the range, in its order. -/
theorem refLoop_eq {ref : List ℕ} (hdown : ref.Pairwise (· > ·)) (min : ℕ) (rates : ℕ → ℕ) (j : ℕ)
    (hj : 0 < j) :
    refLoop min ref rates j =
      (Ring.write rates j (inRange min (rates (j - 1)) ref),
        j + (inRange min (rates (j - 1)) ref).length) := by
  induction ref generalizing rates j with
  | nil =>
      rw [refLoop, inRange, List.filter_nil, Ring.write_nil]
      rfl
  | cons r ref ih =>
      obtain ⟨hless, hdown'⟩ := List.pairwise_cons.mp hdown
      rw [refLoop]
      split
      case isTrue h =>
        have hlast : Function.update rates j r (j + 1 - 1) = r := by
          rw [Nat.add_sub_cancel, Function.update_self]
        -- all that is behind `r` is below it, so it may as well be below the rate before
        have hsame : inRange min r ref = inRange min (rates (j - 1)) ref := by
          refine List.filter_congr fun x hx => ?_
          have hx' := hless x hx
          simp only [decide_eq_decide]
          omega
        have hcons : inRange min (rates (j - 1)) (r :: ref) =
            r :: inRange min (rates (j - 1)) ref :=
          List.filter_cons_of_pos (by simp only [decide_eq_true_eq]; exact ⟨h.2, h.1⟩)
        rw [ih hdown' _ _ (Nat.succ_pos j), hlast, hsame, hcons, Ring.write_cons, List.length_cons]
        congr 1
        omega
      case isFalse h =>
        have hcons : inRange min (rates (j - 1)) (r :: ref) = inRange min (rates (j - 1)) ref :=
          List.filter_cons_of_neg (by simp only [decide_eq_true_eq]; tauto)
        rw [ih hdown' _ _ hj, hcons]

theorem testRates_down : TEST_RATES.Pairwise (· > ·) := by decide

theorem fill_range (behind : ℕ → ℕ) (min max : ℕ) :
    fill (clear behind) (.range min max) =
      (Ring.write (clear behind) 0 (max :: inRange min max TEST_RATES),
        (max :: inRange min max TEST_RATES).length) := by
  have hmax : Function.update (clear behind) 0 max (1 - 1) = max := Function.update_self _ _ _
  rw [fill, refLoop_eq testRates_down _ _ _ Nat.one_pos, hmax, Ring.write_cons, List.length_cons,
    Nat.add_comm]

/-- How many rates there are at most, by a wider range. -/
theorem length_inRange_le (p : ℕ → Bool)
    (h : ∀ r ∈ TEST_RATES, min ≤ r ∧ r < max → p r = true) :
    (inRange min max TEST_RATES).length ≤ TEST_RATES.countP p := by
  rw [inRange, ← List.countP_eq_length_filter]
  exact List.countP_mono_left fun r hr hin => h r hr (of_decide_eq_true hin)

/-- The rates of a range leave room for a 0, or there is one of them. -/
theorem range_ends (h : max ≤ 768000 ∨ 8000 < min) :
    (max :: inRange min max TEST_RATES).length ≤ MAX_SUPPORTED_SAMPLERATES ∧
      ((max :: inRange min max TEST_RATES).length < MAX_SUPPORTED_SAMPLERATES ∨
        0 ∈ max :: inRange min max TEST_RATES) := by
  have hall : TEST_RATES.countP (fun r => decide (r < 768000)) = 17 := by decide
  have hsome : TEST_RATES.countP (fun r => decide (8000 < r)) = 16 := by decide
  have hpos : TEST_RATES.countP (fun r => decide (0 < r ∧ r < 768000)) = 16 := by decide
  rw [List.length_cons, MAX_SUPPORTED_SAMPLERATES]
  rcases h with hmax | hmin
  · have hle : (inRange min max TEST_RATES).length ≤ _ :=
      length_inRange_le (fun r => decide (r < 768000)) fun r _ hr => decide_eq_true (by omega)
    refine ⟨by omega, ?_⟩
    by_cases hzero : min = 0 ∧ 0 < max
    · exact .inr (List.mem_cons_of_mem _ (List.mem_filter.mpr
        ⟨by decide, decide_eq_true ⟨hzero.1.le, hzero.2⟩⟩))
    · have hle' : (inRange min max TEST_RATES).length ≤ _ :=
        length_inRange_le (fun r => decide (0 < r ∧ r < 768000)) fun r _ hr =>
          decide_eq_true (by omega)
      exact .inl (by omega)
  · have hle : (inRange min max TEST_RATES).length ≤ _ :=
      length_inRange_le (fun r => decide (8000 < r)) fun r _ hr => decide_eq_true (by omega)
    exact ⟨by omega, .inl (by omega)⟩

/-- Beyond the largest reference, down to the smallest: there are too many. -/
theorem range_overflows (hmax : 768000 < max) (hmin : min ≤ 8000) :
    ¬ ((max :: inRange min max TEST_RATES).length ≤ MAX_SUPPORTED_SAMPLERATES ∧
      ((max :: inRange min max TEST_RATES).length < MAX_SUPPORTED_SAMPLERATES ∨
        0 ∈ max :: inRange min max TEST_RATES)) := by
  have htop : ∀ r ∈ TEST_RATES, r ≤ 768000 := by decide
  have hbottom : ∀ r ∈ TEST_RATES, r = 0 ∨ 8000 ≤ r := by decide
  rw [List.length_cons, MAX_SUPPORTED_SAMPLERATES]
  by_cases hzero : min = 0
  · have hsame : inRange min max TEST_RATES = TEST_RATES := by
      refine List.filter_eq_self.mpr fun r hr => ?_
      have hr' := htop r hr
      exact decide_eq_true (by omega)
    have hlen : TEST_RATES.length = 18 := by decide
    rw [hsame, hlen]
    omega
  · have hsame : inRange min max TEST_RATES = TEST_RATES.filter fun r => decide (0 < r) := by
      refine List.filter_congr fun r hr => ?_
      have hr' := htop r hr
      have hr'' := hbottom r hr
      simp only [decide_eq_decide]
      omega
    have hlen : (TEST_RATES.filter fun r => decide (0 < r)).length = 17 := by decide
    have hnone : 0 ∉ TEST_RATES.filter fun r => decide (0 < r) := by decide
    rw [hsame, hlen, List.mem_cons]
    rintro ⟨-, hlt | hmax' | hmem⟩
    · omega
    · omega
    · exact hnone hmem

end Ranges

/-! ### The option -/

section Option

variable {behind : ℕ → ℕ} {optarg : List UInt8}

/-- The table of a range. -/
theorem range_proper (behind : ℕ → ℕ) {min max : ℕ} (hle : min ≤ max)
    (hroom : (max :: inRange min max TEST_RATES).length ≤ MAX_SUPPORTED_SAMPLERATES) :
    (((List.range MAX_SUPPORTED_SAMPLERATES).map
        (fill (clear behind) (.range min max)).1).takeWhile fun r => decide (r ≠ 0)).Pairwise
          (· > ·) ∧
      ∀ r ∈ ((List.range MAX_SUPPORTED_SAMPLERATES).map
        (fill (clear behind) (.range min max)).1).takeWhile (fun r => decide (r ≠ 0)),
        Allowed (.range min max) r := by
  have hin : ∀ r ∈ inRange min max TEST_RATES, r ∈ TEST_RATES ∧ min ≤ r ∧ r < max :=
    fun r hr => ⟨List.mem_of_mem_filter hr, of_decide_eq_true (List.mem_filter.mp hr).2⟩
  rw [fill_range, map_range_write behind hroom, takeWhile_zeros]
  constructor
  · refine List.Pairwise.sublist (List.takeWhile_sublist _) (List.pairwise_cons.mpr ⟨?_, ?_⟩)
    · exact fun r hr => (hin r hr).2.2
    · exact testRates_down.sublist (List.filter_sublist)
  · intro r hr
    rcases List.mem_cons.mp ((List.takeWhile_sublist _).subset hr) with rfl | hr
    · exact ⟨hle, le_rfl, .inl rfl⟩
    · obtain ⟨href, hmin, hmax⟩ := hin r hr
      exact ⟨hmin, hmax.le, .inr href⟩

/-- What the option can be: a list has as many places as the table, and the ends of a range are
in order. -/
inductive Shaped : Form → Prop
  | absent : Shaped .absent
  | list {tmp : List ℕ} (hlen : tmp.length = MAX_SUPPORTED_SAMPLERATES) : Shaped (.list tmp)
  | range {min max : ℕ} (hle : min ≤ max) : Shaped (.range min max)

theorem shaped_ordered (min max : ℕ) : Shaped (ordered min max) := by
  rw [ordered]
  split
  case isTrue h => exact .range h.le
  case isFalse h => exact .range (Nat.not_lt.mp h)

theorem shaped_form (optarg : List UInt8) : Shaped (form optarg) := by
  rw [form]
  split
  · exact .absent
  · split
    · exact .list (length_tmpRates _ _)
    · exact shaped_ordered _ _

/-- The table that the option makes has its 0, and nothing is written beyond it, if and only if
there is room for the 0; what is before the 0 goes down and is allowed. -/
theorem rates_iff (behind : ℕ → ℕ) (optarg : List UInt8) :
    Proper optarg (option behind optarg) ↔ Fits (form optarg) := by
  have hshaped := shaped_form optarg
  have hplaces : places (option behind optarg) =
      (List.range MAX_SUPPORTED_SAMPLERATES).map (fill (clear behind) (form optarg)).1 := rfl
  have hcount : (option behind optarg).count = (fill (clear behind) (form optarg)).2 := rfl
  generalize hform : form optarg = f at hshaped hplaces hcount
  cases hshaped with
  | absent =>
      have hzeros : (List.range MAX_SUPPORTED_SAMPLERATES).map (fill (clear behind) .absent).1 =
          List.replicate MAX_SUPPORTED_SAMPLERATES 0 := by
        have hwrite := @map_range_write behind [] (Nat.zero_le _)
        rwa [Ring.write_nil] at hwrite
      have hnone : entries (option behind optarg) = [] := by
        rw [entries, hplaces, hzeros]
        rfl
      refine iff_of_true ⟨?_, ?_, ?_, ?_⟩ trivial
      · rw [hcount]
        exact Nat.zero_le _
      · rw [hplaces, hzeros]
        decide
      · rw [hnone]
        exact List.Pairwise.nil
      · rw [hnone]
        exact fun r hr => absurd hr List.not_mem_nil
  | list hlen =>
      obtain ⟨hended, hdown, hallowed⟩ := list_proper behind hlen
      rw [← hended, ← hplaces]
      refine ⟨Proper.ended, fun h => ⟨hcount.le, h, ?_, ?_⟩⟩
      · rw [entries, hplaces]
        exact hdown
      · rw [hform, entries, hplaces]
        exact hallowed
  | range hle =>
      rename_i min max
      rw [fill_range] at hplaces hcount
      have hended : ∀ hroom : (max :: inRange min max TEST_RATES).length ≤
          MAX_SUPPORTED_SAMPLERATES, 0 ∈ places (option behind optarg) ↔
            (max :: inRange min max TEST_RATES).length < MAX_SUPPORTED_SAMPLERATES ∨
              0 ∈ max :: inRange min max TEST_RATES := by
        intro hroom
        rw [hplaces, map_range_write behind hroom, List.mem_append, List.mem_replicate, or_comm]
        refine or_congr_left ?_
        omega
      by_cases hfits : max ≤ 768000 ∨ 8000 < min
      · obtain ⟨hroom, hends⟩ := range_ends hfits
        obtain ⟨hdown, hallowed⟩ := range_proper behind hle hroom
        rw [fill_range, ← hplaces] at hdown hallowed
        refine iff_of_true ⟨hcount.trans_le hroom, (hended hroom).mpr hends, hdown, ?_⟩ hfits
        rw [hform]
        exact hallowed
      · refine iff_of_false (fun h => ?_) hfits
        have hroom := hcount ▸ h.inside
        exact range_overflows (by omega) (by omega) ⟨hroom, (hended hroom).mp h.ended⟩

/-- Where the table is proper, so is what the output has of it. -/
theorem supported_ends {t : Table} (h : Proper optarg t) (huser : t.userRates = true)
    (tested : ℕ → ℕ) :
    ∃ n < MAX_SUPPORTED_SAMPLERATES, supportedRates tested t n = 0 := by
  obtain ⟨n, hn, hzero⟩ := List.mem_map.mp h.ended
  have hlt := List.mem_range.mp hn
  exact ⟨n, hlt, by rw [supportedRates, if_pos ⟨huser, hlt⟩, hzero]⟩

/-- Up to a million: the 17 rates of TEST_RATES come behind it, and the 0 behind these has no
place. -/
theorem million_overflows :
    ¬ ∀ (behind : ℕ → ℕ) (optarg : List UInt8), Proper optarg (option behind optarg) := by
  intro h
  have hinside := (h (fun _ => 0) (CString.ascii "1000000")).inside
  revert hinside
  decide

end Option

end SampleRates

end SqueezeliteMuse
