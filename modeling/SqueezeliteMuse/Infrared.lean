/-
SqueezeliteMuse/Infrared.lean

NEC frames in the items of the remote control receiver.

A frame is a header, 32 bits and an end item.  `nec_parse_items` wants 34 items, but looks at the
header and the bits only, and returns the number of bits.  `infrared_receive` goes on one item
behind them, which is the end item: a second frame is looked for there, and not found.

A read behind the buffer is `none`.

Main results: `receive_ends`: for every buffer the loop returns, without a read behind it;
`reports_iff`: the frames of a buffer are reported if and only if there is one, or none and what is
there does not begin like one.
-/
import Mathlib.Data.Int.Notation
import SqueezeliteMuse.Lib.Loop

namespace SqueezeliteMuse

namespace Infrared

/-! ### Items -/

/-- `rmt_item32_t`: two halves with their durations in ticks and their levels. -/
structure Item where
  duration0 : BitVec 15
  level0 : Bool
  duration1 : BitVec 15
  level1 : Bool
  deriving DecidableEq

/-- `RMT_RX_ACTIVE_LEVEL` -/
def RMT_RX_ACTIVE_LEVEL : Bool := false

/-- `RMT_TICK_10_US` -/
def RMT_TICK_10_US : ℕ := 80000000 / 100 / 100000

/-- `NEC_ITEM_DURATION` -/
def itemDuration (d : BitVec 15) : ℕ := d.toNat * 10 / RMT_TICK_10_US

/-- `NEC_BIT_MARGIN` -/
def NEC_BIT_MARGIN : ℕ := 150

/-- `NEC_DATA_ITEM_NUM` -/
def NEC_DATA_ITEM_NUM : ℕ := 34

/-- `nec_check_in_range` -/
def checkInRange (d : BitVec 15) (target margin : ℕ) : Bool :=
  itemDuration d < target + margin && itemDuration d > target - margin

/-- What the predicates have in common: the levels, and the targets of the two halves. -/
def halvesIf (high low : ℕ) (item : Item) : Bool :=
  (item.level0 == RMT_RX_ACTIVE_LEVEL && item.level1 != RMT_RX_ACTIVE_LEVEL) &&
    checkInRange item.duration0 high NEC_BIT_MARGIN && checkInRange item.duration1 low NEC_BIT_MARGIN

/-- `nec_header_if` -/
def headerIf : Item → Bool := halvesIf 9000 4500

/-- `nec_bit_one_if` -/
def bitOneIf : Item → Bool := halvesIf 560 (2250 - 560)

/-- `nec_bit_zero_if` -/
def bitZeroIf : Item → Bool := halvesIf 560 (1120 - 560)

/-! ### The parser -/

/-- The loop over the bits `j - 1`, …, 0; no word if an item is not a bit. -/
def parseBits (items : List Item) : ℕ → ℕ → BitVec 16 → Option (Option (BitVec 16))
  | 0, _, word => some (some word)
  | j + 1, pos, word =>
      match items[pos]? with
      | none => none
      | some item =>
          if bitOneIf item then parseBits items j (pos + 1) (word ||| 1#16 <<< j)
          else if bitZeroIf item then parseBits items j (pos + 1) (word ||| 0#16 <<< j)
          else some none

/-- `nec_parse_items`: how many bits it has read, the address and the command, or nothing for
`-1`. -/
def parseItems (items : List Item) (pos : ℕ) (itemNum : ℤ) :
    Option (Option (ℕ × BitVec 16 × BitVec 16)) :=
  if itemNum < (NEC_DATA_ITEM_NUM : ℕ) then some none
  else
    match items[pos]? with
    | none => none
    | some header =>
        if !headerIf header then some none
        else
          match parseBits items 16 (pos + 1) 0 with
          | none => none
          | some none => some none
          | some (some addr) =>
              match parseBits items 16 (pos + 17) 0 with
              | none => none
              | some none => some none
              | some (some data) => some (some (32, addr, data))

/-- The calls of the handler. -/
abbrev Calls := List (BitVec 16 × BitVec 16)

/-- A round of `infrared_receive`, at an offset, with the calls so far. -/
def round (items : List Item) (s : ℕ × Calls) : Option Calls ⊕ (ℕ × Calls) :=
  match parseItems items s.1 ((items.length : ℤ) - s.1) with
  | none => .inl none
  | some none => .inl (some s.2)
  | some (some (res, call)) =>
      if res > 0 then .inr (s.1 + (res + 1), s.2 ++ [call]) else .inl (some s.2)

/-- `infrared_receive` returns, and has called the handler just so. -/
def Reports (items : List Item) (calls : Calls) : Prop :=
  ∃ n, Loop.run (round items) n (0, []) = some (some calls)

/-! ### Frames -/

/-- An item that is a bit of this value. -/
def bitIf (b : Bool) (item : Item) : Bool := if b then bitOneIf item else bitZeroIf item

def isBit (item : Item) : Bool := bitOneIf item || bitZeroIf item

/-- An end item: the last pulse, with no matter what behind it. -/
def endIf (item : Item) : Bool :=
  item.level0 == RMT_RX_ACTIVE_LEVEL && checkInRange item.duration0 560 NEC_BIT_MARGIN

/-- The 16 items from `pos` on are the bits of a word, the highest one first. -/
def Sends (items : List Item) (pos : ℕ) (word : BitVec 16) : Prop :=
  ∀ i < 16, (items[pos + i]?).any (bitIf (word.getLsbD (15 - i))) = true

instance (items : List Item) (pos : ℕ) (word : BitVec 16) : Decidable (Sends items pos word) :=
  inferInstanceAs (Decidable (∀ i < 16, _))

/-- A NEC frame. -/
structure IsFrame (items : List Item) (addr cmd : BitVec 16) : Prop where
  length : items.length = NEC_DATA_ITEM_NUM
  header : (items[0]?).any headerIf
  addr : Sends items 1 addr
  cmd : Sends items 17 cmd
  ending : (items[33]?).any endIf

/-- The items from `pos` on begin with a frame but for its end item. -/
def Looks (items : List Item) (pos : ℕ) : Prop :=
  pos + NEC_DATA_ITEM_NUM ≤ items.length ∧ (items[pos]?).any headerIf ∧
    ∀ i < 32, (items[pos + 1 + i]?).any isBit

instance (items : List Item) (pos : ℕ) : Decidable (Looks items pos) :=
  inferInstanceAs (Decidable (_ ∧ _ ∧ ∀ i < 32, _))

/-! ### What the predicates tell apart -/

theorem halvesIf_range {high low : ℕ} {item : Item} (h : halvesIf high low item = true) :
    checkInRange item.duration0 high NEC_BIT_MARGIN = true ∧
      checkInRange item.duration1 low NEC_BIT_MARGIN = true := by
  obtain ⟨hleft, hright⟩ := (Bool.and_eq_true _ _).mp h
  exact ⟨((Bool.and_eq_true _ _).mp hleft).2, hright⟩

theorem range_iff {d : BitVec 15} {target : ℕ} :
    checkInRange d target NEC_BIT_MARGIN = true ↔
      itemDuration d < target + 150 ∧ itemDuration d > target - 150 := by
  rw [checkInRange, Bool.and_eq_true, decide_eq_true_iff, decide_eq_true_iff, NEC_BIT_MARGIN]

/-- A zero is not a one. -/
theorem bitOneIf_of_zero {item : Item} (h : bitZeroIf item = true) : bitOneIf item = false := by
  rw [Bool.eq_false_iff]
  intro hone
  have hzero := range_iff.mp (halvesIf_range h).2
  have hlong := range_iff.mp (halvesIf_range hone).2
  omega

/-- An end item is not a header. -/
theorem headerIf_of_end {item : Item} (h : endIf item = true) : headerIf item = false := by
  rw [Bool.eq_false_iff]
  intro hheader
  have hlong := range_iff.mp (halvesIf_range hheader).1
  have hshort := range_iff.mp ((Bool.and_eq_true _ _).mp h).2
  omega

/-! ### Words -/

variable {items : List Item} {pos : ℕ} {word : BitVec 16}

/-- A bit is put into the word. -/
def putBit (acc : BitVec 16) (j : ℕ) (b : Bool) : BitVec 16 :=
  acc ||| (if b then 1#16 else 0#16) <<< j

theorem getLsbD_putBit (acc : BitVec 16) {i j : ℕ} (hi : i < 16) (b : Bool) :
    (putBit acc j b).getLsbD i = (acc.getLsbD i || (decide (i = j) && b)) := by
  rw [putBit, BitVec.getLsbD_or, BitVec.getLsbD_shiftLeft]
  cases b
  · simp
  · have hone : (!decide (i < j) && (1#16).getLsbD (i - j)) = decide (i = j) := by
      rw [BitVec.getLsbD_one]
      rcases Nat.lt_trichotomy i j with hlt | rfl | hgt
      · simp [hlt, Nat.ne_of_lt hlt]
      · simp
      · simp [Nat.not_lt_of_gt hgt, Nat.sub_ne_zero_of_lt hgt, Nat.ne_of_gt hgt]
    simp only [if_true, hi, decide_true, Bool.true_and, hone, Bool.and_true]

theorem parseBits_bit {item : Item} {b : Bool} (hget : items[pos]? = some item)
    (hbit : bitIf b item = true) (j : ℕ) (acc : BitVec 16) :
    parseBits items (j + 1) pos acc = parseBits items j (pos + 1) (putBit acc j b) := by
  rw [parseBits, hget]
  cases b
  · have hone := bitOneIf_of_zero hbit
    simp only [hone, show bitZeroIf item = true from hbit, Bool.false_eq_true, if_false, if_true,
      putBit]
  · simp only [show bitOneIf item = true from hbit, if_true, putBit]

theorem bitIf_of_isBit {item : Item} (h : isBit item = true) : ∃ b, bitIf b item = true := by
  rcases (Bool.or_eq_true _ _).mp h with hone | hzero
  · exact ⟨true, hone⟩
  · exact ⟨false, hzero⟩

/-- There is a word if all items are bits. -/
theorem parseBits_cases (j : ℕ) (pos : ℕ) (acc : BitVec 16) (hroom : pos + j ≤ items.length) :
    ((∃ w, parseBits items j pos acc = some (some w)) ∧
      ∀ i < j, (items[pos + i]?).any isBit = true) ∨
    (parseBits items j pos acc = some none ∧ ∃ i < j, (items[pos + i]?).any isBit = false) := by
  induction j generalizing pos acc with
  | zero => exact .inl ⟨⟨acc, rfl⟩, fun i hi => absurd hi (Nat.not_lt_zero i)⟩
  | succ j ih =>
    have hget : items[pos]? = some items[pos] := List.getElem?_eq_getElem (by omega)
    have hshift : ∀ i, pos + (i + 1) = pos + 1 + i := fun i => by omega
    rcases hbit : isBit items[pos] with - | -
    · refine .inr ⟨?_, 0, Nat.succ_pos j, ?_⟩
      · obtain ⟨hone, hzero⟩ := (Bool.or_eq_false_iff ..).mp hbit
        rw [parseBits, hget]
        simp only [hone, hzero, Bool.false_eq_true, if_false]
      · rw [Nat.add_zero, hget]
        exact hbit
    · obtain ⟨b, hb⟩ := bitIf_of_isBit hbit
      rw [parseBits_bit hget hb]
      rcases ih (pos + 1) (putBit acc j b) (by omega) with ⟨hw, hall⟩ | ⟨hnone, i, hi, hbad⟩
      · refine .inl ⟨hw, fun i hi => ?_⟩
        cases i with
        | zero =>
            rw [Nat.add_zero, hget]
            exact hbit
        | succ i =>
            rw [hshift]
            exact hall i (by omega)
      · refine .inr ⟨hnone, i + 1, by omega, ?_⟩
        rw [hshift]
        exact hbad

/-- The bits of a word, put together. -/
theorem parseBits_sends (j : ℕ) (pos : ℕ) (acc : BitVec 16)
    (h : ∀ i < j, (items[pos + i]?).any (bitIf (word.getLsbD (j - 1 - i))) = true) :
    ∃ w, parseBits items j pos acc = some (some w) ∧
      ∀ i < 16, w.getLsbD i = (acc.getLsbD i || (decide (i < j) && word.getLsbD i)) := by
  induction j generalizing pos acc with
  | zero =>
    refine ⟨acc, rfl, fun i _ => ?_⟩
    rw [decide_eq_false (Nat.not_lt_zero i), Bool.false_and, Bool.or_false]
  | succ j ih =>
    obtain ⟨item, hget, hbit⟩ := (Option.any_eq_true _ _).mp (h 0 (Nat.succ_pos j))
    rw [show j + 1 - 1 - 0 = j by omega] at hbit
    obtain ⟨w, hw, hbits⟩ := ih (pos + 1) (putBit acc j (word.getLsbD j)) fun i hi => by
      have hnext := h (i + 1) (by omega)
      rwa [show pos + (i + 1) = pos + 1 + i by omega,
        show j + 1 - 1 - (i + 1) = j - 1 - i by omega] at hnext
    refine ⟨w, (parseBits_bit hget hbit j acc).trans hw, fun i hi => ?_⟩
    rw [hbits i hi, getLsbD_putBit acc hi, Bool.or_assoc]
    congr 1
    rcases Nat.lt_trichotomy i j with hlt | rfl | hgt
    · simp [hlt, Nat.ne_of_lt hlt, Nat.lt_succ_of_lt hlt]
    · simp
    · simp [Nat.not_lt_of_gt hgt, Nat.ne_of_gt hgt, show ¬ i < j + 1 by omega]

theorem parseBits_word (h : Sends items pos word) :
    parseBits items 16 pos 0 = some (some word) := by
  obtain ⟨w, hw, hbits⟩ := parseBits_sends 16 pos 0 h
  rw [hw]
  refine congrArg (fun w => some (some w)) (BitVec.eq_of_getLsbD_eq fun i hi => ?_)
  rw [hbits i hi, decide_eq_true hi, Bool.true_and, BitVec.ofNat_eq_ofNat, BitVec.getLsbD_zero,
    Bool.false_or]

/-! ### One frame -/

/-- The parser takes the items at an offset for a frame if they look like one. -/
theorem parseItems_cases (pos : ℕ) :
    (Looks items pos ∧ ∃ call, parseItems items pos ((items.length : ℤ) - pos) =
      some (some (32, call))) ∨
    (¬ Looks items pos ∧ parseItems items pos ((items.length : ℤ) - pos) = some none) := by
  rw [parseItems]
  by_cases hnum : (items.length : ℤ) - pos < (NEC_DATA_ITEM_NUM : ℕ)
  · refine .inr ⟨fun hlooks => ?_, if_pos hnum⟩
    have hroom := hlooks.1
    omega
  rw [if_neg hnum]
  have hroom : pos + NEC_DATA_ITEM_NUM ≤ items.length := by omega
  have hitems : NEC_DATA_ITEM_NUM = 34 := rfl
  have hget : items[pos]? = some items[pos] := List.getElem?_eq_getElem (by omega)
  rw [hget]
  rcases hheader : headerIf items[pos] with - | -
  · refine .inr ⟨fun hlooks => ?_, by simp only [hheader, Bool.not_false, if_true]⟩
    have hany := hlooks.2.1
    rw [hget, Option.any_some, hheader] at hany
    cases hany
  simp only [hheader, Bool.not_true, Bool.false_eq_true, if_false]
  have hsplit : (∀ i < 32, (items[pos + 1 + i]?).any isBit = true) ↔
      (∀ i < 16, (items[pos + 1 + i]?).any isBit = true) ∧
        ∀ i < 16, (items[pos + 17 + i]?).any isBit = true := by
    constructor
    · intro h
      refine ⟨fun i hi => h i (by omega), fun i hi => ?_⟩
      rw [show pos + 17 + i = pos + 1 + (16 + i) by omega]
      exact h (16 + i) (by omega)
    · rintro ⟨hlow, hhigh⟩ i hi
      rcases Nat.lt_or_ge i 16 with hlt | hge
      · exact hlow i hlt
      · rw [show pos + 1 + i = pos + 17 + (i - 16) by omega]
        exact hhigh (i - 16) (by omega)
  rcases @parseBits_cases items 16 (pos + 1) 0 (by omega) with
    ⟨⟨addr, haddr⟩, haddrs⟩ | ⟨hnone, i, hi, hbad⟩
  · rcases @parseBits_cases items 16 (pos + 17) 0 (by omega) with
      ⟨⟨cmd, hcmd⟩, hcmds⟩ | ⟨hnone, i, hi, hbad⟩
    · refine .inl ⟨⟨hroom, by rw [hget]; exact hheader, hsplit.mpr ⟨haddrs, hcmds⟩⟩, (addr, cmd), ?_⟩
      simp only [haddr, hcmd]
    · refine .inr ⟨fun hlooks => ?_, by simp only [haddr, hnone]⟩
      exact absurd ((hsplit.mp hlooks.2.2).2 i hi) (Bool.eq_false_iff.mp hbad)
  · refine .inr ⟨fun hlooks => ?_, by simp only [hnone]⟩
    exact absurd ((hsplit.mp hlooks.2.2).1 i hi) (Bool.eq_false_iff.mp hbad)

theorem parseItems_frame {addr cmd : BitVec 16} (h : IsFrame items addr cmd) (tail : List Item) :
    parseItems (items ++ tail) 0 (((items ++ tail).length : ℤ) - (0 : ℕ)) =
      some (some (32, addr, cmd)) := by
  have hlength : items.length = 34 := h.length
  have hget : ∀ i < 34, (items ++ tail)[i]? = items[i]? := fun i hi =>
    List.getElem?_append_left (by omega)
  have hsends : ∀ {p w}, p + 16 ≤ 34 → Sends items p w → Sends (items ++ tail) p w := by
    intro p w hp hw i hi
    rw [hget _ (by omega)]
    exact hw i hi
  obtain ⟨header, hzero, hheader⟩ := (Option.any_eq_true _ _).mp h.header
  have hnum : ¬ (((items ++ tail).length : ℤ) - (0 : ℕ) < (NEC_DATA_ITEM_NUM : ℕ)) := by
    rw [List.length_append, NEC_DATA_ITEM_NUM]
    omega
  rw [parseItems, if_neg hnum, hget 0 (by omega), hzero]
  simp only [hheader, Bool.not_true, Bool.false_eq_true, if_false,
    parseBits_word (hsends (by omega) h.addr), parseBits_word (hsends (by omega) h.cmd)]

/-- The end item of a frame is no header. -/
theorem not_looks_ending {addr cmd : BitVec 16} (h : IsFrame items addr cmd) (tail : List Item) :
    ¬ Looks (items ++ tail) 33 := by
  have hlength : items.length = 34 := h.length
  rintro ⟨-, hheader, -⟩
  obtain ⟨ending, hget, hending⟩ := (Option.any_eq_true _ _).mp h.ending
  rw [List.getElem?_append_left (by omega), hget, Option.any_some, headerIf_of_end hending] at hheader
  cases hheader

/-! ### The buffer -/

theorem round_looks {calls : Calls} (h : Looks items pos) :
    ∃ call, round items (pos, calls) = .inr (pos + 33, calls ++ [call]) := by
  rcases @parseItems_cases items pos with ⟨-, call, hparse⟩ | ⟨hnot, -⟩
  · exact ⟨call, by simp only [round, hparse, gt_iff_lt, Nat.zero_lt_succ, if_true]⟩
  · exact absurd h hnot

theorem round_not_looks {calls : Calls} (h : ¬ Looks items pos) :
    round items (pos, calls) = .inl (some calls) := by
  rcases @parseItems_cases items pos with ⟨hlooks, -⟩ | ⟨-, hparse⟩
  · exact absurd hlooks h
  · simp only [round, hparse]

/-- Whatever is in the buffer, nothing is read behind it, and the loop returns. -/
theorem receive_ends (items : List Item) : ∃ calls, Reports items calls := by
  obtain ⟨n, r, t, hrun, -, hstop⟩ := @Loop.run_ends _ _ (round items) (fun _ => True)
    (fun s : ℕ × Calls => items.length - s.1) (fun s _ => by
      by_cases hlooks : Looks items s.1
      · obtain ⟨call, hround⟩ := @round_looks items _ s.2 hlooks
        have hroom := hlooks.1
        have hitems : NEC_DATA_ITEM_NUM = 34 := rfl
        exact .inr ⟨_, hround, trivial, by simp only; omega⟩
      · exact .inl ⟨_, round_not_looks hlooks⟩) (0, []) trivial
  by_cases hlooks : Looks items t.1
  · obtain ⟨call, hround⟩ := @round_looks items _ t.2 hlooks
    cases hround.symm.trans hstop
  · cases (round_not_looks hlooks).symm.trans hstop
    exact ⟨t.2, n, hrun⟩

theorem Reports.unique {calls calls' : Calls} (h : Reports items calls) (h' : Reports items calls') :
    calls = calls' := by
  obtain ⟨n, hrun⟩ := h
  obtain ⟨n', hrun'⟩ := h'
  exact Option.some.inj (Loop.run_unique hrun hrun')

/-- Behind a frame nothing is found. -/
theorem reports_frame {addr cmd : BitVec 16} (h : IsFrame items addr cmd) (tail : List Item) :
    Reports (items ++ tail) [(addr, cmd)] := by
  have hround : round (items ++ tail) (0, []) = .inr (33, [(addr, cmd)]) := by
    simp only [round, parseItems_frame h tail, gt_iff_lt, Nat.zero_lt_succ, if_true]
    rfl
  refine ⟨2, ?_⟩
  rw [Loop.run_inr hround, Loop.run_inl (round_not_looks (not_looks_ending h tail))]

/-- What looks like a frame is reported. -/
theorem not_reports_nil (h : Looks items 0) : ¬ Reports items [] := by
  rintro ⟨n, hrun⟩
  obtain ⟨call, hround⟩ := @round_looks items _ [] h
  cases n with
  | zero => cases hrun
  | succ n =>
    rw [Loop.run_inr hround] at hrun
    -- from here on there is a call
    obtain ⟨s, hs, hstop⟩ := (Loop.run_eq_some_iff n).mp hrun
    have hcalls : s.2 ≠ [] := by
      refine Loop.visited_keeps (P := fun s : ℕ × Calls => s.2 ≠ []) ?_ n
        (List.append_ne_nil_of_right_ne_nil _ (List.cons_ne_nil _ _)) s hs
      intro t t' ht hnext
      by_cases hlooks : Looks items t.1
      · obtain ⟨call, hround⟩ := @round_looks items _ t.2 hlooks
        cases hround.symm.trans hnext
        exact List.append_ne_nil_of_left_ne_nil ht _
      · cases (round_not_looks hlooks).symm.trans hnext
    by_cases hlooks : Looks items s.1
    · obtain ⟨call, hround⟩ := @round_looks items _ s.2 hlooks
      cases hround.symm.trans hstop
    · have hreturn : round items s = .inl (some s.2) := round_not_looks hlooks
      exact hcalls (Option.some.inj (Sum.inl.inj (hreturn.symm.trans hstop)))

/-- The frames of a buffer are reported, and nothing else, if and only if there is just one, or none
and what is there does not begin like one. -/
theorem reports_iff (frames : List (List Item × BitVec 16 × BitVec 16))
    (hframes : ∀ f ∈ frames, IsFrame f.1 f.2.1 f.2.2) (rest : List Item) :
    Reports (frames.flatMap Prod.fst ++ rest) (frames.map Prod.snd) ↔
      frames.length = 1 ∨ frames.length = 0 ∧ ¬ Looks rest 0 := by
  match frames with
  | [] =>
    rw [List.flatMap_nil, List.nil_append, List.map_nil, List.length_nil]
    constructor
    · exact fun h => .inr ⟨rfl, fun hlooks => not_reports_nil hlooks h⟩
    · rintro (hone | ⟨-, hnot⟩)
      · cases hone
      · exact ⟨1, Loop.run_inl (round_not_looks hnot)⟩
  | f :: frames =>
    have hfirst := reports_frame (hframes f List.mem_cons_self) (frames.flatMap Prod.fst ++ rest)
    rw [List.flatMap_cons, List.append_assoc, List.map_cons, List.length_cons]
    constructor
    · intro h
      have heq := congrArg List.length (h.unique hfirst)
      rw [List.length_cons, List.length_map, List.length_singleton] at heq
      exact .inl heq
    · rintro (hone | ⟨hzero, -⟩)
      · rw [List.length_eq_zero_iff.mp (Nat.succ.inj hone)] at hfirst ⊢
        exact hfirst
      · exact absurd hzero (Nat.succ_ne_zero _)

/-- A header, and a bit of 0. -/
def header : Item := ⟨7200, false, 3600, true⟩

def zero : Item := ⟨448, false, 448, true⟩

/-- Address 0, command 0. -/
def zeroFrame : List Item := header :: List.replicate 33 zero

theorem zeroFrame_isFrame : IsFrame zeroFrame 0 0 where
  length := by decide
  header := by decide
  addr := by decide
  cmd := by decide
  ending := by decide

theorem reports_one : Reports (zeroFrame ++ ([] ++ [])) [(0, 0)] :=
  (reports_iff [(zeroFrame, 0, 0)]
    (fun _ hf => List.mem_singleton.mp hf ▸ zeroFrame_isFrame) []).mpr (.inl rfl)

/-- Of two frames the second is lost. -/
theorem second_frame_lost : ¬ Reports (zeroFrame ++ (zeroFrame ++ [])) [(0, 0), (0, 0)] := by
  intro h
  have heq := h.unique (reports_frame zeroFrame_isFrame (zeroFrame ++ []))
  cases heq

end Infrared

end SqueezeliteMuse
