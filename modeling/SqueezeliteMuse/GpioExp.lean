/-
SqueezeliteMuse/GpioExp.lean

The GPIO expanders of gpio_exp.c: the directions of the pins, and the dispatch of
changes to handlers.

An expander has a mask of the pins that are inputs and one of those that are outputs.
`gpio_exp_set_direction` adds a pin to one of them before it looks whether the two
have a pin in common; a call that fails leaves the pin there, and every later call
for that expander fails as well.

The service task walks through the pins of a mask from the top.  It counts the zeros
before the next pin and shifts the pin out, but `gpio` goes down by the zeros alone.
So the second pin is taken for the one above it, the third for the one two above, and
so on.

Main results: `atomic_iff`: a call that fails leaves the masks as they were if and
only if the pin was in the mask already; one that succeeds leaves the pin in one of
them.  `serves_iff`: when the right handlers are called.
-/
import Mathlib.Algebra.Order.Ring.Int
import Mathlib.Data.Int.Notation
import Mathlib.Data.List.Basic
import Mathlib.Tactic.Common

namespace SqueezeliteMuse

namespace Gpio

/-! ### Data -/

/-- `gpio_exp_isr_s`: the handler with its argument, and whether there is a timer. -/
structure Isr where
  handler : Option ℕ
  timer : Bool
  deriving DecidableEq

/-- `gpio_exp_s`.  `settable` is whether the model has a `set_direction`.  Only the pins 0 to 31 of
`isr` exist. -/
structure Expander where
  first : ℕ
  last : ℕ
  intr : ℤ
  intrPending : Bool
  shadow : BitVec 32
  pending : BitVec 32
  age : BitVec 32
  rMask : BitVec 32
  wMask : BitVec 32
  isr : ℤ → Isr
  settable : Bool

/-- `gpio_mode_t` -/
inductive Mode
  | disable
  | input
  | output
  | outputOd
  | inputOutputOd
  | inputOutput
  deriving DecidableEq

/-- What a call comes to: it is for a pin of the chip and passed on; ESP_ERR_INVALID_ARG; or
ESP_OK. -/
inductive Answer
  | chip
  | invalidArg
  | ok
  deriving DecidableEq

/-- `GPIO_NUM_MAX` -/
def GPIO_NUM_MAX : ℤ := 40

/-- `1 << gpio`: the processor takes the low five bits of a shift. -/
def bit (gpio : ℤ) : BitVec 32 := 1#32 <<< (gpio % 32).toNat

/-! ### The directions -/

/-- `find_expander`: the expander, and the pin from its first one on.  The comparisons are of
unsigned numbers. -/
def findExpander (expanders : List Expander) (expander : Option ℕ) (gpio : ℤ) : Option (ℕ × ℤ) :=
  let u := (gpio % 2 ^ 32).toNat
  let i := expander.or (expanders.findIdx? fun e => decide (e.first ≤ u ∧ u ≤ e.last))
  i.bind fun i => expanders[i]?.map fun e => (i, if e.first ≤ u then gpio - e.first else gpio)

/-- A request for a direction; `value` is what the expander reads, and `now` the tick count. -/
structure Request where
  gpio : ℤ
  mode : Mode
  expander : Option ℕ
  value : BitVec 32
  now : BitVec 32

/-- What a request does to its expander before the masks are compared. -/
def Expander.direct (e : Expander) (r : Request) (gpio : ℤ) : Expander :=
  if r.mode = .input then
    { e with rMask := e.rMask ||| bit gpio, shadow := r.value, age := ~~~r.now }
  else { e with wMask := e.wMask ||| bit gpio }

/-- What is told to the device: the masks, if the model has a `set_direction`. -/
def Expander.told (e : Expander) : Option (BitVec 32 × BitVec 32) :=
  if e.settable then some (e.rMask, e.wMask) else none

/-- `gpio_exp_set_direction`: the answer, the expanders, and what is told to the device. -/
def setDirection (expanders : List Expander) (r : Request) :
    Answer × List Expander × Option (BitVec 32 × BitVec 32) :=
  if r.gpio < GPIO_NUM_MAX ∧ r.expander = none then (.chip, expanders, none)
  else
    match findExpander expanders r.expander r.gpio with
    | none => (.invalidArg, expanders, none)
    | some (i, gpio) =>
        let expanders := expanders.modify i fun e => e.direct r gpio
        match expanders[i]? with
        | none => (.invalidArg, expanders, none)
        | some e =>
            if e.rMask &&& e.wMask ≠ 0 then (.invalidArg, expanders, none)
            else (.ok, expanders, e.told)

/-- The answers to one request after the other. -/
def answers : List Expander → List Request → List Answer
  | _, [] => []
  | expanders, r :: rs =>
      (setDirection expanders r).1 :: answers (setDirection expanders r).2.1 rs

/-- Where the pins of an expander are, and their directions: all that the answers depend on. -/
structure Directions where
  first : ℕ
  last : ℕ
  rMask : BitVec 32
  wMask : BitVec 32
  deriving DecidableEq

/-- The directions of an expander's pins. -/
def Expander.directions (e : Expander) : Directions := ⟨e.first, e.last, e.rMask, e.wMask⟩

/-- The pin of a request is in one mask of its expander after it, and not in the other. -/
def InOneMask (expanders after : List Expander) (r : Request) : Prop :=
  ∀ i gpio, findExpander expanders r.expander r.gpio = some (i, gpio) →
    ∀ e, after[i]? = some e → (e.rMask &&& bit gpio ≠ 0 ↔ e.wMask &&& bit gpio = 0)

/-- A call that fails leaves the directions, and with them the answers to all later requests, as
they were; one that succeeds leaves the pin in one mask. -/
def Atomic (expanders : List Expander) (r : Request) : Prop :=
  let s := setDirection expanders r
  (s.1 = .invalidArg →
    s.2.1.map Expander.directions = expanders.map Expander.directions ∧
      ∀ rs, answers s.2.1 rs = answers expanders rs) ∧
  (s.1 = .ok → InOneMask expanders s.2.1 r)

/-- The masks of the expander have no pin in common with the pin of the request, or the pin was in
the mask of its direction already. -/
def Clean (expanders : List Expander) (r : Request) : Prop :=
  ∀ i gpio, findExpander expanders r.expander r.gpio = some (i, gpio) →
    ∀ e, expanders[i]? = some e →
      (e.direct r gpio).rMask &&& (e.direct r gpio).wMask = 0 ∨
        (e.direct r gpio).directions = e.directions

/-! ### The dispatch -/

/-- What is done for a pin. -/
inductive Action
  /-- Its timer is started. -/
  | debounce (gpio : ℤ)
  /-- Its handler is called. -/
  | call (gpio : ℤ)
  deriving DecidableEq

/-- What the service task does for a pin. -/
def action (isr : ℤ → Isr) (gpio : ℤ) : Option Action :=
  if (isr gpio).timer then some (.debounce gpio)
  else if (isr gpio).handler.isSome then some (.call gpio)
  else none

/-- The loop of `service_handler` over the pending pins, for so many rounds at most.  After a count
of 31 the shift is by 32, which is not defined in C, but the loop ends there. -/
def dispatchLoop (isr : ℤ → Isr) : ℕ → BitVec 32 → ℤ → ℕ → Option (List Action)
  | 0, _, _, _ => none
  | rounds + 1, pending, gpio, clz =>
      if pending ≠ 0 ∧ clz < 31 then
        let clz := pending.clz.toNat
        let gpio := gpio - clz
        (dispatchLoop isr rounds (pending <<< (clz + 1)) gpio clz).map
          ((action isr gpio).toList ++ ·)
      else some []

/-- What is done for a mask, if the loop ends within 33 rounds. -/
def dispatch (isr : ℤ → Isr) (pending : BitVec 32) : Option (List Action) :=
  dispatchLoop isr 33 pending 31 0

/-- `pending` of the service task, for an expander that reads `value`. -/
def Expander.changes (e : Expander) (value : BitVec 32) : BitVec 32 :=
  e.pending ||| ((e.shadow ^^^ value) &&& e.rMask)

/-- The service task's turn for an expander: the expander after it, and what is done. -/
def Expander.serve (e : Expander) (value now : BitVec 32) : Expander × Option (List Action) :=
  ({ e with age := now, intrPending := false, shadow := value, pending := 0 },
    dispatch e.isr (e.changes value))

/-- The pins of a mask below `b`, from the top -/
def pinsBelow (m : BitVec 32) : ℕ → List ℕ
  | 0 => []
  | b + 1 => if m.getLsbD b then b :: pinsBelow m b else pinsBelow m b

attribute [local simp] pinsBelow

/-- The pins of a mask -/
def pins (m : BitVec 32) : List ℕ := pinsBelow m 32

/-- How many pins of a mask are above `p` -/
def above (m : BitVec 32) (p : ℕ) : ℕ := ((pins m).filter (p < ·)).length

/-- The turn ends with the mask empty, and it is done what is to be done for the pins that were
pending, for each once. -/
def Expander.ServesRight (e : Expander) (value now : BitVec 32) : Prop :=
  (e.serve value now).1.pending = 0 ∧
    ∃ actions, (e.serve value now).2 = some actions ∧
      actions.Perm ((pins (e.changes value)).filterMap fun p : ℕ => action e.isr p)

/-- With each pin moved up by the number of those above it, a pin for which something is to be done
is hit once if it is in the mask, and else not at all. -/
def Hits (isr : ℤ → Isr) (m : BitVec 32) : Prop :=
  ∀ q : ℕ, action isr q ≠ none →
    ((pins m).filter fun p => p + above m p = q).length = if m.getLsbD q then 1 else 0

/-! ### Failing calls -/

namespace Directions

/-- `findExpander` -/
def find (ds : List Directions) (expander : Option ℕ) (gpio : ℤ) : Option (ℕ × ℤ) :=
  let u := (gpio % 2 ^ 32).toNat
  let i := expander.or (ds.findIdx? fun d => decide (d.first ≤ u ∧ u ≤ d.last))
  i.bind fun i => ds[i]?.map fun d => (i, if d.first ≤ u then gpio - d.first else gpio)

/-- `direct` -/
def direct (d : Directions) (r : Request) (gpio : ℤ) : Directions :=
  if r.mode = .input then { d with rMask := d.rMask ||| bit gpio }
  else { d with wMask := d.wMask ||| bit gpio }

/-- A request, for the directions alone. -/
def set (ds : List Directions) (r : Request) : Answer × List Directions :=
  if r.gpio < GPIO_NUM_MAX ∧ r.expander = none then (.chip, ds)
  else
    match find ds r.expander r.gpio with
    | none => (.invalidArg, ds)
    | some (i, gpio) =>
        let ds := ds.modify i fun d => d.direct r gpio
        match ds[i]? with
        | none => (.invalidArg, ds)
        | some d => if d.rMask &&& d.wMask ≠ 0 then (.invalidArg, ds) else (.ok, ds)

/-- The answers to one request after the other, for the directions alone. -/
def answers : List Directions → List Request → List Answer
  | _, [] => []
  | ds, r :: rs => (set ds r).1 :: answers (set ds r).2 rs

end Directions

variable {es : List Expander} {r : Request} {e : Expander} {i : ℕ} {gpio : ℤ}

theorem directions_direct (e : Expander) (r : Request) (gpio : ℤ) :
    (e.direct r gpio).directions = e.directions.direct r gpio := by
  rw [Expander.direct, Directions.direct]
  split
  · rfl
  · rfl

theorem find_directions (es : List Expander) (expander : Option ℕ) (gpio : ℤ) :
    Directions.find (es.map Expander.directions) expander gpio = findExpander es expander gpio := by
  rw [Directions.find, findExpander]
  simp only [List.findIdx?_map, List.getElem?_map, Option.map_map]
  rfl

theorem map_modify (es : List Expander) (r : Request) (i : ℕ) (gpio : ℤ) :
    (es.modify i fun e => e.direct r gpio).map Expander.directions =
      (es.map Expander.directions).modify i fun d => d.direct r gpio := by
  apply List.ext_getElem?
  intro j
  rw [List.getElem?_map, List.getElem?_modify, List.getElem?_modify, List.getElem?_map]
  cases es[j]? with
  | none => rfl
  | some e =>
      by_cases hij : i = j
      · simp [hij, directions_direct]
      · simp [hij]

/-- `gpio_exp_set_direction` is a request for the directions. -/
theorem set_directions (es : List Expander) (r : Request) :
    Directions.set (es.map Expander.directions) r =
      ((setDirection es r).1, (setDirection es r).2.1.map Expander.directions) := by
  rw [Directions.set, setDirection, find_directions]
  split
  · rfl
  · cases findExpander es r.expander r.gpio with
    | none => rfl
    | some found =>
        obtain ⟨i, gpio⟩ := found
        simp only [← map_modify, List.getElem?_map]
        cases (es.modify i fun e => e.direct r gpio)[i]? with
        | none => rfl
        | some e =>
            simp only [Option.map_some]
            show (if e.rMask &&& e.wMask ≠ 0 then _ else _) = _
            split
            · rfl
            · rfl

theorem answers_directions (rs : List Request) : ∀ es : List Expander,
    Directions.answers (es.map Expander.directions) rs = answers es rs := by
  induction rs with
  | nil => exact fun _ => rfl
  | cons r rs ih =>
      intro es
      rw [Directions.answers, answers, set_directions, ih]

/-- The expander that is found is there. -/
theorem findExpander_some {expander : Option ℕ} {g : ℤ}
    (h : findExpander es expander g = some (i, gpio)) : ∃ e, es[i]? = some e := by
  obtain ⟨j, -, h⟩ := Option.bind_eq_some_iff.mp h
  obtain ⟨e, he, heq⟩ := Option.map_eq_some_iff.mp h
  exact ⟨e, (Prod.mk.inj heq).1 ▸ he⟩

/-- What a call comes to, for a pin of an expander. -/
theorem setDirection_found (hchip : ¬ (r.gpio < GPIO_NUM_MAX ∧ r.expander = none))
    (hfound : findExpander es r.expander r.gpio = some (i, gpio)) (he : es[i]? = some e) :
    setDirection es r =
      (if (e.direct r gpio).rMask &&& (e.direct r gpio).wMask ≠ 0 then
        (.invalidArg, es.modify i fun e => e.direct r gpio, none)
      else (.ok, es.modify i fun e => e.direct r gpio, (e.direct r gpio).told)) := by
  rw [setDirection, if_neg hchip, hfound]
  simp only [List.getElem?_modify_eq, he]
  rfl

/-- A call that fails leaves the directions as they were if and only if the pin was in the mask. -/
theorem kept_iff (he : es[i]? = some e) :
    (es.modify i fun e => e.direct r gpio).map Expander.directions = es.map Expander.directions ↔
      (e.direct r gpio).directions = e.directions := by
  constructor
  · intro h
    have hi := congrArg (fun ds => ds[i]?) h
    simpa [he] using hi
  · intro h
    apply List.ext_getElem?
    intro j
    rw [List.getElem?_map, List.getElem?_modify, List.getElem?_map]
    by_cases hij : i = j
    · rw [← hij, he]
      simp [h]
    · simp [hij]

theorem bit_ne_zero (gpio : ℤ) : bit gpio ≠ 0 := by
  intro h
  have hlt : (gpio % 32).toNat < 32 := by omega
  have hbit := congrArg (fun m => m.getLsbD (gpio % 32).toNat) h
  rw [bit] at hbit
  simp [hlt] at hbit

theorem or_and_right (a b : BitVec 32) : (a ||| b) &&& b = b := by
  ext j
  simp only [BitVec.getElem_and, BitVec.getElem_or]
  cases a[j] <;> cases b[j] <;> rfl

/-- What has no pin in common with two masks has none with the second. -/
theorem and_eq_zero_of_or {a b c : BitVec 32} (h : (a ||| b) &&& c = 0) : c &&& b = 0 := by
  have hsub : c &&& b = ((a ||| b) &&& c) &&& b := by
    rw [BitVec.and_comm _ c, BitVec.and_assoc, or_and_right]
  rw [hsub, h]
  exact BitVec.zero_and

/-- Where the masks have no pin in common, the pin is in one of them. -/
theorem direct_inOneMask (h : (e.direct r gpio).rMask &&& (e.direct r gpio).wMask = 0) :
    (e.direct r gpio).rMask &&& bit gpio ≠ 0 ↔ (e.direct r gpio).wMask &&& bit gpio = 0 := by
  rw [Expander.direct] at h ⊢
  split at h
  case isTrue hmode =>
    rw [if_pos hmode, or_and_right]
    exact ⟨fun _ => and_eq_zero_of_or h, fun _ => bit_ne_zero gpio⟩
  case isFalse hmode =>
    rw [if_neg hmode, or_and_right]
    rw [BitVec.and_comm] at h
    exact ⟨fun hr => absurd (and_eq_zero_of_or h) hr, fun hw => absurd hw (bit_ne_zero gpio)⟩

/-- `gpio_exp_set_direction` is atomic if and only if it is not for an expander, its pin is not in
the other mask and nor is another pin in both, or its pin was in the mask already. -/
theorem atomic_iff (es : List Expander) (r : Request) :
    Atomic es r ↔ (r.gpio < GPIO_NUM_MAX ∧ r.expander = none) ∨ Clean es r := by
  by_cases hchip : r.gpio < GPIO_NUM_MAX ∧ r.expander = none
  · rw [Atomic, setDirection, if_pos hchip]
    exact ⟨fun _ => .inl hchip, fun _ => ⟨nofun, nofun⟩⟩
  · rw [or_iff_right hchip]
    cases hfound : findExpander es r.expander r.gpio with
    | none =>
        have hnone : setDirection es r = (.invalidArg, es, none) := by
          rw [setDirection, if_neg hchip, hfound]
        rw [Atomic, hnone]
        refine ⟨fun _ i gpio h => ?_, fun _ => ⟨fun _ => ⟨rfl, fun _ => rfl⟩, nofun⟩⟩
        rw [hfound] at h
        cases h
    | some found =>
        obtain ⟨i, gpio⟩ := found
        obtain ⟨e, he⟩ := findExpander_some hfound
        have hcall := setDirection_found hchip hfound he
        have hclean : Clean es r ↔
            (e.direct r gpio).rMask &&& (e.direct r gpio).wMask = 0 ∨
              (e.direct r gpio).directions = e.directions := by
          constructor
          · exact fun h => h i gpio hfound e he
          · intro h j g hg e' he'
            rw [hfound] at hg
            cases hg
            rw [he] at he'
            cases he'
            exact h
        rw [hclean]
        by_cases hboth : (e.direct r gpio).rMask &&& (e.direct r gpio).wMask = 0
        · rw [if_neg (not_not.mpr hboth)] at hcall
          rw [Atomic, hcall]
          refine ⟨fun _ => .inl hboth, fun _ => ⟨nofun, fun _ j g hg e' he' => ?_⟩⟩
          rw [hfound] at hg
          cases hg
          rw [List.getElem?_modify_eq, he] at he'
          cases he'
          exact direct_inOneMask hboth
        · rw [if_pos hboth] at hcall
          rw [Atomic, hcall, or_iff_right hboth]
          constructor
          · exact fun h => (kept_iff he).mp (h.1 rfl).1
          · intro h
            have hkept := (kept_iff he).mpr h
            refine ⟨fun _ => ⟨hkept, fun rs => ?_⟩, nofun⟩
            rw [← answers_directions, hkept, answers_directions]

/-- An expander at 40 with handlers for all inputs, which are the pins 0 to 7. -/
def handled : Expander where
  first := 40
  last := 55
  intr := 34
  intrPending := true
  shadow := 0
  pending := 0
  age := 0
  rMask := 0xff
  wMask := 0
  isr := fun gpio => ⟨some gpio.toNat, false⟩
  settable := true

/-- An input is to be an output. -/
theorem not_atomic : ¬ ∀ (es : List Expander) (r : Request), Atomic es r := by
  intro h
  have hkept := ((h [handled] ⟨43, .output, none, 0, 0⟩).1 (by decide)).1
  revert hkept
  decide

/-! ### The loop -/

variable {m : BitVec 32} {isr : ℤ → Isr} {b k p q : ℕ}

/-- The pins that the loop takes those below `b` for, `k` pins after the first. -/
def targets (m : BitVec 32) : ℕ → ℕ → List ℕ
  | 0, _ => []
  | b + 1, k => if m.getLsbD b then (b + k) :: targets m b (k + 1) else targets m b k

/-- What is left of a mask when all from `b` on is shifted out. -/
def rest (m : BitVec 32) (b : ℕ) : BitVec 32 := m <<< (32 - b)

theorem getLsbD_rest (hb : b ≤ 32) (hp : p < b) :
    (rest m b).getLsbD (p + (32 - b)) = m.getLsbD p := by
  have hlt : p + (32 - b) < 32 := by omega
  have hge : ¬ p + (32 - b) < 32 - b := by omega
  rw [rest, BitVec.getLsbD_shiftLeft, decide_eq_true hlt, decide_eq_false hge, Nat.add_sub_cancel]
  simp

theorem targets_empty (h : ∀ j < b, m.getLsbD j = false) : targets m b k = [] := by
  induction b with
  | zero => rfl
  | succ b ih =>
      rw [targets, h b (Nat.lt_succ_self b), if_neg Bool.false_ne_true]
      exact ih fun j hj => h j (Nat.lt_succ_of_lt hj)

/-- The first pin is the highest. -/
theorem targets_top (hp : m.getLsbD p = true) (hlt : p < b)
    (h : ∀ j, p < j → j < b → m.getLsbD j = false) :
    targets m b k = (p + k) :: targets m p (k + 1) := by
  induction b with
  | zero => exact absurd hlt (Nat.not_lt_zero p)
  | succ b ih =>
      by_cases hpb : p = b
      · rw [targets, ← hpb, if_pos hp]
      · have hbit := h b (by omega) (Nat.lt_succ_self b)
        rw [targets, hbit, if_neg Bool.false_ne_true]
        exact ih (by omega) fun j hj hjb => h j hj (Nat.lt_succ_of_lt hjb)

/-- The zeros before the first pin lead to it. -/
theorem rest_top (hb : b ≤ 32) (hne : rest m b ≠ 0) :
    (rest m b).clz.toNat < b ∧ m.getLsbD (b - 1 - (rest m b).clz.toNat) = true ∧
      ∀ j, b - 1 - (rest m b).clz.toNat < j → j < b → m.getLsbD j = false := by
  have htop := BitVec.getLsbD_true_clz_of_ne_zero (by decide) hne
  have hclear := BitVec.getLsbD_false_of_clzAuxRec (x := rest m b) (n := 31)
    fun i hi => BitVec.getLsbD_of_ge _ i hi
  have hclz : (rest m b).clzAuxRec 31 = (rest m b).clz := rfl
  have hlt : (rest m b).clz.toNat < 32 := BitVec.lt_def.mp (BitVec.clz_lt_iff_ne_zero.mpr hne)
  rw [hclz] at hclear
  generalize (rest m b).clz.toNat = c at htop hclear hlt ⊢
  rw [rest, BitVec.getLsbD_shiftLeft] at htop
  simp only [Bool.and_eq_true, Bool.not_eq_true', decide_eq_false_iff_not, decide_eq_true_eq]
    at htop
  obtain ⟨⟨-, hge⟩, hbit⟩ := htop
  have hc : c < b := by omega
  have hpin : 32 - 1 - c - (32 - b) = b - 1 - c := by omega
  rw [hpin] at hbit
  refine ⟨hc, hbit, fun j hj hjb => ?_⟩
  have hfalse := hclear (j - (b - c))
  have hplace : 32 - c + (j - (b - c)) = j + (32 - b) := by omega
  rwa [hplace, getLsbD_rest hb hjb] at hfalse

theorem rest_rest {c : ℕ} (hb : b ≤ 32) (hc : c < b) :
    rest m b <<< (c + 1) = rest m (b - 1 - c) := by
  rw [rest, rest, ← BitVec.shiftLeft_add]
  congr 1
  omega

/-- The loop goes through the pins below `b` and takes each for the one so many above it as it has
met before. -/
theorem dispatchLoop_eq (isr : ℤ → Isr) (m : BitVec 32) (b : ℕ) : ∀ (rounds k clz : ℕ) (gpio : ℤ),
    b ≤ 32 → b < rounds → clz < 31 ∨ rest m b = 0 → gpio = (b : ℤ) + k - 1 →
      dispatchLoop isr rounds (rest m b) gpio clz =
        some ((targets m b k).filterMap fun t : ℕ => action isr t) := by
  induction b using Nat.strongRecOn with
  | ind b ih =>
      intro rounds k clz gpio hb hrounds hclz hgpio
      obtain ⟨rounds, rfl⟩ := Nat.exists_eq_add_of_le' (Nat.lt_of_le_of_lt (Nat.zero_le b) hrounds)
      by_cases hzero : rest m b = 0
      · have hnone : targets m b k = [] := by
          apply targets_empty
          intro j hj
          rw [← getLsbD_rest hb hj, hzero]
          exact BitVec.getLsbD_zero
        rw [dispatchLoop, if_neg (fun h => h.1 hzero), hnone, List.filterMap_nil]
      · have hgo : rest m b ≠ 0 ∧ clz < 31 := ⟨hzero, hclz.resolve_right hzero⟩
        obtain ⟨hc, hbit, hclear⟩ := rest_top hb hzero
        rw [dispatchLoop, if_pos hgo]
        simp only
        generalize (rest m b).clz.toNat = c at hc hbit hclear ⊢
        have hnext := ih (b - 1 - c) (by omega) rounds (k + 1) c (gpio - c) (by omega) (by omega)
          (by
            by_cases hlast : c < 31
            · exact .inl hlast
            · right
              have hp : b - 1 - c = 0 := by omega
              rw [hp, rest]
              exact BitVec.shiftLeft_eq_zero (Nat.le_refl 32)) (by omega)
        have hpin : gpio - c = ((b - 1 - c + k : ℕ) : ℤ) := by omega
        rw [rest_rest hb hc, hnext, Option.map_some, targets_top hbit (by omega) hclear,
          List.filterMap_cons, ← hpin]
        cases action isr (gpio - c) with
        | none => rfl
        | some a => rfl

/-- The loop ends. -/
theorem dispatch_eq (isr : ℤ → Isr) (m : BitVec 32) :
    dispatch isr m = some ((targets m 32 0).filterMap fun t : ℕ => action isr t) := by
  have h := dispatchLoop_eq isr m 32 33 0 0 31 (Nat.le_refl 32) (Nat.lt_succ_self 32)
    (.inl (by decide)) rfl
  rwa [rest, Nat.sub_self, BitVec.shiftLeft_zero] at h

theorem lt_of_mem_pinsBelow (h : p ∈ pinsBelow m b) : p < b := by
  induction b with
  | zero => exact absurd h List.not_mem_nil
  | succ b ih =>
      rw [pinsBelow] at h
      split at h
      · rcases List.mem_cons.mp h with rfl | h
        · exact Nat.lt_succ_self p
        · exact Nat.lt_succ_of_lt (ih h)
      · exact Nat.lt_succ_of_lt (ih h)

/-- Each pin is taken for the one so many above it as there are pins above. -/
theorem targets_eq (m : BitVec 32) (b k : ℕ) :
    targets m b k =
      (pinsBelow m b).map fun p => p + (((pinsBelow m b).filter (p < ·)).length + k) := by
  induction b generalizing k with
  | zero => rfl
  | succ b ih =>
      by_cases hbit : m.getLsbD b = true
      · have hfirst : (b :: pinsBelow m b).filter (b < ·) = [] := by
          rw [List.filter_eq_nil_iff]
          intro p hp
          rcases List.mem_cons.mp hp with rfl | hp
          · simp
          · simpa using Nat.le_of_lt (lt_of_mem_pinsBelow hp)
        rw [targets, if_pos hbit, pinsBelow, if_pos hbit, ih, List.map_cons, hfirst,
          List.length_nil, Nat.zero_add]
        congr 1
        apply List.map_congr_left
        intro p hp
        have hlt : p < b := lt_of_mem_pinsBelow hp
        rw [List.filter_cons_of_pos (by simpa using hlt), List.length_cons]
        omega
      · rw [targets, if_neg hbit, pinsBelow, if_neg hbit, ih]

theorem targets_all (m : BitVec 32) : targets m 32 0 = (pins m).map fun p => p + above m p :=
  targets_eq m 32 0

/-! ### When the dispatch is right -/

/-- What is done for a pin is done for no other. -/
theorem action_inj {a : Action} {i j : ℤ} (hi : action isr i = some a)
    (hj : action isr j = some a) : i = j := by
  have key : ∀ i : ℤ, action isr i = some a → a = .debounce i ∨ a = .call i := by
    intro i h
    rw [action] at h
    split at h
    · exact .inl (Option.some.inj h).symm
    · split at h
      · exact .inr (Option.some.inj h).symm
      · cases h
  rcases key i hi with rfl | rfl
  · rcases key j hj with h | h
    · exact Action.debounce.inj h
    · cases h
  · rcases key j hj with h | h
    · cases h
    · exact Action.call.inj h

/-- How often it is done for a list of pins. -/
theorem count_action {a : Action} (hq : action isr q = some a) (l : List ℕ) :
    (l.filterMap fun t : ℕ => action isr t).count a = (l.filter fun t => t = q).length := by
  rw [List.count_filterMap, List.countP_eq_length_filter]
  congr 1
  apply List.filter_congr
  intro t _
  by_cases h : t = q
  · simp [h, hq]
  · have hne : action isr t ≠ some a := fun ht => h (Int.natCast_inj.mp (action_inj ht hq))
    simp [h, hne]

theorem filter_pinsBelow (m : BitVec 32) (b q : ℕ) :
    ((pinsBelow m b).filter fun p => p = q).length = if q < b ∧ m.getLsbD q then 1 else 0 := by
  induction b with
  | zero => simp [pinsBelow]
  | succ b ih =>
      have hother (h : q ≠ b) : (q < b + 1 ∧ m.getLsbD q = true) ↔ (q < b ∧ m.getLsbD q = true) :=
        and_congr_left fun _ => by omega
      rw [pinsBelow]
      by_cases hqb : q = b
      · rw [hqb] at ih ⊢
        by_cases hbit : m.getLsbD b = true
        · rw [if_pos hbit, List.filter_cons_of_pos (by simp), List.length_cons, ih,
            if_neg (fun h => Nat.lt_irrefl b h.1), if_pos ⟨Nat.lt_succ_self b, hbit⟩]
        · rw [if_neg hbit, ih, if_neg (fun h => hbit h.2), if_neg (fun h => hbit h.2)]
      · simp only [hother hqb]
        by_cases hbit : m.getLsbD b = true
        · rw [if_pos hbit, List.filter_cons_of_neg (by simpa using Ne.symm hqb), ih]
        · rw [if_neg hbit, ih]

theorem filter_pins (m : BitVec 32) (q : ℕ) :
    ((pins m).filter fun p => p = q).length = if m.getLsbD q then 1 else 0 := by
  rw [pins, filter_pinsBelow]
  by_cases hbit : m.getLsbD q = true
  · rw [if_pos hbit, if_pos ⟨BitVec.lt_of_getLsbD hbit, hbit⟩]
  · rw [if_neg hbit, if_neg fun h => hbit h.2]

/-- The service task does what it is to do if and only if, with each pin moved up by the number of
those above it, a pin for which there is something to do is hit once if it is pending, and else
not. -/
theorem serves_iff (e : Expander) (value now : BitVec 32) :
    e.ServesRight value now ↔ Hits e.isr (e.changes value) := by
  have hmoved (q : ℕ) : ((targets (e.changes value) 32 0).filter fun t => t = q).length =
      ((pins (e.changes value)).filter fun p => p + above (e.changes value) p = q).length := by
    rw [targets_all, List.filter_map, List.length_map]
    rfl
  rw [Expander.ServesRight, Expander.serve, dispatch_eq]
  constructor
  · rintro ⟨-, actions, heq, hperm⟩ q hq
    cases heq
    obtain ⟨a, ha⟩ := Option.ne_none_iff_exists'.mp hq
    have hcount := hperm.count_eq a
    rwa [count_action ha, count_action ha, hmoved, filter_pins] at hcount
  · intro hhits
    refine ⟨rfl, _, rfl, List.perm_iff_count.mpr fun a => ?_⟩
    by_cases ha : ∃ q : ℕ, action e.isr q = some a
    · obtain ⟨q, hq⟩ := ha
      rw [count_action hq, count_action hq, hmoved, filter_pins]
      exact hhits q (by rw [hq]; exact Option.some_ne_none a)
    · -- it is done for no pin
      have hnone (l : List ℕ) : (l.filterMap fun t : ℕ => action e.isr t).count a = 0 := by
        rw [List.count_eq_zero]
        intro hmem
        obtain ⟨t, -, ht⟩ := List.mem_filterMap.mp hmem
        exact ha ⟨t, ht⟩
      rw [hnone, hnone]

/-- The pins 2 and 0 change: the handlers of 2 and 1 are called. -/
theorem not_served : ¬ ∀ (e : Expander) (value now : BitVec 32), e.ServesRight value now := by
  intro h
  obtain ⟨-, actions, hdone, hperm⟩ := h handled 5 0
  have hcalls : (handled.serve 5 0).2 = some [.call 2, .call 1] := by decide
  have hpins : (pins (handled.changes 5)).filterMap (fun p : ℕ => action handled.isr p) =
      [.call 2, .call 0] := by decide
  rw [hcalls] at hdone
  rw [hpins, ← Option.some.inj hdone] at hperm
  exact absurd (hperm.mem_iff.mpr (by decide : Action.call 0 ∈ _)) (by decide)

end Gpio

end SqueezeliteMuse
