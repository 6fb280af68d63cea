/-
SqueezeliteMuse/GpioAssignment.lean

The pins that `set_GPIO` gives to the services.

`parse_set_GPIO` goes from entry to entry and calls back for each of them.  The callbacks of the
jack and of the speaker fault take an entry of another service for a reason to forget their pin;
those of the power and of the infrared receiver compare the whole value, with its level.

`get_gpio_struct_member` looks for the entry of one service.  The level is in a static variable that
every entry with a level sets, and an entry without one leaves as it is.

`GPIO_IS_VALID_GPIO` is an argument.

Main result: `assignment_iff`: a service has the pin and the level of its entry if and only if the
entry is the last one (jack, speaker fault) or has no level (power, infrared), and the pin is one of
the chip, and the level that was read last is 0 if the entry has none.
-/
import Mathlib.Data.Int.Notation
import Mathlib.Data.List.Infix
import Mathlib.Data.List.Nodup
import Mathlib.Tactic.Common
import SqueezeliteMuse.Lib.Decimal

namespace SqueezeliteMuse

namespace GpioAssignment

open CString

/-! ### Reading -/

/-- `%d` of `sscanf`: the number, and what is behind it. -/
def scanInt (s : List UInt8) : Option (ℤ × List UInt8) :=
  let t := s.dropWhile isspace
  let u := if t.head? = some 45 ∨ t.head? = some 43 then t.tail else t
  if (u.head?).any isdigit then some (atol t, u.dropWhile isdigit) else none

/-- `sscanf(p, "%d=%15[^,]", &gpio, type)`: how many are read, and the variables. -/
def scanEntry (p : List UInt8) (gpio : ℤ) (type : List UInt8) : ℕ × ℤ × List UInt8 :=
  match scanInt p with
  | none => (0, gpio, type)
  | some (gpio, 61 :: rest) =>
      let found := (rest.takeWhile (· ≠ 44)).take 15
      if found = [] then (1, gpio, type) else (2, gpio, found)
  | some (gpio, _) => (1, gpio, type)

/-- `sscanf(p, "%d=%19[^,:]:%d", &gpio, type, &level)` -/
def scanMember (p : List UInt8) (gpio : ℤ) (type : List UInt8) (level : ℤ) :
    ℕ × ℤ × List UInt8 × ℤ :=
  match scanInt p with
  | none => (0, gpio, type, level)
  | some (gpio, 61 :: rest) =>
      let found := (rest.takeWhile fun c => c ≠ 44 ∧ c ≠ 58).take 19
      if found = [] then (1, gpio, type, level)
      else
        match rest.drop found.length with
        | 58 :: rest =>
            match scanInt rest with
            | some (level, _) => (3, gpio, found, level)
            | none => (2, gpio, found, level)
        | _ => (2, gpio, found, level)
  | some (gpio, _) => (1, gpio, type, level)

/-- What is behind the commas. -/
def behindCommas : List UInt8 → List (List UInt8)
  | [] => []
  | c :: s => if c = 44 then s :: behindCommas s else behindCommas s

/-- Where `p` is from round to round: `p = strchr(p, ',')`, `while (p++)`. -/
def positions (s : List UInt8) : List (List UInt8) := s :: behindCommas s

variable {σ : Type}

/-- A round of `parse_set_GPIO`. -/
def parseRound (cb : ℤ → List UInt8 → σ → σ) (v : (ℤ × List UInt8) × σ) (p : List UInt8) :
    (ℤ × List UInt8) × σ :=
  let (count, gpio, type) := scanEntry p v.1.1 v.1.2
  ((gpio, type), if count > 0 then cb gpio type v.2 else v.2)

/-- `parse_set_GPIO`; `vars` are `gpio` and `type` before they are set. -/
def parseSetGpio (cb : ℤ → List UInt8 → σ → σ) (config : List UInt8) (vars : ℤ × List UInt8)
    (s : σ) : σ :=
  ((positions config).foldl (parseRound cb) (vars, s)).2

/-! ### Services -/

inductive Service
  | vcc | gnd | amp | ir | jack | green | red | spkfault
  deriving DecidableEq

/-- The name that is looked for. -/
def Service.name : Service → List UInt8
  | .vcc => CString.ascii "vcc"
  | .gnd => CString.ascii "gnd"
  | .amp => CString.ascii "amp"
  | .ir => CString.ascii "ir"
  | .jack => CString.ascii "jack"
  | .green => CString.ascii "green"
  | .red => CString.ascii "red"
  | .spkfault => CString.ascii "spkfault"

/-- The pin of a service, and its level when it is active. -/
structure Pin where
  gpio : ℤ
  active : ℤ
  deriving DecidableEq

/-- `if ((p = strchr(value, ':')) != NULL) active = atoi(p + 1)` -/
def levelIn (value : List UInt8) (active : ℤ) : ℤ :=
  match value.dropWhile (· ≠ 58) with
  | [] => active
  | _ :: t => atol t

/-- The pin of an entry that names the service. -/
def given (gpio : ℤ) (value : List UInt8) (p : Pin) : Pin := ⟨gpio, levelIn value p.active⟩

/-- `strcasestr(value, name)` -/
def Has (value : List UInt8) (s : Service) : Prop := (strcasestr value s.name).isSome = true

instance (value : List UInt8) (s : Service) : Decidable (Has value s) :=
  inferInstanceAs (Decidable (_ = _))

/-- What `set_jack_gpio` and `set_spkfault_gpio` have in common. -/
def setMonitorGpio (s : Service) (gpio : ℤ) (value : List UInt8) (p : Pin) : Pin :=
  if Has value s then given gpio value p else { p with gpio := -1 }

/-- `set_jack_gpio` -/
def setJackGpio : ℤ → List UInt8 → Pin → Pin := setMonitorGpio .jack

/-- `set_spkfault_gpio` -/
def setSpkfaultGpio : ℤ → List UInt8 → Pin → Pin := setMonitorGpio .spkfault

/-- `set_amp_gpio` -/
def setAmpGpio (gpio : ℤ) (value : List UInt8) (p : Pin) : Pin :=
  if Has value .amp then given gpio value p else p

/-- `set_led_gpio`, of the green and the red LED -/
def setLedGpio (gpio : ℤ) (value : List UInt8) (p : Pin × Pin) : Pin × Pin :=
  if Has value .green then (given gpio value p.1, p.2)
  else if Has value .red then (p.1, given gpio value p.2)
  else p

/-- `GPIO_NUM_MAX` -/
def GPIO_NUM_MAX : ℤ := 40

/-- What `set_chip_power_gpio` and `set_exp_power_gpio` do with a pin that is theirs. -/
def setPower (gpio : ℤ) (value : List UInt8) (p : Pin × Pin) : Pin × Pin :=
  if CaseEq value Service.vcc.name then ({ p.1 with gpio := gpio }, p.2)
  else if CaseEq value Service.gnd.name then (p.1, { p.2 with gpio := gpio })
  else p

/-- `set_chip_power_gpio` -/
def setChipPowerGpio (gpio : ℤ) (value : List UInt8) (p : Pin × Pin) : Pin × Pin :=
  if gpio ≥ GPIO_NUM_MAX then p else setPower gpio value p

/-- `set_exp_power_gpio` -/
def setExpPowerGpio (gpio : ℤ) (value : List UInt8) (p : Pin × Pin) : Pin × Pin :=
  if gpio < GPIO_NUM_MAX then p else setPower gpio value p

/-- `set_ir_gpio` -/
def setIrGpio (gpio : ℤ) (value : List UInt8) (p : Pin) : Pin :=
  if CaseEq value Service.ir.name then { p with gpio := gpio } else p

/-- The pin of a service after its callback went over the configuration; `active` is its level as it
is built in. -/
def assigned (s : Service) (active : ℤ) (config : List UInt8) (vars : ℤ × List UInt8) : Pin :=
  match s with
  | .jack => parseSetGpio setJackGpio config vars ⟨-1, active⟩
  | .spkfault => parseSetGpio setSpkfaultGpio config vars ⟨-1, active⟩
  | .amp => parseSetGpio setAmpGpio config vars ⟨-1, active⟩
  | .green => (parseSetGpio setLedGpio config vars (⟨-1, active⟩, ⟨-1, active⟩)).1
  | .red => (parseSetGpio setLedGpio config vars (⟨-1, active⟩, ⟨-1, active⟩)).2
  | .vcc => (parseSetGpio setExpPowerGpio config vars
      (parseSetGpio setChipPowerGpio config vars (⟨-1, active⟩, ⟨-1, active⟩))).1
  | .gnd => (parseSetGpio setExpPowerGpio config vars
      (parseSetGpio setChipPowerGpio config vars (⟨-1, active⟩, ⟨-1, active⟩))).2
  | .ir => parseSetGpio setIrGpio config vars ⟨-1, active⟩

/-- The loop of `get_gpio_struct_member`. -/
def memberLoop (isValid : ℤ → Bool) (s : Service) :
    List (List UInt8) → ℤ → List UInt8 → ℤ → Pin
  | [], _, _, _ => ⟨-1, 0⟩
  | p :: ps, gpio, type, level =>
      let (count, gpio, type, level) := scanMember p gpio type level
      if count > 0 ∧ (isValid gpio = true ∨ gpio = -1) ∧ Has type s then ⟨gpio, level⟩
      else memberLoop isValid s ps gpio type level

/-- `get_gpio_struct_member`; `static` is what the last call has left. -/
def getGpioStructMember (isValid : ℤ → Bool) (config : List UInt8) (s : Service) (static : Pin) :
    Pin :=
  memberLoop isValid s (positions config) static.gpio [] static.active

/-! ### Configurations -/

/-- An entry `gpio=name` or `gpio=name:level`; capitals make no difference. -/
structure Entry where
  pin : List UInt8
  pin_ne : pin ≠ []
  pin_digits : ∀ c ∈ pin, isdigit c = true
  service : Service
  name : List UInt8
  named : CaseEq name service.name
  level : Option Bool

/-- The number of the pin. -/
def Entry.gpio (e : Entry) : ℤ := min (2 ^ 31 - 1) (digits e.pin)

def levelText : Option Bool → List UInt8
  | none => []
  | some b => [58, if b then 49 else 48]

/-- The name and the level. -/
def Entry.value (e : Entry) : List UInt8 := e.name ++ levelText e.level

def Entry.text (e : Entry) : List UInt8 := e.pin ++ 61 :: e.value

/-- Further entries, each behind a comma. -/
def behind : List Entry → List UInt8
  | [] => []
  | e :: es => 44 :: (e.text ++ behind es)

/-- The configuration with these entries. -/
def text : List Entry → List UInt8
  | [] => []
  | e :: es => e.text ++ behind es

/-- The level of an entry, or else another one. -/
def Entry.activeOr (e : Entry) (active : ℤ) : ℤ :=
  match e.level with
  | none => active
  | some b => if b then 1 else 0

/-- The entry that names a service. -/
def entryOf (s : Service) (es : List Entry) : Option Entry := es.find? fun e => e.service = s

/-- The pin that a service is to have. -/
def expected (s : Service) (active : ℤ) (es : List Entry) : Pin :=
  match entryOf s es with
  | none => ⟨-1, active⟩
  | some e => ⟨e.gpio, e.activeOr active⟩

/-- The callback of the service minds the other entries, or the level. -/
def CallbackFine (s : Service) (es : List Entry) : Prop :=
  match s with
  | .jack | .spkfault => ∀ e ∈ es, e.service = s → ∃ before, es = before ++ [e]
  | .vcc | .gnd | .ir => ∀ e ∈ es, e.service = s → e.level = none
  | _ => True

/-- The level that was read last. -/
def lastLevel (level : ℤ) (es : List Entry) : ℤ := es.foldl (fun l e => e.activeOr l) level

/-- The pin is one of the chip, and without a level in the entry the level that was read last is
0. -/
def MemberFine (isValid : ℤ → Bool) (s : Service) (level : ℤ) (es : List Entry) : Prop :=
  ∀ before e behind, es = before ++ e :: behind → e.service = s →
    isValid e.gpio = true ∧ (e.level = none → lastLevel level before = 0)

/-! ### Text -/

variable {e : Entry} {es : List Entry} {c : UInt8} {p r : List UInt8}

/-- A byte of a name, as a small letter, is in the name that is looked for. -/
theorem mem_name (e : Entry) (hc : c ∈ e.name) : CString.tolower c ∈ e.service.name := by
  have hmem : CString.tolower c ∈ e.name.map CString.tolower := List.mem_map_of_mem hc
  have hlow : e.service.name.map CString.tolower = e.service.name := by
    cases e.service <;> decide
  rw [e.named, hlow] at hmem
  exact hmem

theorem length_name (e : Entry) : e.name.length ≤ 8 := by
  have hlength : e.name.length = e.service.name.length := by
    rw [← List.length_map (f := CString.tolower), e.named, List.length_map]
  rw [hlength]
  cases e.service <;> decide

/-- A digit, a comma, a colon and an equals sign are in no name. -/
theorem not_mem_name (e : Entry) (hc : c ≤ 64) : c ∉ e.name := by
  intro hmem
  have hlow := mem_name e hmem
  have hself : CString.tolower c = c := by
    rw [CString.tolower, if_neg]
    intro h
    exact absurd (UInt8.le_trans h.1 hc) (by decide)
  rw [hself] at hlow
  have hall : ∀ s : Service, s.name.all (64 < ·) = true := by
    intro s
    cases s <;> decide
  have hhigh := of_decide_eq_true (List.all_eq_true.mp (hall e.service) c hlow)
  exact UInt8.not_lt.mpr hc hhigh

theorem name_ne (e : Entry) : e.name ≠ [] := by
  intro h
  have hnamed := e.named
  rw [h] at hnamed
  have hne : ∀ s : Service, ¬ CaseEq [] s.name := by
    intro s
    cases s <;> decide
  exact hne e.service hnamed

/-- A number, with something else behind it. -/
theorem scanInt_digits (hne : p ≠ []) (hp : ∀ c ∈ p, isdigit c = true)
    (hr : ∀ c ∈ r.head?, isdigit c = false) :
    scanInt (p ++ r) = some (min (2 ^ 31 - 1) (digits p : ℤ), r) := by
  have hrest : r.takeWhile isdigit = [] ∧ r.dropWhile isdigit = r := by
    rcases r with - | ⟨d, r⟩
    · exact ⟨rfl, rfl⟩
    · have hd : ¬ isdigit d = true := by simp [hr d rfl]
      exact ⟨List.takeWhile_cons_of_neg hd, List.dropWhile_cons_of_neg hd⟩
  have htake : (p ++ r).takeWhile isdigit = p.takeWhile isdigit := by
    rw [List.takeWhile_append_of_pos hp, hrest.1, List.append_nil,
      List.takeWhile_eq_self_iff.mpr hp]
  have hdrop : (p ++ r).dropWhile isdigit = r := by
    rw [List.dropWhile_append_of_pos hp, hrest.2]
  have hdigits : digits (p ++ r) = digits p := by rw [digits, htake, digits]
  obtain ⟨c, p, rfl⟩ := List.exists_cons_of_ne_nil hne
  have hc := hp c List.mem_cons_self
  have hspace : (c :: p ++ r).dropWhile isspace = c :: p ++ r :=
    List.dropWhile_cons_of_neg (by simp [not_isspace hc])
  have hminus : c ≠ 45 := digit_ne hc (by decide)
  have hplus : c ≠ 43 := digit_ne hc (by decide)
  have hatol : atol (c :: p ++ r) = min (2 ^ 31 - 1) (digits (c :: p) : ℤ) := by
    rw [atol, hspace]
    simp only [List.cons_append, if_neg hminus, if_neg hplus]
    rw [← List.cons_append, hdigits]
  have hsign : ¬ ((c :: p ++ r).head? = some 45 ∨ (c :: p ++ r).head? = some 43) := by
    simp [hminus, hplus]
  simp only [scanInt, hspace, if_neg hsign, hdrop, hatol]
  exact if_pos (by simp [hc])

/-- What is behind an entry. -/
theorem behind_cases (es : List Entry) : behind es = [] ∨ ∃ t, behind es = 44 :: t := by
  cases es with
  | nil => exact .inl rfl
  | cons e es => exact .inr ⟨_, rfl⟩

theorem takeWhile_behind {f : UInt8 → Bool} (hp : ∀ c ∈ p, f c = true) (hcomma : f 44 = false)
    (es : List Entry) : (p ++ behind es).takeWhile f = p := by
  rw [List.takeWhile_append_of_pos hp]
  rcases behind_cases es with h | ⟨t, h⟩
  · rw [h, List.takeWhile_nil, List.append_nil]
  · rw [h, List.takeWhile_cons_of_neg (by simp [hcomma]), List.append_nil]

theorem scanInt_pin (e : Entry) (r : List UInt8) :
    scanInt (e.pin ++ 61 :: r) = some (e.gpio, 61 :: r) :=
  scanInt_digits e.pin_ne e.pin_digits fun c hc => by
    cases hc
    decide

/-! ### The entries, as they are scanned -/

theorem comma_not_mem_levelText (l : Option Bool) : 44 ∉ levelText l := by
  rcases l with - | - | - <;> decide

theorem length_value (e : Entry) : e.value.length ≤ 10 := by
  have hname := length_name e
  have hlevel : (levelText e.level).length ≤ 2 := by
    rcases e.level with - | - | - <;> decide
  rw [Entry.value, List.length_append]
  omega

theorem value_ne (e : Entry) : e.value ≠ [] := fun h => name_ne e (List.append_eq_nil_iff.mp h).1

theorem comma_not_mem_value (e : Entry) : 44 ∉ e.value := by
  rw [Entry.value, List.mem_append, not_or]
  exact ⟨not_mem_name e (by decide), comma_not_mem_levelText e.level⟩

/-- `parse_set_GPIO` reads the entry that it is at. -/
theorem scanEntry_text (e : Entry) (es : List Entry) (gpio : ℤ) (type : List UInt8) :
    scanEntry (text (e :: es)) gpio type = (2, e.gpio, e.value) := by
  have htext : text (e :: es) = e.pin ++ 61 :: (e.value ++ behind es) := by
    simp only [text, Entry.text, List.append_assoc, List.cons_append]
  have htake : ((e.value ++ behind es).takeWhile (· ≠ 44)).take 15 = e.value := by
    have hvalue : ∀ c ∈ e.value, decide (c ≠ 44) = true := fun c hc =>
      decide_eq_true (ne_of_mem_of_not_mem hc (comma_not_mem_value e))
    rw [takeWhile_behind hvalue rfl]
    exact List.take_of_length_le ((length_value e).trans (by decide))
  rw [scanEntry, htext, scanInt_pin]
  simp only [htake, if_neg (value_ne e)]

/-- `get_gpio_struct_member` reads the entry that it is at, and the level if it has one. -/
theorem scanMember_text (e : Entry) (es : List Entry) (gpio : ℤ) (type : List UInt8) (level : ℤ) :
    ∃ count > 0, scanMember (text (e :: es)) gpio type level =
      (count, e.gpio, e.name, e.activeOr level) := by
  have htext : text (e :: es) = e.pin ++ 61 :: (e.name ++ (levelText e.level ++ behind es)) := by
    simp only [text, Entry.text, Entry.value, List.append_assoc, List.cons_append]
  have hname : ∀ c ∈ e.name, (decide (c ≠ 44 ∧ c ≠ 58)) = true := by
    intro c hc
    refine decide_eq_true ⟨?_, ?_⟩
    · rintro rfl
      exact not_mem_name e (by decide) hc
    · rintro rfl
      exact not_mem_name e (by decide) hc
  have hlength : e.name.length ≤ 19 := (length_name e).trans (by decide)
  rw [scanMember, htext, scanInt_pin]
  rcases hlevel : e.level with - | b
  · -- the level stays as it is
    have htake : (((e.name ++ behind es).takeWhile fun c => c ≠ 44 ∧ c ≠ 58)).take 19 = e.name := by
      rw [takeWhile_behind hname rfl, List.take_of_length_le hlength]
    refine ⟨2, by decide, ?_⟩
    simp only [levelText, List.nil_append, htake, if_neg (name_ne e), List.drop_left,
      Entry.activeOr, hlevel]
    rcases behind_cases es with h | ⟨t, h⟩
    · rw [h]
    · rw [h]
      rfl
  · have htake : ((e.name ++ (levelText (some b) ++ behind es)).takeWhile fun c =>
        c ≠ 44 ∧ c ≠ 58).take 19 = e.name := by
      rw [List.takeWhile_append_of_pos hname]
      have hstop : (levelText (some b) ++ behind es).takeWhile (fun c => c ≠ 44 ∧ c ≠ 58) = [] :=
        List.takeWhile_cons_of_neg (by decide)
      rw [hstop, List.append_nil, List.take_of_length_le hlength]
    have hscan : scanInt ([if b then 49 else 48] ++ behind es) =
        some (if b then 1 else 0, behind es) := by
      have hdigit : ∀ c ∈ [if b then (49 : UInt8) else 48], isdigit c = true :=
        List.all_eq_true.mp (by cases b <;> rfl)
      rw [scanInt_digits (List.cons_ne_nil _ _) hdigit]
      · cases b <;> rfl
      · intro c hc
        rcases behind_cases es with h | ⟨t, h⟩
        · rw [h] at hc
          cases hc
        · rw [h] at hc
          cases hc
          decide
    refine ⟨3, by decide, ?_⟩
    simp only [htake, if_neg (name_ne e), List.drop_left, Entry.activeOr, hlevel]
    simp only [levelText, List.cons_append, List.nil_append] at hscan ⊢
    rw [hscan]

/-! ### From entry to entry -/

theorem behindCommas_append (h : 44 ∉ p) : behindCommas (p ++ r) = behindCommas r := by
  induction p with
  | nil => rfl
  | cons c p ih =>
      have hne : c ≠ 44 := fun hc => h (hc ▸ List.mem_cons_self)
      rw [List.cons_append, behindCommas, if_neg hne]
      exact ih fun hmem => h (List.mem_cons_of_mem c hmem)

theorem comma_not_mem_text (e : Entry) : 44 ∉ e.text := by
  rw [Entry.text, List.mem_append, List.mem_cons, not_or, not_or]
  refine ⟨fun h => ?_, by decide, comma_not_mem_value e⟩
  exact absurd (e.pin_digits 44 h) (by decide)

/-- The configuration from each of the entries on. -/
def texts : List Entry → List (List UInt8)
  | [] => []
  | e :: es => text (e :: es) :: texts es

theorem behindCommas_behind (es : List Entry) : behindCommas (behind es) = texts es := by
  induction es with
  | nil => rfl
  | cons e es ih =>
      rw [behind, behindCommas, if_pos rfl, behindCommas_append (comma_not_mem_text e), ih]
      rfl

theorem positions_text (e : Entry) (es : List Entry) :
    positions (text (e :: es)) = texts (e :: es) := by
  rw [positions, text, behindCommas_append (comma_not_mem_text e), behindCommas_behind]
  rfl

theorem parseSetGpio_text (cb : ℤ → List UInt8 → σ → σ) (es : List Entry) (vars : ℤ × List UInt8)
    (x : σ) : parseSetGpio cb (text es) vars x = es.foldl (fun x e => cb e.gpio e.value x) x := by
  have hgo : ∀ (es : List Entry) vars x, ((texts es).foldl (parseRound cb) (vars, x)).2 =
      es.foldl (fun x e => cb e.gpio e.value x) x := by
    intro es
    induction es with
    | nil => exact fun _ _ => rfl
    | cons e es ih =>
        intro vars x
        rw [texts, List.foldl_cons, parseRound, scanEntry_text]
        exact ih _ _
  cases es with
  | nil => rfl
  | cons e es => rw [parseSetGpio, positions_text, hgo]

/-! ### Names of services -/

theorem map_name (s : Service) : s.name.map CString.tolower = s.name := by
  cases s <;> decide

theorem map_levelText (l : Option Bool) : (levelText l).map CString.tolower = levelText l := by
  rcases l with - | - | - <;> decide

theorem map_value (e : Entry) :
    e.value.map CString.tolower = e.service.name ++ levelText e.level := by
  rw [Entry.value, List.map_append, e.named, map_name, map_levelText]

/-- No name is a part of another one, with a level or without. -/
theorem name_infix_iff (s t : Service) (l : Option Bool) :
    s.name <:+: t.name ++ levelText l ↔ t = s := by
  cases s <;> cases t <;> rcases l with - | - | - <;> decide

theorem has_value_iff (e : Entry) (s : Service) : Has e.value s ↔ e.service = s := by
  rw [Has, strcasestr_isSome, map_name, map_value, name_infix_iff]

theorem has_name_iff (e : Entry) (s : Service) : Has e.name s ↔ e.service = s := by
  have hname : e.name.map CString.tolower = e.service.name ++ levelText none := by
    rw [e.named, map_name, levelText, List.append_nil]
  rw [Has, strcasestr_isSome, map_name, hname, name_infix_iff]

/-- A value is a name if it has no level. -/
theorem caseEq_value_iff (e : Entry) (s : Service) :
    CaseEq e.value s.name ↔ e.service = s ∧ e.level = none := by
  have hall : ∀ (s t : Service) (l : Option Bool),
      t.name ++ levelText l = s.name ↔ t = s ∧ l = none := by
    intro s t l
    cases s <;> cases t <;> rcases l with - | - | - <;> decide
  rw [CaseEq, map_value, map_name, hall]

theorem levelIn_value (e : Entry) (active : ℤ) : levelIn e.value active = e.activeOr active := by
  have hname : ∀ c ∈ e.name, decide (c ≠ 58) = true := fun c hc =>
    decide_eq_true (ne_of_mem_of_not_mem hc (not_mem_name e (by decide)))
  rw [levelIn, Entry.value, List.dropWhile_append_of_pos hname, Entry.activeOr]
  rcases e.level with - | - | - <;> rfl

theorem given_value (e : Entry) (p : Pin) :
    given e.gpio e.value p = ⟨e.gpio, e.activeOr p.active⟩ := by
  rw [given, levelIn_value]

theorem gpio_ne (e : Entry) : e.gpio ≠ -1 := by
  rw [Entry.gpio]
  omega

/-! ### The entry of a service -/

variable {s : Service}

/-- No other entry has the name. -/
theorem entryOf_split (hnames : (es.map Entry.service).Nodup) (h : entryOf s es = some e) :
    ∃ before after, es = before ++ e :: after ∧ e.service = s ∧
      (∀ d ∈ before, d.service ≠ s) ∧ ∀ d ∈ after, d.service ≠ s := by
  obtain ⟨hs, before, after, rfl, hbefore⟩ := List.find?_eq_some_iff_append.mp h
  have hs : e.service = s := of_decide_eq_true hs
  refine ⟨before, after, rfl, hs, fun d hd => by simpa using hbefore d hd, fun d hd hds => ?_⟩
  rw [List.map_append, List.map_cons] at hnames
  have hcons := (List.nodup_append.mp hnames).2.1
  refine (List.nodup_cons.mp hcons).1 ?_
  rw [hs, ← hds]
  exact List.mem_map_of_mem hd

theorem entryOf_none (h : entryOf s es = none) : ∀ d ∈ es, d.service ≠ s := by
  simpa [entryOf] using h

theorem entry_unique (hnames : (es.map Entry.service).Nodup) (h : entryOf s es = some e) {d : Entry}
    (hd : d ∈ es) (hds : d.service = s) : d = e := by
  obtain ⟨before, after, rfl, -, hbefore, hafter⟩ := entryOf_split hnames h
  rcases List.mem_append.mp hd with hmem | hmem
  · exact absurd hds (hbefore d hmem)
  · rcases List.mem_cons.mp hmem with rfl | hmem
    · rfl
    · exact absurd hds (hafter d hmem)

/-- What holds of the entries of a service. -/
theorem forall_named_iff (hnames : (es.map Entry.service).Nodup) {P : Entry → Prop} :
    (∀ d ∈ es, d.service = s → P d) ↔ ∀ e, entryOf s es = some e → P e := by
  constructor
  · intro h e he
    obtain ⟨before, after, rfl, hs, -, -⟩ := entryOf_split hnames he
    exact h e (List.mem_append_right before List.mem_cons_self) hs
  · intro h d hd hds
    rcases hentry : entryOf s es with - | e
    · exact absurd hds (entryOf_none hentry d hd)
    · rw [entry_unique hnames hentry hd hds]
      exact h e hentry

/-! ### The callbacks -/

theorem foldl_none (f : Entry → σ → σ) (h : ∀ d ∈ es, d.service ≠ s) (x : σ) :
    es.foldl (fun x e => if e.service = s then f e x else x) x = x := by
  induction es with
  | nil => rfl
  | cons d es ih =>
      rw [List.foldl_cons, if_neg (h d List.mem_cons_self)]
      exact ih fun d hd => h d (List.mem_cons_of_mem _ hd)

/-- A callback that minds the entries of its service only is called once. -/
theorem foldl_only (f : Entry → σ → σ) (hnames : (es.map Entry.service).Nodup) (x : σ) :
    es.foldl (fun x e => if e.service = s then f e x else x) x =
      match entryOf s es with
      | none => x
      | some e => f e x := by
  rcases hentry : entryOf s es with - | e
  · exact foldl_none f (entryOf_none hentry) x
  · obtain ⟨before, after, rfl, hs, hbefore, hafter⟩ := entryOf_split hnames hentry
    rw [List.foldl_append, foldl_none f hbefore, List.foldl_cons, if_pos hs, foldl_none f hafter]

/-- Two pins that are looked after together. -/
theorem foldl_pair {α β : Type} (f : α → Entry → α) (g : β → Entry → β) (es : List Entry) (a : α)
    (b : β) :
    es.foldl (fun p e => (f p.1 e, g p.2 e)) (a, b) = (es.foldl f a, es.foldl g b) :=
  List.foldl_hom₂ es Prod.mk f g _ a b fun _ _ _ => rfl

/-- The pin that a service has if its callback takes every entry of its own. -/
theorem foldl_given (hnames : (es.map Entry.service).Nodup) (active : ℤ) :
    es.foldl (fun p e => if e.service = s then (⟨e.gpio, e.activeOr p.active⟩ : Pin) else p)
      ⟨-1, active⟩ = expected s active es := by
  refine (foldl_only (fun e (p : Pin) => ⟨e.gpio, e.activeOr p.active⟩) hnames _).trans ?_
  rw [expected]

theorem setAmpGpio_value (e : Entry) (p : Pin) :
    setAmpGpio e.gpio e.value p =
      if e.service = .amp then ⟨e.gpio, e.activeOr p.active⟩ else p := by
  simp only [setAmpGpio, has_value_iff, given_value]

theorem setLedGpio_value (e : Entry) (p : Pin × Pin) :
    setLedGpio e.gpio e.value p =
      (if e.service = .green then ⟨e.gpio, e.activeOr p.1.active⟩ else p.1,
        if e.service = .red then ⟨e.gpio, e.activeOr p.2.active⟩ else p.2) := by
  simp only [setLedGpio, has_value_iff, given_value]
  rcases e.service with _ | _ | _ | _ | _ | _ | _ | _ <;> rfl

/-- A callback that compares the whole value takes an entry without a level, if the pin is one that
it is to set. -/
def bare (mine : ℤ → Prop) [DecidablePred mine] (s : Service) (p : Pin) (e : Entry) : Pin :=
  if e.service = s then if e.level = none ∧ mine e.gpio then { p with gpio := e.gpio } else p else p

theorem setIrGpio_value (e : Entry) (p : Pin) :
    setIrGpio e.gpio e.value p = bare (fun _ => True) .ir p e := by
  simp only [setIrGpio, caseEq_value_iff, bare, and_true, ite_and]

theorem setPower_value (e : Entry) (p : Pin × Pin) :
    setPower e.gpio e.value p =
      (bare (fun _ => True) .vcc p.1 e, bare (fun _ => True) .gnd p.2 e) := by
  simp only [setPower, caseEq_value_iff, bare]
  rcases e.service with _ | _ | _ | _ | _ | _ | _ | _ <;> rcases e.level with - | b <;> simp

theorem setChipPowerGpio_value (e : Entry) (p : Pin × Pin) :
    setChipPowerGpio e.gpio e.value p =
      (bare (· < GPIO_NUM_MAX) .vcc p.1 e, bare (· < GPIO_NUM_MAX) .gnd p.2 e) := by
  rw [setChipPowerGpio]
  split
  case isTrue h => simp [bare, Int.not_lt.mpr h]
  case isFalse h =>
    rw [setPower_value]
    simp only [bare, Int.not_le.mp h]

theorem setExpPowerGpio_value (e : Entry) (p : Pin × Pin) :
    setExpPowerGpio e.gpio e.value p =
      (bare (GPIO_NUM_MAX ≤ ·) .vcc p.1 e, bare (GPIO_NUM_MAX ≤ ·) .gnd p.2 e) := by
  rw [setExpPowerGpio]
  split
  case isTrue h => simp [bare, Int.not_le.mpr h]
  case isFalse h =>
    rw [setPower_value]
    simp only [bare, Int.not_lt.mp h]

theorem foldl_bare (mine : ℤ → Prop) [DecidablePred mine] (hnames : (es.map Entry.service).Nodup)
    (p : Pin) :
    es.foldl (bare mine s) p =
      match entryOf s es with
      | none => p
      | some e => if e.level = none ∧ mine e.gpio then { p with gpio := e.gpio } else p :=
  foldl_only
    (fun e (p : Pin) => if e.level = none ∧ mine e.gpio then { p with gpio := e.gpio } else p)
    hnames p

/-- The on-chip pins are set first, and the others then. -/
theorem foldl_bare_twice (hnames : (es.map Entry.service).Nodup) (p : Pin) :
    es.foldl (bare (GPIO_NUM_MAX ≤ ·) s) (es.foldl (bare (· < GPIO_NUM_MAX) s) p) =
      es.foldl (bare (fun _ => True) s) p := by
  rw [foldl_bare _ hnames, foldl_bare _ hnames, foldl_bare _ hnames]
  rcases entryOf s es with - | e
  · rfl
  · rcases hlevel : e.level with - | b
    · rcases Int.lt_or_le e.gpio GPIO_NUM_MAX with h | h
      · simp [hlevel, h, Int.not_le.mpr h]
      · simp [hlevel, h, Int.not_lt.mpr h]
    · simp [hlevel]

theorem bare_iff (hnames : (es.map Entry.service).Nodup) (active : ℤ) :
    es.foldl (bare (fun _ => True) s) ⟨-1, active⟩ = expected s active es ↔
      ∀ e ∈ es, e.service = s → e.level = none := by
  rw [forall_named_iff hnames, foldl_bare _ hnames, expected]
  rcases entryOf s es with - | e
  · exact ⟨fun _ => nofun, fun _ => rfl⟩
  · rcases hlevel : e.level with - | b
    · simp [Entry.activeOr, hlevel]
    · have hne := gpio_ne e
      simp [hlevel, hne.symm]

theorem setMonitorGpio_value (e : Entry) (p : Pin) :
    setMonitorGpio s e.gpio e.value p =
      if e.service = s then ⟨e.gpio, e.activeOr p.active⟩ else { p with gpio := -1 } := by
  simp only [setMonitorGpio, has_value_iff, given_value]

/-- Entries of other services leave the monitor without a pin. -/
theorem foldl_monitor_none (h : ∀ d ∈ es, d.service ≠ s) (p : Pin) :
    es.foldl (fun p e => setMonitorGpio s e.gpio e.value p) p =
      ⟨if es = [] then p.gpio else -1, p.active⟩ := by
  induction es generalizing p with
  | nil => rfl
  | cons d es ih =>
      rw [List.foldl_cons, setMonitorGpio_value, if_neg (h d List.mem_cons_self),
        ih fun d hd => h d (List.mem_cons_of_mem _ hd)]
      simp

theorem monitor_iff (hnames : (es.map Entry.service).Nodup) (active : ℤ) :
    es.foldl (fun p e => setMonitorGpio s e.gpio e.value p) ⟨-1, active⟩ = expected s active es ↔
      ∀ e ∈ es, e.service = s → ∃ before, es = before ++ [e] := by
  rw [forall_named_iff hnames, expected]
  rcases hentry : entryOf s es with - | e
  · rw [foldl_monitor_none (entryOf_none hentry)]
    simp
  · obtain ⟨before, after, rfl, hs, hbefore, hafter⟩ := entryOf_split hnames hentry
    have hfold : (before ++ e :: after).foldl (fun p e => setMonitorGpio s e.gpio e.value p)
        ⟨-1, active⟩ = ⟨if after = [] then e.gpio else -1, e.activeOr active⟩ := by
      rw [List.foldl_append, foldl_monitor_none hbefore, List.foldl_cons, setMonitorGpio_value,
        if_pos hs, foldl_monitor_none hafter]
    rw [hfold]
    have hne := gpio_ne e
    constructor
    · rintro heq d hd
      cases hd
      have hgpio := congrArg Pin.gpio heq
      by_cases hempty : after = []
      · exact ⟨before, by rw [hempty]⟩
      · exact absurd ((if_neg hempty).symm.trans hgpio).symm hne
    · intro h
      obtain ⟨before', heq⟩ := h e rfl
      have hlast : after = [] := by
        by_contra hcons
        obtain ⟨init, last, rfl⟩ := List.eq_nil_or_concat' after |>.resolve_left hcons
        rw [← List.cons_append, ← List.append_assoc] at heq
        have hend := (List.append_inj' heq rfl).2
        cases hend
        exact hafter e (List.mem_append_right init List.mem_cons_self) hs
      rw [if_pos hlast]

/-! ### The assignment -/

/-- The callback of a service gives it the pin of its entry if and only if the entry has no level
(power and infrared), or is the last one (jack and speaker fault). -/
theorem assigned_iff (hnames : (es.map Entry.service).Nodup) (s : Service) (active : ℤ)
    (vars : ℤ × List UInt8) :
    assigned s active (text es) vars = expected s active es ↔ CallbackFine s es := by
  have hpower := foldl_pair (bare (GPIO_NUM_MAX ≤ ·) .vcc) (bare (GPIO_NUM_MAX ≤ ·) .gnd) es
  have hchip := foldl_pair (bare (· < GPIO_NUM_MAX) .vcc) (bare (· < GPIO_NUM_MAX) .gnd) es
  have hled := foldl_pair
    (fun p e => if e.service = .green then (⟨e.gpio, e.activeOr p.active⟩ : Pin) else p)
    (fun p e => if e.service = .red then (⟨e.gpio, e.activeOr p.active⟩ : Pin) else p) es
  cases s with
  | jack =>
    rw [assigned, parseSetGpio_text]
    exact monitor_iff hnames active
  | spkfault =>
    rw [assigned, parseSetGpio_text]
    exact monitor_iff hnames active
  | amp =>
    simp only [assigned, parseSetGpio_text, setAmpGpio_value, foldl_given hnames]
    exact ⟨fun _ => trivial, fun _ => trivial⟩
  | green =>
    simp only [assigned, parseSetGpio_text, setLedGpio_value, hled, foldl_given hnames]
    exact ⟨fun _ => trivial, fun _ => trivial⟩
  | red =>
    simp only [assigned, parseSetGpio_text, setLedGpio_value, hled, foldl_given hnames]
    exact ⟨fun _ => trivial, fun _ => trivial⟩
  | vcc =>
    simp only [assigned, parseSetGpio_text, setChipPowerGpio_value, setExpPowerGpio_value, hchip,
      hpower, foldl_bare_twice hnames]
    exact bare_iff hnames active
  | gnd =>
    simp only [assigned, parseSetGpio_text, setChipPowerGpio_value, setExpPowerGpio_value, hchip,
      hpower, foldl_bare_twice hnames]
    exact bare_iff hnames active
  | ir =>
    simp only [assigned, parseSetGpio_text, setIrGpio_value]
    exact bare_iff hnames active

/-- A name that no entry before it has. -/
theorem memberFine_cons_self (hs : e.service = s) (hes : ∀ d ∈ es, d.service ≠ s)
    (isValid : ℤ → Bool) (level : ℤ) :
    MemberFine isValid s level (e :: es) ↔
      isValid e.gpio = true ∧ (e.level = none → level = 0) := by
  constructor
  · intro h
    exact h [] e es rfl hs
  · intro h before d after heq hds
    rcases before with - | ⟨b, before⟩
    · cases heq
      exact h
    · obtain ⟨-, rfl⟩ := List.cons.inj heq
      exact absurd hds (hes d (List.mem_append_right before List.mem_cons_self))

theorem memberFine_cons_of_ne (hs : e.service ≠ s) (isValid : ℤ → Bool) (level : ℤ) :
    MemberFine isValid s level (e :: es) ↔ MemberFine isValid s (e.activeOr level) es := by
  constructor
  · intro h before d after heq hds
    have hcons := h (e :: before) d after (by rw [heq, List.cons_append]) hds
    exact hcons
  · intro h before d after heq hds
    rcases before with - | ⟨b, before⟩
    · cases heq
      exact absurd hds hs
    · obtain ⟨rfl, rfl⟩ := List.cons.inj heq
      exact h before d after rfl hds

/-- An entry ends the loop if it has the name, and a pin of the chip. -/
theorem memberLoop_texts (isValid : ℤ → Bool) (e : Entry) (es : List Entry) (gpio : ℤ)
    (type : List UInt8) (level : ℤ) :
    memberLoop isValid s (texts (e :: es)) gpio type level =
      if isValid e.gpio = true ∧ e.service = s then ⟨e.gpio, e.activeOr level⟩
      else memberLoop isValid s (texts es) e.gpio e.name (e.activeOr level) := by
  obtain ⟨count, hcount, hscan⟩ := scanMember_text e es gpio type level
  have hcond : (count > 0 ∧ (isValid e.gpio = true ∨ e.gpio = -1) ∧ Has e.name s) ↔
      (isValid e.gpio = true ∧ e.service = s) := by
    rw [has_name_iff, or_iff_left (gpio_ne e), and_iff_right hcount]
  rw [texts, memberLoop, hscan]
  simp only [hcond]

theorem memberLoop_none (isValid : ℤ → Bool) (h : ∀ d ∈ es, d.service ≠ s) (gpio : ℤ)
    (type : List UInt8) (level : ℤ) :
    memberLoop isValid s (texts es) gpio type level = ⟨-1, 0⟩ := by
  induction es generalizing gpio type level with
  | nil => rfl
  | cons d es ih =>
      rw [memberLoop_texts, if_neg fun hd => h d List.mem_cons_self hd.2]
      exact ih (fun d hd => h d (List.mem_cons_of_mem _ hd)) _ _ _

theorem memberLoop_iff (isValid : ℤ → Bool) (hnames : (es.map Entry.service).Nodup) (gpio : ℤ)
    (type : List UInt8) (level : ℤ) :
    memberLoop isValid s (texts es) gpio type level = expected s 0 es ↔
      MemberFine isValid s level es := by
  induction es generalizing gpio type level with
  | nil => exact ⟨fun _ before d after heq => by simp at heq, fun _ => rfl⟩
  | cons e es ih =>
      obtain ⟨he, hes⟩ := List.nodup_cons.mp hnames
      have hne := gpio_ne e
      rw [memberLoop_texts]
      by_cases hs : e.service = s
      · have hothers : ∀ d ∈ es, d.service ≠ s := fun d hd hds =>
          he (hs.trans hds.symm ▸ List.mem_map_of_mem hd)
        have hexpected : expected s 0 (e :: es) = ⟨e.gpio, e.activeOr 0⟩ := by
          rw [expected, entryOf, List.find?_cons_of_pos (by simp [hs])]
        rw [memberFine_cons_self hs hothers, hexpected]
        by_cases hvalid : isValid e.gpio = true
        · rw [if_pos ⟨hvalid, hs⟩, Pin.mk.injEq, Entry.activeOr, Entry.activeOr]
          rcases e.level with - | b
          · simp [hvalid]
          · simp [hvalid]
        · -- no entry has the name and a pin of the chip
          rw [if_neg fun h => hvalid h.1, memberLoop_none isValid hothers]
          exact ⟨fun h => absurd (congrArg Pin.gpio h).symm hne, fun h => absurd h.1 hvalid⟩
      · have hexpected : expected s 0 (e :: es) = expected s 0 es := by
          rw [expected, entryOf, List.find?_cons_of_neg (by simp [hs]), ← entryOf, ← expected]
        rw [if_neg fun h => hs h.2, memberFine_cons_of_ne hs, hexpected]
        exact ih hes _ _ _

theorem getGpioStructMember_iff (isValid : ℤ → Bool) (hnames : (es.map Entry.service).Nodup)
    (s : Service) (static : Pin) :
    getGpioStructMember isValid (text es) s static = expected s 0 es ↔
      MemberFine isValid s static.active es := by
  rw [getGpioStructMember]
  cases es with
  | nil => exact ⟨fun _ before d after heq => by simp at heq, fun _ => rfl⟩
  | cons e es =>
      rw [positions_text]
      exact memberLoop_iff isValid hnames _ _ _

/-- A service has the pin and the level of its entry, from its callback and from
`get_gpio_struct_member`, if and only if neither minds the other entries and the level. -/
theorem assignment_iff (isValid : ℤ → Bool) (es : List Entry)
    (hnames : (es.map Entry.service).Nodup) (s : Service) (active : ℤ) (vars : ℤ × List UInt8)
    (static : Pin) :
    assigned s active (text es) vars = expected s active es ∧
        getGpioStructMember isValid (text es) s static = expected s 0 es ↔
      CallbackFine s es ∧ MemberFine isValid s static.active es :=
  and_congr (assigned_iff hnames s active vars) (getGpioStructMember_iff isValid hnames s static)

/-- `4=jack` -/
def jackFour : Entry where
  pin := CString.ascii "4"
  pin_ne := by decide
  pin_digits := List.all_eq_true.mp (by decide)
  service := .jack
  name := CString.ascii "jack"
  named := rfl
  level := none

/-- `5=amp:1` -/
def ampFive : Entry where
  pin := CString.ascii "5"
  pin_ne := by decide
  pin_digits := List.all_eq_true.mp (by decide)
  service := .amp
  name := CString.ascii "amp"
  named := rfl
  level := some true

theorem assignment_jack :
    assigned .jack 0 (text [ampFive, jackFour]) (0, []) = expected .jack 0 [ampFive, jackFour] ∧
        getGpioStructMember (fun g => 0 ≤ g ∧ g < 40) (text [ampFive, jackFour]) .jack ⟨-1, 0⟩ =
          expected .jack 0 [ampFive, jackFour] ↔
      CallbackFine .jack [ampFive, jackFour] ∧
        MemberFine (fun g => 0 ≤ g ∧ g < 40) .jack 0 [ampFive, jackFour] :=
  assignment_iff _ [ampFive, jackFour] (by decide) .jack 0 (0, []) ⟨-1, 0⟩

/-- The jack loses its pin to the amplifier behind it. -/
theorem jack_lost :
    ¬ ∀ (isValid : ℤ → Bool) (es : List Entry), (es.map Entry.service).Nodup →
      ∀ (s : Service) (active : ℤ) (vars : ℤ × List UInt8) (static : Pin),
        assigned s active (text es) vars = expected s active es ∧
          getGpioStructMember isValid (text es) s static = expected s 0 es := by
  intro h
  have hjack := (h (fun _ => true) [jackFour, ampFive] (by decide) .jack 0 (0, []) ⟨-1, 0⟩).1
  exact absurd hjack (by decide)

end GpioAssignment

end SqueezeliteMuse
