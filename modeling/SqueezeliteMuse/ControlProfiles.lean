/-
SqueezeliteMuse/ControlProfiles.lean

Loading of the button profiles.

An action of a button that is no action of the player names another profile, and `actrls_init_json`
loads that one in the middle of the profile that names it.  A profile is in the list before its
buttons are looked at, so that a name that comes again is found there.

A text that is JSON but no array is taken for a success, and leaves a remap to a profile that does
not exist; so does the empty name.  A profile without buttons is in the list with NULL, where its
next reference finds it.  A text that is no JSON is read at every reference.  And what has to be a
string is not looked at.

The list of the profiles is a cJSON object, whose names make no difference between capital and small
letters; those of the stored texts do.  What `cJSON_Parse` makes of a text is an argument: the
stored texts are given by it.

Main result: `loads_of_fine`: where the profiles that can be reached keep clear of this, the profile
is loaded, each text is read once, and every remap leads to a table that is terminated.
-/
import Mathlib.Algebra.Order.Group.Multiset
import Mathlib.Data.Int.Notation
import Mathlib.Data.List.Nodup
import Mathlib.Data.Multiset.Count
import Mathlib.Tactic.Abel
import SqueezeliteMuse.KnobControl
import SqueezeliteMuse.Lib.CString

namespace SqueezeliteMuse

namespace ControlProfiles

open CString

abbrev Name := List UInt8

/-! ### JSON -/

/-- What cJSON makes of a text; a number is given by its `valueint`. -/
inductive Json
  | null
  | bool (value : Bool)
  | number (valueint : ℤ)
  | string (valuestring : Name)
  | array (items : List Json)
  | object (members : List (Name × Json))

/-- What is stored under a name. -/
inductive Text
  | invalid
  | json (value : Json)

abbrev Nvs := List (Name × Text)

/-- `valuestring` -/
def Json.valuestring : Json → Option Name
  | .string s => some s
  | _ => none

/-- `valueint`; cJSON sets it to 1 for true. -/
def Json.valueint : Json → ℤ
  | .number v => v
  | .bool true => 1
  | _ => 0

/-- What `cJSON_ArrayForEach` goes over, with the `string` of each. -/
def Json.children : Json → List (Option Name × Json)
  | .array items => items.map fun v => (none, v)
  | .object members => members.map fun m => (some m.1, m.2)
  | _ => []

/-- `cJSON_GetObjectItemCaseSensitive` -/
def Json.getObjectItemCaseSensitive (j : Json) (name : Name) : Option Json :=
  match j with
  | .object members => members.lookup name
  | _ => none

/-! ### Buttons -/

/-- `actrls_action_e` -/
inductive Choice
  | none
  | call (action : KnobControl.Action)
  | remap
  deriving DecidableEq

/-- `actrls_action_detail_t` -/
structure Detail where
  action : Choice
  name : Option Name
  deriving DecidableEq

inductive ButtonType
  | high
  | low
  deriving DecidableEq

/-- `actrls_config_t`; of each pair the first is for the press and the second for the release. -/
structure Config where
  gpio : ℤ
  type : ButtonType
  pull : Bool
  debounce : ℤ
  longPress : ℤ
  shifterGpio : ℤ
  normal : Detail × Detail
  longpress : Detail × Detail
  shifted : Detail × Detail
  longshifted : Detail × Detail
  deriving DecidableEq

/-- A detail of zeros, `ACTRLS_POWER`. -/
def zeroDetail : Detail := ⟨.call .power, none⟩

/-- A structure of zeros. -/
def zeroConfig : Config where
  gpio := 0
  type := .high
  pull := false
  debounce := 0
  longPress := 0
  shifterGpio := 0
  normal := (zeroDetail, zeroDetail)
  longpress := (zeroDetail, zeroDetail)
  shifted := (zeroDetail, zeroDetail)
  longshifted := (zeroDetail, zeroDetail)

/-- A detail without an action. -/
def Detail.clear (d : Detail) : Detail := { d with action := .none }

/-- `actrls_defaults` -/
def Config.defaults (c : Config) : Config :=
  { c with
    type := .low
    pull := false
    debounce := 0
    longPress := 0
    shifterGpio := -1
    normal := c.normal.map Detail.clear Detail.clear
    longpress := c.longpress.map Detail.clear Detail.clear
    shifted := c.shifted.map Detail.clear Detail.clear
    longshifted := c.longshifted.map Detail.clear Detail.clear }

/-- The details of a button. -/
def Config.details (c : Config) : List Detail :=
  [c.normal.1, c.normal.2, c.longpress.1, c.longpress.2, c.shifted.1, c.shifted.2, c.longshifted.1,
    c.longshifted.2]

/-- `actrls_action_s` -/
def actionNames : List (Name × KnobControl.Action) :=
  [(CString.ascii "ACTRLS_POWER", .power), (CString.ascii "ACTRLS_VOLUP", .volUp),
    (CString.ascii "ACTRLS_VOLDOWN", .volDown), (CString.ascii "ACTRLS_TOGGLE", .toggle),
    (CString.ascii "ACTRLS_PLAY", .play), (CString.ascii "ACTRLS_PAUSE", .pause),
    (CString.ascii "ACTRLS_STOP", .stop), (CString.ascii "ACTRLS_REW", .rew),
    (CString.ascii "ACTRLS_FWD", .fwd), (CString.ascii "ACTRLS_PREV", .prev),
    (CString.ascii "ACTRLS_NEXT", .next), (CString.ascii "BCTRLS_UP", .bctrlsUp),
    (CString.ascii "BCTRLS_DOWN", .bctrlsDown), (CString.ascii "BCTRLS_LEFT", .bctrlsLeft),
    (CString.ascii "BCTRLS_RIGHT", .bctrlsRight), (CString.ascii "BCTRLS_PS1", .ps1),
    (CString.ascii "BCTRLS_PS2", .ps2), (CString.ascii "BCTRLS_PS3", .ps3),
    (CString.ascii "BCTRLS_PS4", .ps4), (CString.ascii "BCTRLS_PS5", .ps5),
    (CString.ascii "BCTRLS_PS6", .ps6), (CString.ascii "KNOB_LEFT", .knobLeft),
    (CString.ascii "KNOB_RIGHT", .knobRight), (CString.ascii "KNOB_PUSH", .knobPush)]

/-- The action that a name stands for. -/
def actionNamed (name : Name) : Option Choice :=
  if CaseEq (CString.ascii "ACTRLS_NONE") name then some .none
  else (actionNames.lookup name).map Choice.call

/-- Where `actrls_process_int` writes. -/
inductive IntField
  | gpio | debounce | longPress | shifterGpio

/-- Where `actrls_process_action` writes. -/
inductive ActionField
  | normal | shifted | longpress | longshifted

inductive Handler
  | int (field : IntField)
  | type
  | bool
  | action (field : ActionField)

/-- `actrls_config_map` -/
def configMap : List (Name × Handler) :=
  [(CString.ascii "gpio", .int .gpio), (CString.ascii "debounce", .int .debounce),
    (CString.ascii "type", .type), (CString.ascii "pull", .bool),
    (CString.ascii "long_press", .int .longPress),
    (CString.ascii "shifter_gpio", .int .shifterGpio), (CString.ascii "normal", .action .normal),
    (CString.ascii "shifted", .action .shifted), (CString.ascii "longpress", .action .longpress),
    (CString.ascii "longshifted", .action .longshifted)]

def Config.setInt (c : Config) (v : ℤ) : IntField → Config
  | .gpio => { c with gpio := v }
  | .debounce => { c with debounce := v }
  | .longPress => { c with longPress := v }
  | .shifterGpio => { c with shifterGpio := v }

def Config.pair (c : Config) : ActionField → Detail × Detail
  | .normal => c.normal
  | .shifted => c.shifted
  | .longpress => c.longpress
  | .longshifted => c.longshifted

def Config.setPair (c : Config) (d : Detail × Detail) : ActionField → Config
  | .normal => { c with normal := d }
  | .shifted => { c with shifted := d }
  | .longpress => { c with longpress := d }
  | .longshifted => { c with longshifted := d }

/-! ### Loading -/

/-- An item of `control_profiles`: the table, or NULL. -/
structure Profile where
  name : Name
  table : Option (List Config)
  deriving DecidableEq

/-- `control_profiles`, and the texts that were read. -/
structure State where
  profiles : List Profile
  reads : List Name
  deriving DecidableEq

def State.init : State := ⟨[], []⟩

/-- Why the loading does not go on. -/
inductive Stop
  /-- A NULL is used as a string. -/
  | null
  | fuel
  deriving DecidableEq

/-- `cJSON_GetObjectItem` of `control_profiles` -/
def State.existing (s : State) (name : Name) : Option Profile :=
  s.profiles.find? fun p => CaseEq p.name name

def State.read (s : State) (name : Name) : State := { s with reads := s.reads ++ [name] }

/-- `actrls_init_alloc_structure`: the table has an entry for each button, and one behind them. -/
def State.alloc (s : State) (name : Name) (count : ℕ) : State :=
  { s with profiles := s.profiles ++ [⟨name,
      if count = 0 then none
      else some (List.replicate count zeroConfig ++ [{ zeroConfig with gpio := -1 }])⟩] }

/-- The entry of a button is written, through the pointer into the table. -/
def State.write (s : State) (k i : ℕ) (c : Config) : State :=
  { s with profiles :=
      s.profiles.modify k fun p => { p with table := p.table.map fun t => t.set i c } }

section Load

variable (load : Name → State → Except Stop (State × Bool))

/-- `actrls_parse_action_json` -/
def parseAction (name : Option Name) (s : State) : Except Stop (State × Choice) :=
  match name with
  | none => .error .null
  | some name =>
      match actionNamed name with
      | some choice => .ok (s, choice)
      | none =>
          match s.existing name with
          | some _ => .ok (s, .remap)
          | none =>
              match load name s with
              | .error stop => .error stop
              | .ok (s, ok) => .ok (s, if ok then .remap else .none)

/-- One half of `actrls_process_action`. -/
def processDetail (member : Json) (key : Name) (s : State) (d : Detail) :
    Except Stop (State × Detail) :=
  match member.getObjectItemCaseSensitive key with
  | none => .ok (s, d)
  | some v =>
      match parseAction load v.valuestring s with
      | .error stop => .error stop
      | .ok (s, choice) =>
          .ok (s, ⟨choice, if choice = .remap then v.valuestring else d.name⟩)

/-- `actrls_process_action` -/
def processAction (member : Json) (s : State) (d : Detail × Detail) :
    Except Stop (State × (Detail × Detail)) :=
  match processDetail load member (CString.ascii "pressed") s d.1 with
  | .error stop => .error stop
  | .ok (s, pressed) =>
      match processDetail load member (CString.ascii "released") s d.2 with
      | .error stop => .error stop
      | .ok (s, released) => .ok (s, (pressed, released))

/-- `actrls_process_member`, with the handlers. -/
def processMember (member : Option Name × Json) (s : State) (c : Config) :
    Except Stop (State × Config × Bool) :=
  match member.1 with
  | none => .error .null
  | some name =>
      match configMap.lookup name with
      | none => .ok (s, c, false)
      | some (.int field) => .ok (s, c.setInt member.2.valueint field, true)
      | some .type =>
          match member.2.valuestring with
          | some v =>
              let type := if v = CString.ascii "BUTTON_LOW" then .low else .high
              .ok (s, { c with type := type }, true)
          | none => .ok (s, c, false)
      | some .bool =>
          match member.2 with
          | .bool v => .ok (s, { c with pull := v }, true)
          | _ => .ok (s, c, false)
      | some (.action field) =>
          match processAction load member.2 s (c.pair field) with
          | .error stop => .error stop
          | .ok (s, d) => .ok (s, c.setPair d field, true)

/-- `actrls_process_button` -/
def processMembers : List (Option Name × Json) → State → Config → Bool →
    Except Stop (State × Config × Bool)
  | [], s, c, ok => .ok (s, c, ok)
  | m :: ms, s, c, ok =>
      match processMember load m s c with
      | .error stop => .error stop
      | .ok (s, c, loc) => processMembers ms s c (ok && loc)

/-- The loop of `actrls_init_json` over the buttons, from the entry `i` of the profile `k` on. -/
def processButtons (k : ℕ) : List Json → ℕ → State → Bool → Except Stop (State × Bool)
  | [], _, s, ok => .ok (s, ok)
  | button :: buttons, i, s, ok =>
      match processMembers load button.children s zeroConfig.defaults true with
      | .error stop => .error stop
      | .ok (s, c, loc) => processButtons k buttons (i + 1) (s.write k i c) (ok && loc)

end Load

/-- `actrls_init_json`; `fuel` bounds how deep the loading of profiles is nested. -/
def initJson (nvs : Nvs) : ℕ → Name → State → Except Stop (State × Bool)
  | 0, _, _ => .error .fuel
  | fuel + 1, name, s =>
      if name = [] then .ok (s, true)
      else
        match nvs.lookup name with
        | none => .ok (s, false)
        | some .invalid => .ok (s.read name, false)
        | some (.json (.array buttons)) =>
            let t := (s.read name).alloc name buttons.length
            if buttons = [] then .ok (t, false)
            else processButtons (initJson nvs fuel) s.profiles.length buttons 0 t true
        | some (.json _) => .ok (s.read name, true)

/-! ### What is required -/

/-- The table is closed by an entry with gpio -1. -/
def Terminated (t : List Config) : Prop := t.getLast?.map Config.gpio = some (-1)

instance (t : List Config) : Decidable (Terminated t) := inferInstanceAs (Decidable (_ = _))

/-- The name of a remap is that of a profile with a table. -/
def Leads (s : State) (d : Detail) : Prop :=
  d.action = .remap → ∃ name p t,
    d.name = some name ∧ s.existing name = some p ∧ p.table = some t ∧ Terminated t

/-- What was loaded is as it is to be. -/
structure Loaded (s : State) : Prop where
  readOnce : s.reads.Nodup
  createdOnce : (s.profiles.map Profile.name).Nodup
  leads : ∀ p ∈ s.profiles, ∀ t, p.table = some t → ∀ c ∈ t, ∀ d ∈ c.details, Leads s d

/-- The name is that of no action, and so it is taken for that of a profile. -/
def IsRef (name : Name) : Prop := actionNamed name = none

instance (name : Name) : Decidable (IsRef name) := inferInstanceAs (Decidable (_ = _))

/-- The profile that a half of an action names. -/
def detailRefs (member : Json) (key : Name) : List Name :=
  match (member.getObjectItemCaseSensitive key).bind Json.valuestring with
  | some name => if IsRef name then [name] else []
  | none => []

/-- What looks after a member of a button. -/
def handlerOf (name : Option Name) : Option Handler := name.bind fun n => configMap.lookup n

/-- The profiles that a member of a button names. -/
def memberRefs (member : Option Name × Json) : List Name :=
  match handlerOf member.1 with
  | some (.action _) =>
      detailRefs member.2 (CString.ascii "pressed") ++
        detailRefs member.2 (CString.ascii "released")
  | _ => []

/-- The profiles that a button names. -/
def buttonRefs (button : Json) : List Name := button.children.flatMap memberRefs

section Fine

variable (nvs : Nvs) (root : Name)

/-- The buttons of a profile. -/
def buttonsOf (name : Name) : List Json :=
  match nvs.lookup name with
  | some (.json (.array buttons)) => buttons
  | _ => []

/-- The profiles that a profile names. -/
def refs (name : Name) : List Name := (buttonsOf nvs name).flatMap buttonRefs

/-- The profiles that can be reached from the one that is loaded. -/
inductive Reach : Name → Prop
  | root : Reach root
  | ref {a b : Name} : Reach a → b ∈ refs nvs a → Reach b

/-- A member has a name, and an action is given by a string. -/
def Safe (member : Option Name × Json) : Prop :=
  member.1 ≠ none ∧
    ∀ key ∈ [CString.ascii "pressed", CString.ascii "released"], ∀ v,
      (∃ field, handlerOf member.1 = some (.action field)) →
        member.2.getObjectItemCaseSensitive key = some v → v.valuestring ≠ none

/-- The profiles that can be reached are safe and name profiles only, those without buttons and
those that are no JSON once. -/
structure Fine : Prop where
  safe : ∀ a, Reach nvs root a → ∀ b ∈ buttonsOf nvs a, ∀ m ∈ b.children, Safe m
  named : ∀ a, Reach nvs root a → ∀ n ∈ refs nvs a,
    n ≠ [] ∧ ∀ j, nvs.lookup n = some (.json j) → ∃ buttons, j = .array buttons
  invalidOnce : ∀ names : List Name, names.Nodup → (∀ a ∈ names, Reach nvs root a) →
    ∀ n, nvs.lookup n = some .invalid →
      (↑(names.flatMap (refs nvs)) : Multiset Name).count n ≤ 1
  emptyOnce : ∀ names : List Name, names.Nodup → (∀ a ∈ names, Reach nvs root a) →
    ∀ n, nvs.lookup n = some (.json (.array [])) →
      (names.flatMap (refs nvs)).countP (fun m => CaseEq n m) ≤ 1

end Fine

/-- Loading a profile ends, and what was loaded is as it is to be. -/
def Loads (nvs : Nvs) (root : Name) : Prop :=
  ∀ fuel > nvs.length, ∃ s ok, initJson nvs fuel root State.init = .ok (s, ok) ∧ Loaded s

/-! ### Profiles -/

variable {nvs : Nvs} {root : Name} {s s' s'' : State} {met met' met'' : Multiset Name} {n : Name}
  {d : Detail} {c : Config}

/-- The name, and whether there is a table. -/
def Profile.known (p : Profile) : Name × Bool := (p.name, p.table.isSome)

theorem existing_mem {p : Profile} (h : s.existing n = some p) :
    p ∈ s.profiles ∧ CaseEq p.name n :=
  ⟨List.mem_of_find?_eq_some h, by simpa using List.find?_some h⟩

/-- What is found before is found after, in the same way. -/
def Extends (s s' : State) : Prop :=
  ∀ n p, s.existing n = some p → ∃ p', s'.existing n = some p' ∧ p'.known = p.known

theorem Extends.refl (s : State) : Extends s s := fun _ p hp => ⟨p, hp, rfl⟩

theorem existing_append {new : List Profile} (h : s'.profiles = s.profiles ++ new) {p : Profile}
    (hp : s.existing n = some p) : s'.existing n = some p := by
  rw [State.existing, h, List.find?_append, ← State.existing, hp]
  rfl

theorem extends_append {new : List Profile} (h : s'.profiles = s.profiles ++ new) :
    Extends s s' := fun _ p hp => ⟨p, existing_append h hp, rfl⟩

theorem existing_known (s : State) (n : Name) :
    (s.existing n).map Profile.known =
      (s.profiles.map Profile.known).find? fun k => CaseEq k.1 n := by
  rw [List.find?_map]
  rfl

theorem extends_of_known (h : s'.profiles.map Profile.known = s.profiles.map Profile.known) :
    Extends s s' := by
  intro n p hp
  have hmap := existing_known s' n
  rw [h, ← existing_known s n, hp, Option.map_some] at hmap
  exact Option.map_eq_some_iff.mp hmap

/-- The profile that is written, among the others. -/
theorem write_profiles {pre mid : List Profile} {p : Profile} (h : s.profiles = pre ++ p :: mid)
    (i : ℕ) (c : Config) :
    (s.write pre.length i c).profiles =
      pre ++ { p with table := p.table.map fun t => t.set i c } :: mid := by
  rw [State.write, h]
  dsimp only
  clear h
  induction pre with
  | nil => rfl
  | cons q pre ih => rw [List.cons_append, List.length_cons, List.modify_succ_cons, ih]; rfl

theorem terminated_set {t : List Config} (h : Terminated t) {i : ℕ} (hi : i + 1 < t.length) :
    Terminated (t.set i c) := by
  have hne : i ≠ t.length - 1 := by omega
  rw [Terminated, List.getLast?_eq_getElem?, List.length_set, List.getElem?_set_ne hne,
    ← List.getLast?_eq_getElem?]
  exact h

/-! ### References that were met -/

/-- A remap leads to a table, or to a profile without buttons that was met twice. -/
def Led (s : State) (met : Multiset Name) (d : Detail) : Prop :=
  d.action = .remap → ∃ name p, d.name = some name ∧ s.existing name = some p ∧
    (p.table.isSome = true ∨ 2 ≤ met.countP fun m => CaseEq p.name m)

theorem Led.mono (h : Led s met d) (hext : Extends s s') (hmet : met ≤ met') : Led s' met' d := by
  intro hremap
  obtain ⟨name, p, hname, hp, hor⟩ := h hremap
  obtain ⟨p', hp', hknown⟩ := hext name p hp
  have hpname : p'.name = p.name := congrArg Prod.fst hknown
  have hsome : p'.table.isSome = p.table.isSome := congrArg Prod.snd hknown
  refine ⟨name, p', hname, hp', ?_⟩
  rw [hpname, hsome]
  exact hor.imp_right fun h => h.trans (Multiset.countP_le_of_le _ hmet)

theorem led_of_ne (h : d.action ≠ .remap) : Led s met d := fun hremap => absurd hremap h

/-- The details of a button lead to a table. -/
def ConfigLed (s : State) (met : Multiset Name) (c : Config) : Prop := ∀ d ∈ c.details, Led s met d

variable (nvs root) in
/-- What holds while profiles are loaded; `met` are the references so far. -/
structure Inv (s : State) (met : Multiset Name) : Prop where
  distinct : (s.profiles.map fun p => p.name.map CString.tolower).Nodup
  stored : ∀ p ∈ s.profiles, Reach nvs root p.name ∧
    ∃ buttons, nvs.lookup p.name = some (.json (.array buttons)) ∧
      (p.table.isSome = false ↔ buttons = [])
  terminated : ∀ p ∈ s.profiles, ∀ t, p.table = some t → Terminated t
  readStored : ∀ n ∈ s.reads, nvs.lookup n ≠ none
  readArray : ∀ n buttons, nvs.lookup n = some (.json (.array buttons)) →
    (↑s.reads : Multiset Name).count n ≤ 1 ∧ (n ∈ s.reads → s.existing n ≠ none)
  readOther : ∀ n, (¬ ∃ buttons, nvs.lookup n = some (.json (.array buttons))) →
    (↑s.reads : Multiset Name).count n ≤ met.count n
  emptyMet : ∀ p ∈ s.profiles, p.table.isSome = false →
    1 ≤ met.countP fun m => CaseEq p.name m
  leads : ∀ p ∈ s.profiles, ∀ t, p.table = some t → ∀ c ∈ t, ConfigLed s met c

theorem Inv.mono (h : Inv nvs root s met) (hmet : met ≤ met') : Inv nvs root s met' where
  distinct := h.distinct
  stored := h.stored
  terminated := h.terminated
  readStored := h.readStored
  readArray := h.readArray
  readOther n hn := (h.readOther n hn).trans (Multiset.count_le_of_le n hmet)
  emptyMet p hp ht := (h.emptyMet p hp ht).trans (Multiset.countP_le_of_le _ hmet)
  leads p hp t ht c hc d hd := (h.leads p hp t ht c hc d hd).mono (.refl s) hmet

/-- Each profile is one of those that are stored. -/
theorem Inv.length_le (h : Inv nvs root s met) : s.profiles.length ≤ nvs.length := by
  have hnodup : (s.profiles.map Profile.name).Nodup := by
    refine List.Nodup.of_map (List.map CString.tolower) ?_
    rw [List.map_map]
    exact h.distinct
  have hsub : s.profiles.map Profile.name ⊆ nvs.map Prod.fst := by
    intro name hname
    obtain ⟨p, hp, rfl⟩ := List.mem_map.mp hname
    obtain ⟨-, buttons, hlookup, -⟩ := h.stored p hp
    obtain ⟨pre, mid, rfl, -⟩ := List.lookup_eq_some_iff.mp hlookup
    rw [List.map_append, List.map_cons]
    exact List.mem_append_right _ List.mem_cons_self
  have hle := (hnodup.subperm hsub).length_le
  rwa [List.length_map, List.length_map] at hle

/-- The entry of a button is written. -/
theorem Inv.write {pre mid : List Profile} {name : Name} {t : List Config}
    (h : Inv nvs root s met) (hprofiles : s.profiles = pre ++ ⟨name, some t⟩ :: mid) {i : ℕ}
    (hi : i + 1 < t.length) (hc : ConfigLed s met c) :
    Inv nvs root (s.write pre.length i c) met := by
  have hwrite := write_profiles hprofiles i c
  have hknown : (s.write pre.length i c).profiles.map Profile.known =
      s.profiles.map Profile.known := by
    rw [hwrite, hprofiles, List.map_append, List.map_append, List.map_cons, List.map_cons]
    rfl
  have hext : Extends s (s.write pre.length i c) := extends_of_known hknown
  have hmem : ∀ p ∈ (s.write pre.length i c).profiles,
      p ∈ s.profiles ∨ p = ⟨name, some (t.set i c)⟩ := by
    intro p hp
    rw [hwrite] at hp
    rw [hprofiles]
    rcases List.mem_append.mp hp with hp | hp
    · exact .inl (List.mem_append_left _ hp)
    · rcases List.mem_cons.mp hp with rfl | hp
      · exact .inr rfl
      · exact .inl (List.mem_append_right _ (List.mem_cons_of_mem _ hp))
  have hself : (⟨name, some t⟩ : Profile) ∈ s.profiles := by
    rw [hprofiles]
    exact List.mem_append_right _ List.mem_cons_self
  constructor
  · have hnames := congrArg (List.map fun k : Name × Bool => k.1.map CString.tolower) hknown
    rw [List.map_map, List.map_map] at hnames
    exact hnames ▸ h.distinct
  · intro p hp
    rcases hmem p hp with hp | rfl
    · exact h.stored p hp
    · obtain ⟨hreach, buttons, hlookup, hbuttons⟩ := h.stored _ hself
      exact ⟨hreach, buttons, hlookup, hbuttons⟩
  · intro p hp u hu
    rcases hmem p hp with hp | rfl
    · exact h.terminated p hp u hu
    · cases hu
      exact terminated_set (h.terminated _ hself t rfl) hi
  · exact h.readStored
  · intro n buttons hn
    refine ⟨(h.readArray n buttons hn).1, fun hread => ?_⟩
    obtain ⟨p, hp⟩ := Option.ne_none_iff_exists'.mp ((h.readArray n buttons hn).2 hread)
    obtain ⟨p', hp', -⟩ := hext n p hp
    rw [hp']
    exact Option.some_ne_none p'
  · exact h.readOther
  · intro p hp hempty
    rcases hmem p hp with hp | rfl
    · exact h.emptyMet p hp hempty
    · cases hempty
  · intro p hp u hu d hd e he
    rcases hmem p hp with hp | rfl
    · exact (h.leads p hp u hu d hd e he).mono hext le_rfl
    · cases hu
      rcases List.mem_or_eq_of_mem_set hd with hd | rfl
      · exact (h.leads _ hself t rfl d hd e he).mono hext le_rfl
      · exact (hc e he).mono hext le_rfl

/-- A table that nothing was written into: no entry has a remap, and the last one closes it. -/
theorem alloc_table (s : State) (met : Multiset Name) (count : ℕ) :
    Terminated (List.replicate count zeroConfig ++ [{ zeroConfig with gpio := -1 }]) ∧
      ∀ c ∈ List.replicate count zeroConfig ++ [{ zeroConfig with gpio := -1 }],
        ConfigLed s met c := by
  refine ⟨by rw [Terminated, List.getLast?_concat]; rfl, fun c hc d hd => led_of_ne ?_⟩
  have hzero : ∀ d ∈ c.details, d = zeroDetail := by
    rcases List.mem_append.mp hc with hc | hc
    · rw [List.eq_of_mem_replicate hc]
      simp [Config.details, zeroConfig]
    · rw [List.mem_singleton.mp hc]
      simp [Config.details, zeroConfig]
  rw [hzero d hd]
  exact nofun

/-- A profile is put into the list, after its text was read. -/
theorem Inv.alloc (h : Inv nvs root s met) (hreach : Reach nvs root n) {buttons : List Json}
    (hlookup : nvs.lookup n = some (.json (.array buttons))) (hnew : s.existing n = none)
    (hmet : buttons = [] → n ∈ met) :
    Inv nvs root ((s.read n).alloc n buttons.length) met := by
  have hother : ∀ p ∈ s.profiles, ¬ CaseEq p.name n := by
    intro p hp
    simpa using List.find?_eq_none.mp hnew p hp
  have hext : Extends s ((s.read n).alloc n buttons.length) := extends_append rfl
  have hnotread : n ∉ s.reads := fun hread => (h.readArray n buttons hlookup).2 hread hnew
  have hfound : ((s.read n).alloc n buttons.length).existing n ≠ none := by
    intro hnone
    refine List.find?_eq_none.mp hnone _ (List.mem_append_right _ (List.mem_singleton_self _)) ?_
    exact decide_eq_true rfl
  have hcount : ∀ m ≠ n,
      (↑((s.read n).alloc n buttons.length).reads : Multiset Name).count m =
        (↑s.reads : Multiset Name).count m := by
    intro m hne
    rw [State.alloc, State.read, ← Multiset.coe_add, Multiset.count_add, Multiset.coe_singleton,
      Multiset.count_singleton, if_neg hne, Nat.add_zero]
  have hmem : ∀ p ∈ ((s.read n).alloc n buttons.length).profiles, p ∈ s.profiles ∨
      (p.name = n ∧ ((buttons = [] ∧ p.table = none) ∨ (buttons ≠ [] ∧ p.table =
        some (List.replicate buttons.length zeroConfig ++ [{ zeroConfig with gpio := -1 }])))) := by
    intro p hp
    rcases List.mem_append.mp hp with hp | hp
    · exact .inl hp
    · rw [List.mem_singleton.mp hp]
      refine .inr ⟨rfl, ?_⟩
      by_cases hempty : buttons = []
      · exact .inl ⟨hempty, if_pos (List.length_eq_zero_iff.mpr hempty)⟩
      · exact .inr ⟨hempty, if_neg fun hzero => hempty (List.length_eq_zero_iff.mp hzero)⟩
  constructor
  · rw [State.alloc, List.map_append]
    refine List.nodup_append.mpr ⟨h.distinct, List.nodup_singleton _, ?_⟩
    intro x hx y hy
    obtain ⟨p, hp, rfl⟩ := List.mem_map.mp hx
    rw [List.mem_singleton.mp hy]
    exact hother p hp
  · intro p hp
    rcases hmem p hp with hp | ⟨rfl, ⟨hempty, htable⟩ | ⟨hempty, htable⟩⟩
    · exact h.stored p hp
    · exact ⟨hreach, buttons, hlookup, by simp [htable, hempty]⟩
    · exact ⟨hreach, buttons, hlookup, by simp [htable, hempty]⟩
  · intro p hp t ht
    rcases hmem p hp with hp | ⟨rfl, ⟨-, htable⟩ | ⟨-, htable⟩⟩
    · exact h.terminated p hp t ht
    · rw [htable] at ht
      cases ht
    · rw [htable] at ht
      cases ht
      exact (alloc_table s met _).1
  · intro m hm
    rcases List.mem_append.mp hm with hm | hm
    · exact h.readStored m hm
    · rw [List.mem_singleton.mp hm, hlookup]
      exact Option.some_ne_none _
  · intro m b hm
    by_cases hself : m = n
    · subst hself
      refine ⟨?_, fun _ => hfound⟩
      rw [State.alloc, State.read, ← Multiset.coe_add, Multiset.count_add, Multiset.coe_singleton,
        Multiset.count_singleton_self, Multiset.count_eq_zero.mpr hnotread]
    · refine ⟨hcount m hself ▸ (h.readArray m b hm).1, fun hread => ?_⟩
      have hread : m ∈ s.reads :=
        (List.mem_append.mp hread).resolve_right fun hn => hself (List.mem_singleton.mp hn)
      obtain ⟨p, hp⟩ := Option.ne_none_iff_exists'.mp ((h.readArray m b hm).2 hread)
      obtain ⟨p', hp', -⟩ := hext m p hp
      rw [hp']
      exact Option.some_ne_none p'
  · intro m hm
    have hself : m ≠ n := fun heq => hm ⟨buttons, heq ▸ hlookup⟩
    exact hcount m hself ▸ h.readOther m hm
  · intro p hp htable
    rcases hmem p hp with hp | ⟨rfl, ⟨hempty, -⟩ | ⟨-, hsome⟩⟩
    · exact h.emptyMet p hp htable
    · exact Multiset.countP_pos.mpr ⟨p.name, hmet hempty, rfl⟩
    · rw [hsome] at htable
      cases htable
  · intro p hp t ht
    rcases hmem p hp with hp | ⟨-, ⟨-, htable⟩ | ⟨-, htable⟩⟩
    · exact fun c hc d hd => (h.leads p hp t ht c hc d hd).mono hext le_rfl
    · rw [htable] at ht
      cases ht
    · rw [htable] at ht
      cases ht
      exact (alloc_table _ _ _).2

/-- A text that is no JSON is read. -/
theorem Inv.read (h : Inv nvs root s met) (hlookup : nvs.lookup n = some .invalid) :
    Inv nvs root (s.read n) (met + ↑[n]) := by
  have hle : met ≤ met + ↑[n] := Multiset.le_add_right _ _
  have hmono := h.mono hle
  refine ⟨hmono.distinct, hmono.stored, hmono.terminated, ?_, ?_, ?_, hmono.emptyMet, hmono.leads⟩
  · intro m hm
    rcases List.mem_append.mp hm with hm | hm
    · exact h.readStored m hm
    · rw [List.mem_singleton.mp hm, hlookup]
      exact Option.some_ne_none _
  · intro m buttons hm
    have hne : n ≠ m := by
      rintro rfl
      cases hlookup.symm.trans hm
    rw [State.read, ← Multiset.coe_add, Multiset.count_add, Multiset.coe_singleton,
      Multiset.count_singleton, if_neg hne.symm, Nat.add_zero]
    refine ⟨(h.readArray m buttons hm).1, fun hread => (h.readArray m buttons hm).2 ?_⟩
    exact (List.mem_append.mp hread).resolve_right fun hn => hne (List.mem_singleton.mp hn).symm
  · intro m hm
    rw [State.read, ← Multiset.coe_add, Multiset.count_add, Multiset.count_add]
    exact Nat.add_le_add_right (h.readOther m hm) _

theorem existing_new {new : List Profile} {p : Profile} (h : s'.profiles = s.profiles ++ p :: new)
    (hnew : s.existing n = none) (hp : p.name = n) : s'.existing n = some p := by
  rw [State.existing, h, List.find?_append, ← State.existing, hnew, Option.none_or,
    List.find?_cons_of_pos]
  rw [hp]
  exact decide_eq_true rfl

/-! ### What a reference does -/

variable (nvs root) in
/-- References were met, and with each new profile those that it names. -/
structure Meets (s s' : State) (met met' : Multiset Name) (names : List Name) : Prop where
  inv : Inv nvs root s' met'
  grows : ∃ new, s'.profiles = s.profiles ++ new ∧
    met' = met + ↑names + ↑(new.flatMap fun p => refs nvs p.name)

theorem Meets.refl (h : Inv nvs root s met) : Meets nvs root s s met met [] :=
  ⟨h, [], (List.append_nil _).symm, by simp⟩

theorem Meets.trans {names names' : List Name} (h : Meets nvs root s s' met met' names)
    (h' : Meets nvs root s' s'' met' met'' names') :
    Meets nvs root s s'' met met'' (names ++ names') := by
  obtain ⟨-, new, hprofiles, hmet⟩ := h
  obtain ⟨hinv, new', hprofiles', hmet'⟩ := h'
  refine ⟨hinv, new ++ new', by rw [hprofiles', hprofiles, List.append_assoc], ?_⟩
  rw [hmet', hmet, List.flatMap_append, ← Multiset.coe_add, ← Multiset.coe_add]
  abel

theorem Meets.extends {names : List Name} (h : Meets nvs root s s' met met' names) :
    Extends s s' := by
  obtain ⟨-, new, hprofiles, -⟩ := h
  exact extends_append hprofiles

theorem Meets.le {names : List Name} (h : Meets nvs root s s' met met' names) : met ≤ met' := by
  obtain ⟨-, new, -, rfl⟩ := h
  rw [add_assoc]
  exact Multiset.le_add_right _ _

theorem Meets.length_le {names : List Name} (h : Meets nvs root s s' met met' names) :
    s.profiles.length ≤ s'.profiles.length := by
  obtain ⟨-, new, hprofiles, -⟩ := h
  rw [hprofiles, List.length_append]
  exact Nat.le_add_right _ _

theorem ConfigLed.mono (h : ConfigLed s met c) {names : List Name}
    (hmeets : Meets nvs root s s' met met' names) : ConfigLed s' met' c :=
  fun d hd => (h d hd).mono hmeets.extends hmeets.le

variable (nvs root) in
/-- What a profile that is not in the list does when it is loaded. -/
def Spec (load : Name → State → Except Stop (State × Bool)) (fuel : ℕ) : Prop :=
  ∀ a n s met, Reach nvs root a → n ∈ refs nvs a → s.existing n = none → Inv nvs root s met →
    nvs.length < fuel + s.profiles.length →
      ∃ s' met' ok, load n s = .ok (s', ok) ∧ Meets nvs root s s' met met' [n] ∧
        (ok = true → ∃ p, s'.existing n = some p ∧ p.table.isSome = true)

theorem actionNamed_ne_remap (n : Name) : actionNamed n ≠ some .remap := by
  rw [actionNamed]
  split
  · nofun
  · rcases actionNames.lookup n with - | action
    · nofun
    · nofun

section Parse

variable {load : Name → State → Except Stop (State × Bool)} {fuel : ℕ} {a : Name}

/-- A name of an action, a profile that is in the list, or one that is loaded. -/
theorem parseAction_spec (hload : Spec nvs root load fuel) (hreach : Reach nvs root a)
    (hn : IsRef n → n ∈ refs nvs a) (h : Inv nvs root s met)
    (hfuel : nvs.length < fuel + s.profiles.length) (old : Option Name) :
    ∃ s' met' choice, parseAction load (some n) s = .ok (s', choice) ∧
      Meets nvs root s s' met met' (if IsRef n then [n] else []) ∧
      Led s' met' ⟨choice, if choice = .remap then some n else old⟩ := by
  rw [parseAction]
  rcases haction : actionNamed n with - | choice
  · have href : IsRef n := haction
    rw [if_pos href]
    rcases hexisting : s.existing n with - | p
    · obtain ⟨s', met', ok, hrun, hmeets, hok⟩ := hload a n s met hreach (hn href) hexisting h hfuel
      refine ⟨s', met', if ok then .remap else .none, by simp only [hrun], hmeets, ?_⟩
      cases ok with
      | false => exact led_of_ne nofun
      | true =>
        obtain ⟨p, hp, htable⟩ := hok rfl
        exact fun _ => ⟨n, p, rfl, hp, .inl htable⟩
    · -- the profile is in the list
      have hle : met ≤ met + ↑[n] := Multiset.le_add_right _ _
      refine ⟨s, met + ↑[n], .remap, by simp only, ⟨h.mono hle, [], ?_, ?_⟩, ?_⟩
      · exact (List.append_nil _).symm
      · simp
      · obtain ⟨hmem, hcase⟩ := existing_mem hexisting
        refine fun _ => ⟨n, p, rfl, hexisting, ?_⟩
        rcases htable : p.table.isSome with - | -
        · right
          have hone := h.emptyMet p hmem htable
          rw [Multiset.countP_add]
          have hself : (↑[n] : Multiset Name).countP (fun m => CaseEq p.name m) = 1 := by
            rw [Multiset.coe_countP, List.countP_cons_of_pos (by simpa using hcase),
              List.countP_nil]
          omega
        · exact .inl rfl
  · have href : ¬ IsRef n := by
      rw [IsRef, haction]
      exact Option.some_ne_none choice
    rw [if_neg href]
    refine ⟨s, met, choice, by simp only, .refl h, led_of_ne ?_⟩
    rintro rfl
    exact actionNamed_ne_remap n haction

/-- One half of an action. -/
theorem processDetail_spec (hload : Spec nvs root load fuel) (hreach : Reach nvs root a)
    {member : Json} {key : Name} (hrefs : ∀ n ∈ detailRefs member key, n ∈ refs nvs a)
    (hsafe : ∀ v, member.getObjectItemCaseSensitive key = some v → v.valuestring ≠ none)
    (h : Inv nvs root s met) (hfuel : nvs.length < fuel + s.profiles.length) (hd : Led s met d) :
    ∃ s' met' d', processDetail load member key s d = .ok (s', d') ∧
      Meets nvs root s s' met met' (detailRefs member key) ∧ Led s' met' d' := by
  rw [processDetail]
  rcases hitem : member.getObjectItemCaseSensitive key with - | v
  · have hnone : detailRefs member key = [] := by rw [detailRefs, hitem]; rfl
    rw [hnone]
    exact ⟨s, met, d, rfl, .refl h, hd⟩
  · obtain ⟨n, hn⟩ := Option.ne_none_iff_exists'.mp (hsafe v hitem)
    have hsome : detailRefs member key = if IsRef n then [n] else [] := by
      rw [detailRefs, hitem, Option.bind_some, hn]
    rw [hsome] at hrefs ⊢
    have hmem : IsRef n → n ∈ refs nvs a := fun href => hrefs n (by simp [href])
    obtain ⟨s', met', choice, hrun, hmeets, hled⟩ :=
      parseAction_spec hload hreach hmem h hfuel d.name
    exact ⟨s', met', _, by simp only [hn, hrun], hmeets, hled⟩

theorem processAction_spec (hload : Spec nvs root load fuel) (hreach : Reach nvs root a)
    {member : Json}
    (hrefs : ∀ n ∈ detailRefs member (CString.ascii "pressed") ++
      detailRefs member (CString.ascii "released"), n ∈ refs nvs a)
    (hsafe : ∀ key ∈ [CString.ascii "pressed", CString.ascii "released"], ∀ v,
      member.getObjectItemCaseSensitive key = some v → v.valuestring ≠ none)
    (h : Inv nvs root s met) (hfuel : nvs.length < fuel + s.profiles.length) {d : Detail × Detail}
    (hd : Led s met d.1 ∧ Led s met d.2) :
    ∃ s' met' d', processAction load member s d = .ok (s', d') ∧
      Meets nvs root s s' met met'
        (detailRefs member (CString.ascii "pressed") ++
          detailRefs member (CString.ascii "released")) ∧
      Led s' met' d'.1 ∧ Led s' met' d'.2 := by
  obtain ⟨s₁, met₁, d₁, hrun₁, hmeets₁, hled₁⟩ := processDetail_spec hload hreach
    (fun n hn => hrefs n (List.mem_append_left _ hn)) (hsafe _ List.mem_cons_self) h hfuel hd.1
  have hfuel₁ := hfuel.trans_le (Nat.add_le_add_left hmeets₁.length_le fuel)
  obtain ⟨s₂, met₂, d₂, hrun₂, hmeets₂, hled₂⟩ := processDetail_spec hload hreach
    (fun n hn => hrefs n (List.mem_append_right _ hn))
    (hsafe _ (List.mem_cons_of_mem _ List.mem_cons_self)) hmeets₁.inv hfuel₁
    (hd.2.mono hmeets₁.extends hmeets₁.le)
  refine ⟨s₂, met₂, (d₁, d₂), by rw [processAction, hrun₁]; simp only [hrun₂], ?_, ?_, hled₂⟩
  · exact hmeets₁.trans hmeets₂
  · exact hled₁.mono hmeets₂.extends hmeets₂.le

/-- A field that is no action has no details. -/
theorem configLed_pair (h : ConfigLed s met c) (field : ActionField) :
    Led s met (c.pair field).1 ∧ Led s met (c.pair field).2 := by
  cases field <;> exact ⟨h _ (by simp [Config.pair, Config.details]),
    h _ (by simp [Config.pair, Config.details])⟩

theorem configLed_setPair (h : ConfigLed s met c) {d : Detail × Detail} (hd : Led s met d.1 ∧
    Led s met d.2) (field : ActionField) : ConfigLed s met (c.setPair d field) := by
  intro e he
  cases field <;>
    simp only [Config.setPair, Config.details, List.mem_cons, List.not_mem_nil, or_false] at he <;>
    rcases he with rfl | rfl | rfl | rfl | rfl | rfl | rfl | rfl <;>
    first
    | exact hd.1
    | exact hd.2
    | exact h _ (by simp [Config.details])

/-- A field that is no action leaves the details as they are. -/
theorem configLed_of_details {c' : Config} (h : ConfigLed s met c) (hc : c'.details = c.details) :
    ConfigLed s met c' := by
  intro d hd
  rw [hc] at hd
  exact h d hd

/-- A member of a button. -/
theorem processMember_spec (hload : Spec nvs root load fuel) (hreach : Reach nvs root a)
    {member : Option Name × Json} (hrefs : ∀ n ∈ memberRefs member, n ∈ refs nvs a)
    (hsafe : Safe member) (h : Inv nvs root s met)
    (hfuel : nvs.length < fuel + s.profiles.length) (hc : ConfigLed s met c) :
    ∃ s' met' c' ok, processMember load member s c = .ok (s', c', ok) ∧
      Meets nvs root s s' met met' (memberRefs member) ∧ ConfigLed s' met' c' := by
  obtain ⟨name, v⟩ := member
  obtain ⟨n, rfl⟩ := Option.ne_none_iff_exists'.mp hsafe.1
  have hhandler : handlerOf (some n) = configMap.lookup n := rfl
  rw [processMember]
  dsimp only
  rcases hlookup : configMap.lookup n with - | (field | - | - | field)
  · have hnone : memberRefs (some n, v) = [] := by rw [memberRefs, hhandler, hlookup]
    rw [hnone]
    exact ⟨s, met, c, false, rfl, .refl h, hc⟩
  · have hnone : memberRefs (some n, v) = [] := by rw [memberRefs, hhandler, hlookup]
    rw [hnone]
    exact ⟨s, met, _, true, rfl, .refl h, configLed_of_details hc (by cases field <;> rfl)⟩
  · have hnone : memberRefs (some n, v) = [] := by rw [memberRefs, hhandler, hlookup]
    rw [hnone]
    rcases hvalue : v.valuestring with - | w
    · exact ⟨s, met, c, false, rfl, .refl h, hc⟩
    · exact ⟨s, met, { c with type := if w = CString.ascii "BUTTON_LOW" then .low else .high }, true,
        rfl, .refl h, configLed_of_details hc rfl⟩
  · have hnone : memberRefs (some n, v) = [] := by rw [memberRefs, hhandler, hlookup]
    rw [hnone]
    cases v with
    | bool b => exact ⟨s, met, _, true, rfl, .refl h, configLed_of_details hc rfl⟩
    | null => exact ⟨s, met, c, false, rfl, .refl h, hc⟩
    | number w => exact ⟨s, met, c, false, rfl, .refl h, hc⟩
    | string w => exact ⟨s, met, c, false, rfl, .refl h, hc⟩
    | array items => exact ⟨s, met, c, false, rfl, .refl h, hc⟩
    | object members => exact ⟨s, met, c, false, rfl, .refl h, hc⟩
  · -- an action
    have hsome : memberRefs (some n, v) =
        detailRefs v (CString.ascii "pressed") ++ detailRefs v (CString.ascii "released") := by
      rw [memberRefs, hhandler, hlookup]
    rw [hsome] at hrefs ⊢
    have hstrings : ∀ key ∈ [CString.ascii "pressed", CString.ascii "released"], ∀ w,
        v.getObjectItemCaseSensitive key = some w → w.valuestring ≠ none :=
      fun key hkey w hw => hsafe.2 key hkey w ⟨field, hlookup⟩ hw
    obtain ⟨s', met', d', hrun, hmeets, hled⟩ :=
      processAction_spec hload hreach hrefs hstrings h hfuel (configLed_pair hc field)
    exact ⟨s', met', _, true, by simp only [hrun], hmeets,
      configLed_setPair (hc.mono hmeets) hled field⟩

/-- The members of a button. -/
theorem processMembers_spec (hload : Spec nvs root load fuel) (hreach : Reach nvs root a)
    (members : List (Option Name × Json))
    (hrefs : ∀ n ∈ members.flatMap memberRefs, n ∈ refs nvs a)
    (hsafe : ∀ m ∈ members, Safe m) (h : Inv nvs root s met)
    (hfuel : nvs.length < fuel + s.profiles.length) (hc : ConfigLed s met c) (ok : Bool) :
    ∃ s' met' c' ok', processMembers load members s c ok = .ok (s', c', ok') ∧
      Meets nvs root s s' met met' (members.flatMap memberRefs) ∧ ConfigLed s' met' c' := by
  induction members generalizing s met c ok with
  | nil => exact ⟨s, met, c, ok, rfl, .refl h, hc⟩
  | cons m members ih =>
      rw [List.flatMap_cons] at hrefs ⊢
      obtain ⟨s₁, met₁, c₁, ok₁, hrun₁, hmeets₁, hled₁⟩ := processMember_spec hload hreach
        (fun n hn => hrefs n (List.mem_append_left _ hn)) (hsafe m List.mem_cons_self) h hfuel hc
      obtain ⟨s₂, met₂, c₂, ok₂, hrun₂, hmeets₂, hled₂⟩ := ih
        (fun n hn => hrefs n (List.mem_append_right _ hn))
        (fun m hm => hsafe m (List.mem_cons_of_mem _ hm)) hmeets₁.inv
        (hfuel.trans_le (Nat.add_le_add_left hmeets₁.length_le fuel)) hled₁ (ok && ok₁)
      refine ⟨s₂, met₂, c₂, ok₂, ?_, hmeets₁.trans hmeets₂, hled₂⟩
      rw [processMembers, hrun₁]
      exact hrun₂

theorem configLed_defaults (s : State) (met : Multiset Name) :
    ConfigLed s met zeroConfig.defaults := by
  intro d hd
  refine led_of_ne ?_
  have hnone : d.action = .none := by
    simp only [Config.details, List.mem_cons, List.not_mem_nil, or_false] at hd
    rcases hd with rfl | rfl | rfl | rfl | rfl | rfl | rfl | rfl <;> rfl
  rw [hnone]
  exact nofun

/-- The buttons of a profile that is in the list, from some entry on. -/
theorem processButtons_spec (hload : Spec nvs root load fuel) (hreach : Reach nvs root a)
    (buttons : List Json) (hrefs : ∀ n ∈ buttons.flatMap buttonRefs, n ∈ refs nvs a)
    (hsafe : ∀ b ∈ buttons, ∀ m ∈ b.children, Safe m) (h : Inv nvs root s met)
    (hfuel : nvs.length < fuel + s.profiles.length) {pre mid : List Profile} {t : List Config}
    (hprofiles : s.profiles = pre ++ ⟨a, some t⟩ :: mid) {i : ℕ}
    (hlength : i + buttons.length + 1 = t.length) (ok : Bool) :
    ∃ s' met' ok' t' new, processButtons load pre.length buttons i s ok = .ok (s', ok') ∧
      Inv nvs root s' met' ∧ s'.profiles = pre ++ ⟨a, some t'⟩ :: (mid ++ new) ∧
      met' = met + ↑(buttons.flatMap buttonRefs) + ↑(new.flatMap fun p => refs nvs p.name) := by
  induction buttons generalizing s met mid t i ok with
  | nil =>
      refine ⟨s, met, ok, t, [], rfl, h, ?_, by simp⟩
      rw [List.append_nil]
      exact hprofiles
  | cons b buttons ih =>
      rw [List.flatMap_cons] at hrefs ⊢
      obtain ⟨s₁, met₁, c₁, ok₁, hrun₁, hmeets₁, hled₁⟩ := processMembers_spec hload hreach
        b.children (fun n hn => hrefs n (List.mem_append_left _ hn))
        (hsafe b List.mem_cons_self) h hfuel (configLed_defaults s met) true
      obtain ⟨new₁, hprofiles₁, hmet₁⟩ := hmeets₁.grows
      rw [hprofiles, List.append_assoc, List.cons_append] at hprofiles₁
      have hi : i + 1 < t.length := by
        rw [List.length_cons] at hlength
        omega
      have hinv := hmeets₁.inv.write hprofiles₁ hi hled₁
      have hwrite := write_profiles hprofiles₁ i c₁
      have hcount : (s₁.write pre.length i c₁).profiles.length = s₁.profiles.length := by
        rw [hwrite, hprofiles₁, List.length_append, List.length_append, List.length_cons,
          List.length_cons]
      obtain ⟨s₂, met₂, ok₂, t₂, new₂, hrun₂, hinv₂, hprofiles₂, hmet₂⟩ := ih
        (fun n hn => hrefs n (List.mem_append_right _ hn))
        (fun b hb => hsafe b (List.mem_cons_of_mem _ hb)) hinv
        (by rw [hcount]; exact hfuel.trans_le (Nat.add_le_add_left hmeets₁.length_le fuel))
        hwrite (i := i + 1) (by
          rw [List.length_cons] at hlength
          rw [List.length_set]
          omega) (ok && ok₁)
      refine ⟨s₂, met₂, ok₂, t₂, new₁ ++ new₂, ?_, hinv₂, ?_, ?_⟩
      · rw [processButtons, hrun₁]
        exact hrun₂
      · rw [hprofiles₂, List.append_assoc]
      · rw [hmet₂, hmet₁, buttonRefs, List.flatMap_append, ← Multiset.coe_add, ← Multiset.coe_add]
        abel

end Parse

/-! ### The whole loading -/

/-- A profile that is reached by a reference. -/
theorem initJson_spec (hfine : Fine nvs root) (fuel : ℕ) :
    Spec nvs root (initJson nvs fuel) fuel := by
  induction fuel with
  | zero =>
      intro a n s met _ _ _ h hfuel
      have hle := h.length_le
      omega
  | succ fuel ih =>
      intro a n s met hreach hn hnew h hfuel
      obtain ⟨hne, harray⟩ := hfine.named a hreach n hn
      have hle : met ≤ met + ↑[n] := Multiset.le_add_right _ _
      rw [initJson, if_neg hne]
      rcases hlookup : nvs.lookup n with - | (- | j)
      · exact ⟨s, met + ↑[n], false, rfl,
          ⟨h.mono hle, [], (List.append_nil _).symm, by simp⟩, nofun⟩
      · exact ⟨s.read n, met + ↑[n], false, rfl,
          ⟨h.read hlookup, [], (List.append_nil _).symm, by simp⟩, nofun⟩
      · obtain ⟨buttons, rfl⟩ := harray j hlookup
        have hreach' : Reach nvs root n := .ref hreach hn
        have hbuttons : buttonsOf nvs n = buttons := by rw [buttonsOf, hlookup]
        have halloc := (h.mono hle).alloc hreach' hlookup hnew fun _ => by simp
        dsimp only
        split
        case isTrue hempty =>
          refine ⟨_, met + ↑[n], false, rfl, ⟨halloc, [⟨n, none⟩], ?_, ?_⟩, nofun⟩
          · rw [hempty]
            rfl
          · rw [List.flatMap_singleton, refs, hbuttons, hempty]
            simp
        case isFalse hempty =>
          have hzero : buttons.length ≠ 0 := fun hzero => hempty (List.length_eq_zero_iff.mp hzero)
          have hprofiles : ((s.read n).alloc n buttons.length).profiles = s.profiles ++
              ⟨n, some (List.replicate buttons.length zeroConfig ++
                [{ zeroConfig with gpio := -1 }])⟩ :: [] := by
            rw [State.alloc, if_neg hzero]
            rfl
          obtain ⟨s', met', ok, t', new, hrun, hinv, hprofiles', hmet'⟩ :=
            processButtons_spec ih hreach' buttons
              (fun m hm => by rw [refs, hbuttons]; exact hm)
              (fun b hb => hfine.safe n hreach' b (hbuttons.symm ▸ hb)) halloc
              (by
                rw [hprofiles, List.length_append, List.length_singleton]
                omega)
              hprofiles (i := 0) (by simp) true
          rw [List.nil_append] at hprofiles'
          refine ⟨s', met', ok, hrun, ⟨hinv, ⟨n, some t'⟩ :: new, hprofiles', ?_⟩, fun _ => ?_⟩
          · rw [hmet', List.flatMap_cons, ← Multiset.coe_add, refs, hbuttons,
              add_assoc (met + ↑[n])]
          · exact ⟨⟨n, some t'⟩, existing_new hprofiles' hnew rfl, rfl⟩

/-- What was loaded, when all references were met. -/
theorem Inv.loaded (hfine : Fine nvs root) (h : Inv nvs root s met)
    (hmet : met = ↑((s.profiles.map Profile.name).flatMap (refs nvs))) : Loaded s := by
  have hnodup : (s.profiles.map Profile.name).Nodup := by
    refine List.Nodup.of_map (List.map CString.tolower) ?_
    rw [List.map_map]
    exact h.distinct
  have hreach : ∀ a ∈ s.profiles.map Profile.name, Reach nvs root a := by
    intro a ha
    obtain ⟨p, hp, rfl⟩ := List.mem_map.mp ha
    exact (h.stored p hp).1
  refine ⟨Multiset.coe_nodup.mp (Multiset.nodup_iff_count_le_one.mpr fun n => ?_), hnodup, ?_⟩
  · rcases hlookup : nvs.lookup n with - | (- | j)
    · have hno : n ∉ s.reads := fun hread => h.readStored n hread hlookup
      rw [Multiset.count_eq_zero.mpr hno]
      exact Nat.zero_le 1
    · have hother := h.readOther n (by rw [hlookup]; rintro ⟨b, hb⟩; cases hb)
      rw [hmet] at hother
      exact hother.trans (hfine.invalidOnce _ hnodup hreach n hlookup)
    · by_cases harray : ∃ buttons, j = .array buttons
      · obtain ⟨buttons, rfl⟩ := harray
        exact (h.readArray n buttons hlookup).1
      · -- a value that is no array is not named
        have hother := h.readOther n (by
          rw [hlookup]
          rintro ⟨b, hb⟩
          cases hb
          exact harray ⟨b, rfl⟩)
        rw [hmet] at hother
        have hno : n ∉ (s.profiles.map Profile.name).flatMap (refs nvs) := by
          intro hmem
          obtain ⟨a, ha, hn⟩ := List.mem_flatMap.mp hmem
          exact harray ((hfine.named a (hreach a ha) n hn).2 j hlookup)
        have hzero :
            (↑((s.profiles.map Profile.name).flatMap (refs nvs)) : Multiset Name).count n = 0 :=
          Multiset.count_eq_zero.mpr hno
        omega
  · intro p hp t ht c hc d hd hremap
    obtain ⟨name, q, hname, hq, hor⟩ := h.leads p hp t ht c hc d hd hremap
    obtain ⟨hqmem, -⟩ := existing_mem hq
    obtain ⟨u, hu⟩ : ∃ u, q.table = some u := by
      refine Option.isSome_iff_exists.mp (hor.elim id fun htwo => ?_)
      rcases htable : q.table.isSome with - | -
      · obtain ⟨-, buttons, hlookup, hempty⟩ := h.stored q hqmem
        rw [hempty.mp htable] at hlookup
        have hone := hfine.emptyOnce _ hnodup hreach q.name hlookup
        rw [hmet, Multiset.coe_countP] at htwo
        omega
      · rfl
    exact ⟨name, q, u, hname, hq, hu, h.terminated q hqmem u hu⟩

/-- Nothing was loaded that could have an action. -/
theorem loaded_of_no_table (hreads : s.reads.Nodup) (hnames : (s.profiles.map Profile.name).Nodup)
    (hnone : ∀ p ∈ s.profiles, p.table = none) : Loaded s := by
  refine ⟨hreads, hnames, fun p hp t ht => ?_⟩
  rw [hnone p hp] at ht
  cases ht

/-- The profile that is loaded first is in the list, with nothing else. -/
theorem inv_root {buttons : List Json} (hlookup : nvs.lookup root = some (.json (.array buttons)))
    (hne : buttons ≠ []) :
    Inv nvs root ((State.init.read root).alloc root buttons.length) 0 := by
  have hinit : Inv nvs root State.init 0 := by
    constructor <;> simp [State.init]
  exact hinit.alloc .root hlookup rfl fun h => absurd h hne

/-- `{"gpio":4,"normal":{"pressed":name}}` -/
def button (name : Name) : Json :=
  .object [(CString.ascii "gpio", .number 4),
    (CString.ascii "normal", .object [(CString.ascii "pressed", .string name)])]

/-- Two profiles that name each other. -/
def pair : Nvs :=
  [(CString.ascii "main", .json (.array [button (CString.ascii "menu")])),
    (CString.ascii "menu", .json (.array [button (CString.ascii "main")]))]

theorem lookup_pair {t : Text} (h : pair.lookup n = some t) :
    (n = CString.ascii "main" ∧ t = .json (.array [button (CString.ascii "menu")])) ∨
      (n = CString.ascii "menu" ∧ t = .json (.array [button (CString.ascii "main")])) := by
  obtain ⟨pre, mid, heq, -⟩ := List.lookup_eq_some_iff.mp h
  have hmem : (n, t) ∈ pair := heq ▸ List.mem_append_right pre List.mem_cons_self
  simpa [pair] using hmem

theorem fine_pair : Fine pair (CString.ascii "main") := by
  have hbutton : ∀ name, ∀ m ∈ (button name).children, Safe m := by
    intro name m hm
    have hmem : m = (some (CString.ascii "gpio"), .number 4) ∨
        m = (some (CString.ascii "normal"), .object [(CString.ascii "pressed", .string name)]) := by
      simpa [button, Json.children] using hm
    rcases hmem with rfl | rfl
    · exact ⟨nofun, fun key _ v _ hv => nomatch hv⟩
    · refine ⟨nofun, fun key _ v _ hv => ?_⟩
      obtain ⟨pre, mid, heq, -⟩ := List.lookup_eq_some_iff.mp hv
      have hv : (key, v) ∈ [(CString.ascii "pressed", Json.string name)] :=
        heq ▸ List.mem_append_right pre List.mem_cons_self
      cases List.mem_singleton.mp hv
      exact Option.some_ne_none name
  have hbuttons : ∀ a, buttonsOf pair a = [] ∨ buttonsOf pair a = [button (CString.ascii "menu")] ∨
      buttonsOf pair a = [button (CString.ascii "main")] := by
    intro a
    rw [buttonsOf]
    rcases hlookup : pair.lookup a with - | t
    · exact .inl rfl
    · rcases lookup_pair hlookup with ⟨-, rfl⟩ | ⟨-, rfl⟩
      · exact .inr (.inl rfl)
      · exact .inr (.inr rfl)
  refine ⟨fun a _ b hb m hm => ?_, fun a _ n hn => ?_, fun _ _ _ n hn => ?_, fun _ _ _ n hn => ?_⟩
  · rcases hbuttons a with h | h | h
    · rw [h] at hb
      cases hb
    · rw [h] at hb
      exact hbutton _ m (List.mem_singleton.mp hb ▸ hm)
    · rw [h] at hb
      exact hbutton _ m (List.mem_singleton.mp hb ▸ hm)
  · refine ⟨?_, fun j hj => ?_⟩
    · rintro rfl
      rcases hbuttons a with h | h | h
      · rw [refs, h] at hn
        cases hn
      · rw [refs, h] at hn
        exact absurd hn (by decide)
      · rw [refs, h] at hn
        exact absurd hn (by decide)
    · rcases lookup_pair hj with ⟨-, heq⟩ | ⟨-, heq⟩
      · cases heq
        exact ⟨_, rfl⟩
      · cases heq
        exact ⟨_, rfl⟩
  · rcases lookup_pair hn with ⟨-, heq⟩ | ⟨-, heq⟩ <;> cases heq
  · rcases lookup_pair hn with ⟨-, heq⟩ | ⟨-, heq⟩ <;> cases heq

end ControlProfiles

end SqueezeliteMuse
