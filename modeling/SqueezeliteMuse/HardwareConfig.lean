/-
SqueezeliteMuse/HardwareConfig.lean

The settings of the I2S, S/PDIF, rotary and display hardware in accessors.c, and the commands of
cmd_config.c and cmd_i2ctools.c that set them.

A setting is written with `printf` and read by searching for the names of its values, wherever
they stand in the text.  What is read goes to a static structure, and a value without a place in
the text stays what it was when the setting was read before.

Main result: `roundTrips_iff`: a rotary encoder is read back, whatever was read before, if and only
if it has a switch and both of its options and no timer; a display or an S/PDIF output is never;
and an I2S one only if the name of the model says what the text does not.
-/
import SqueezeliteMuse.GpioAssignment
import SqueezeliteMuse.Lib.Decimal
import SqueezeliteMuse.MetadataFormat

namespace SqueezeliteMuse

namespace HardwareConfig

open CString

export CString (ascii tolower)

open GpioAssignment (scanInt)

open Metadata (parseParam)

/-! ### Reading -/

/-- `PARSE_PARAM_STR` -/
def parseParamStr (config name : List UInt8) (sep : UInt8) (old : List UInt8) (width : ℕ) :
    List UInt8 :=
  match strstr config name with
  | none => old
  | some p =>
      match p.dropWhile (· ≠ sep) with
      | [] => old
      | _ :: value =>
          let found := ((value.dropWhile (· = 32)).takeWhile (· ≠ 44)).take width
          if found = [] then old else found

/-- `sscanf(p, "bck%*[^=]=%d", &pin)` and the like, where `strcasestr` finds the name. -/
def scanPin (config name : List UInt8) : ℤ :=
  match strcasestr config name with
  | none => -1
  | some p =>
      if name <+: p then
        let rest := p.drop name.length
        if rest.head? = some 61 then -1
        else
          match rest.dropWhile (· ≠ 61) with
          | [] => -1
          | _ :: value => ((scanInt value).map Prod.fst).getD (-1)
      else -1

/-- The pins of `i2s_pin_config_t` -/
structure Pins where
  bck : ℤ
  ws : ℤ
  dataOut : ℤ
  deriving DecidableEq

/-- `i2s_platform_config_t` -/
structure I2sConfig where
  pin : Pins
  model : List UInt8
  muteGpio : ℤ
  muteLevel : ℤ
  i2cAddr : ℤ
  sda : ℤ
  scl : ℤ
  deriving DecidableEq

def setI2sPin (config : List UInt8) : Pins :=
  ⟨scanPin config (ascii "bck"), scanPin config (ascii "ws"), scanPin config (ascii "do")⟩

/-- `sscanf(p, "%*[^=]=%7[^,]", mute)` -/
def scanMute (p : List UInt8) : List UInt8 :=
  if p.head? = some 61 then []
  else
    match p.dropWhile (· ≠ 61) with
    | [] => []
    | _ :: value => (value.takeWhile (· ≠ 44)).take 7

/-- `config_i2s_get_from_str`, with the structure as it was. -/
def configI2sGetFromStr (i2sDacPin : I2sConfig) (dacConfig : List UInt8) : I2sConfig where
  pin := setI2sPin dacConfig
  model := parseParamStr dacConfig (ascii "model") 61 (ascii "i2s") 31
  muteGpio :=
    match strcasestr dacConfig (ascii "mute") with
    | none => i2sDacPin.muteGpio
    | some p => atol (scanMute p)
  muteLevel :=
    match strcasestr dacConfig (ascii "mute") with
    | none => i2sDacPin.muteLevel
    | some p => parseParam p (ascii "mute") 58 i2sDacPin.muteLevel
  i2cAddr := parseParam dacConfig (ascii "i2c") 61 i2sDacPin.i2cAddr
  sda := parseParam dacConfig (ascii "sda") 61 i2sDacPin.sda
  scl := parseParam dacConfig (ascii "scl") 61 i2sDacPin.scl

/-- `rotary_struct_t` -/
structure RotaryConfig where
  a : ℤ
  b : ℤ
  sw : ℤ
  knobonly : Bool
  volumeLock : Bool
  longpress : Bool
  timer : ℤ
  deriving DecidableEq

/-- `config_rotary_get` -/
def configRotaryGet (rotary : RotaryConfig) (config : List UInt8) : RotaryConfig :=
  if config = [] then rotary
  else
    let rotary := { rotary with
      a := parseParam config (ascii "A") 61 rotary.a
      b := parseParam config (ascii "B") 61 rotary.b
      sw := parseParam config (ascii "SW") 61 rotary.sw }
    match strcasestr config (ascii "knobonly") with
    | some p =>
        { rotary with
          knobonly := true
          timer :=
            match p.dropWhile (· ≠ 61) with
            | [] => 350
            | _ :: value => atol value
          longpress := false }
    | none =>
        { rotary with
          knobonly := false
          timer := 0
          volumeLock := (strcasestr config (ascii "volume")).isSome || rotary.volumeLock
          longpress := (strcasestr config (ascii "longpress")).isSome || rotary.longpress }

/-- `display_config_t` -/
structure DisplayConfig where
  width : ℤ
  height : ℤ
  address : ℤ
  rstPin : ℤ
  hflip : Bool
  vflip : Bool
  drivername : Option (List UInt8)
  csPin : ℤ
  speed : ℤ
  back : ℤ
  depth : ℤ
  type : Option (List UInt8)
  rotate : Bool
  deriving DecidableEq

def knownDrivers : List (List UInt8) :=
  [ascii "SH1106", ascii "SSD1306", ascii "SSD1322", ascii "SSD1326", ascii "SSD1327",
    ascii "SSD1675", ascii "SSD1351", ascii "ST7735", ascii "ST7789", ascii "ILI9341"]

def displayConfGetDriverName (driver : List UInt8) : Option (List UInt8) :=
  knownDrivers.find? fun d => (strcasestr driver d).isSome

/-- `%u` of `sscanf`, to an `int` -/
def scanUnsigned (s : List UInt8) : Option ℤ :=
  let t := s.dropWhile isspace
  let u := if t.head? = some 45 ∨ t.head? = some 43 then t.tail else t
  let n : ℤ := min (2 ^ 32 - 1) (digits u)
  if (u.head?).any isdigit then some ((if t.head? = some 45 then -n else n).bmod (2 ^ 32)) else none

/-- `sscanf(p, "%*[^:]:%u", &depth)` -/
def scanDepth (p : List UInt8) (depth : ℤ) : ℤ :=
  if p.head? = some 58 then depth
  else
    match p.dropWhile (· ≠ 58) with
    | [] => depth
    | _ :: value => (scanUnsigned value).getD depth

/-- `config_display_get`; `none` if the driver is looked for behind a character that there is
not. -/
def configDisplayGet (dstruct : DisplayConfig) (config : List UInt8) : Option DisplayConfig := do
  let driver ← (
    match strcasestr config (ascii "driver") with
    | none => some (dstruct.depth, dstruct.drivername)
    | some p =>
        match p.dropWhile (· ≠ 61) with
        | [] => none
        | _ :: value => some (scanDepth p dstruct.depth, displayConfGetDriverName value))
  some
    { depth := driver.1
      drivername := driver.2
      width := parseParam config (ascii "width") 61 dstruct.width
      height := parseParam config (ascii "height") 61 dstruct.height
      rstPin := parseParam config (ascii "reset") 61 dstruct.rstPin
      address := parseParam config (ascii "address") 61 dstruct.address
      csPin := parseParam config (ascii "cs") 61 dstruct.csPin
      speed := parseParam config (ascii "speed") 61 dstruct.speed
      back := parseParam config (ascii "back") 61 dstruct.back
      type :=
        if (strstr config (ascii "SPI")).isSome then some (ascii "SPI")
        else if (strstr config (ascii "I2C")).isSome then some (ascii "I2C")
        else dstruct.type
      hflip := (strcasestr config (ascii "HFlip")).isSome
      vflip := (strcasestr config (ascii "VFlip")).isSome
      rotate := (strcasestr config (ascii "rotate")).isSome }

/-- The static structures. -/
structure Statics where
  i2s : I2sConfig
  rotary : RotaryConfig
  display : DisplayConfig

def Statics.init : Statics where
  i2s := ⟨⟨0, 0, 0⟩, [], -1, -1, -1, -1, -1⟩
  rotary := ⟨-1, -1, -1, false, false, false, 0⟩
  display := ⟨0, 0, 0, -1, false, false, none, -1, 0, -1, -1, none, false⟩

/-- A setting is read.  `config_dac_get` and `config_spdif_get` use the structure of
`config_i2s_get_from_str`. -/
inductive Reading
  | i2s (config : List UInt8)
  | rotary (config : List UInt8)
  | display (config : List UInt8)

def Statics.read (s : Statics) : Reading → Option Statics
  | .i2s config => some { s with i2s := configI2sGetFromStr s.i2s config }
  | .rotary config => some { s with rotary := configRotaryGet s.rotary config }
  | .display config =>
      (configDisplayGet s.display config).map fun display => { s with display := display }

/-- The structures after any readings. -/
def Statics.after (before : List Reading) : Option Statics := before.foldlM Statics.read .init

/-! ### Writing -/

/-- `snprintf` -/
def snprintf (bufferSize : ℕ) (text : List UInt8) : List UInt8 := text.take (bufferSize - 1)

/-- `%u` of an `int` -/
def unsigned (n : ℤ) : List UInt8 := decimal (n % 2 ^ 32).toNat

/-- `%i` -/
def signed (n : ℤ) : List UInt8 := if n < 0 then 45 :: decimal n.natAbs else decimal n.toNat

/-- `config_i2s_set` -/
def configI2sSet (config : I2sConfig) : List UInt8 :=
  let buffer := snprintf 255 (ascii "model=" ++ config.model ++ ascii ",bck=" ++
    unsigned config.pin.bck ++ ascii ",ws=" ++ unsigned config.pin.ws ++ ascii ",do=" ++
    unsigned config.pin.dataOut)
  let buffer :=
    if config.muteGpio ≥ 0 then
      snprintf 255 (buffer ++ ascii ",mute=" ++ unsigned config.muteGpio ++ ascii ":" ++
        unsigned config.muteLevel)
    else buffer
  let buffer :=
    if config.sda ≥ 0 then
      snprintf 255 (buffer ++ ascii ",sda=" ++ unsigned config.sda ++ ascii ",scl=" ++
        unsigned config.scl)
    else buffer
  if config.i2cAddr > 0 then snprintf 255 (buffer ++ ascii ",i2c=" ++ unsigned config.i2cAddr)
  else buffer

/-- `config_spdif_set` -/
def configSpdifSet (config : I2sConfig) : List UInt8 :=
  snprintf 255 (ascii "bck=" ++ unsigned config.pin.bck ++ ascii ",ws=" ++
    unsigned config.pin.ws ++ ascii ",do=" ++ unsigned config.pin.dataOut)

/-- `config_rotary_set` -/
def configRotarySet (config : RotaryConfig) : List UInt8 :=
  let buffer := snprintf 512 (ascii "A=" ++ signed config.a ++ ascii ",B=" ++ signed config.b)
  let buffer :=
    if config.sw ≥ 0 then snprintf 512 (buffer ++ ascii ",SW=" ++ signed config.sw) else buffer
  let buffer :=
    if config.knobonly then
      let buffer := buffer ++ ascii ",knobonly"
      if config.timer > 0 then snprintf 512 (buffer ++ ascii "=" ++ signed config.timer) else buffer
    else buffer
  let buffer := if config.volumeLock then buffer ++ ascii ",volume" else buffer
  if config.longpress then buffer ++ ascii ",longpress" else buffer

/-- `config_display_set` -/
def configDisplaySet (config : DisplayConfig) : List UInt8 :=
  let type := config.type.getD []
  let buffer := snprintf 512 (type ++ ascii ",width=" ++ signed config.width ++ ascii ",height=" ++
    signed config.height)
  let buffer :=
    if CaseEq (ascii "I2C") type then
      if config.address > 0 then
        snprintf 512 (buffer ++ ascii ",address=" ++ signed config.address)
      else buffer
    else if config.csPin ≥ 0 then snprintf 512 (buffer ++ ascii ",cs=" ++ signed config.csPin)
    else buffer
  let buffer :=
    if config.rstPin ≥ 0 then snprintf 512 (buffer ++ ascii ",reset=" ++ signed config.rstPin)
    else buffer
  let buffer :=
    if config.back ≥ 0 then snprintf 512 (buffer ++ ascii ",back=" ++ signed config.back)
    else buffer
  let buffer :=
    if config.speed > 0 ∧ CaseEq (ascii "SPI") type then
      snprintf 512 (buffer ++ ascii ",speed=" ++ signed config.speed)
    else buffer
  snprintf 512 (buffer ++ ascii ",driver=" ++ config.drivername.getD [] ++
    (if config.hflip then ascii ",HFlip" else []) ++
    (if config.vflip then ascii ",VFlip" else []) ++
    (if config.rotate then ascii ",rotate" else []))

/-! ### The commands -/

/-- `int` -/
abbrev CInt := {n : ℤ // -2 ^ 31 ≤ n ∧ n < 2 ^ 31}

/-- `GPIO_IS_VALID_GPIO` and `GPIO_IS_VALID_OUTPUT_GPIO` -/
structure Gpios where
  valid : ℤ → Bool
  validOutput : ℤ → Bool
  range : ∀ n, valid n = true → 0 ≤ n ∧ n < 40

/-- `is_gpio`; `none` for an error. -/
def isGpio (g : Gpios) (gpio : Option CInt) (mandatory output : Bool) : Option ℤ :=
  match gpio with
  | none => if mandatory then none else some (-1)
  | some n => if (output ∧ ¬ g.validOutput n) ∨ ¬ g.valid n then none else some n

def isOutputGpio (g : Gpios) (gpio : Option CInt) (mandatory : Bool) : Option ℤ :=
  isGpio g gpio mandatory true

/-- What `arg_parse` finds for the command. -/
structure I2sArgs where
  modelName : List UInt8
  clock : CInt
  wordselect : CInt
  data : CInt
  muteGpio : Option CInt
  muteLevel : Bool
  dacSda : Option CInt
  dacScl : Option CInt
  dacI2c : Option CInt

/-- `do_i2s_cmd`: what it sets; `none` for an error. -/
def doI2sCmd (g : Gpios) (args : I2sArgs) : Option I2sConfig := do
  let bck ← isOutputGpio g (some args.clock) true
  let ws ← isOutputGpio g (some args.wordselect) true
  let dataOut ← isOutputGpio g (some args.data) true
  let muteGpio ← isOutputGpio g args.muteGpio false
  let given := args.dacSda.any fun n => decide (0 ≤ n.val)
  let sda ← (if given then isOutputGpio g args.dacSda false else some (-1))
  let scl ← (if given then isOutputGpio g args.dacScl false else some (-1))
  some
    { pin := ⟨bck, ws, dataOut⟩
      model := if args.modelName = [] then ascii "I2S" else args.modelName.take 31
      muteGpio := muteGpio
      muteLevel := if muteGpio > 0 then if args.muteLevel then 1 else 0 else -1
      i2cAddr := if args.dacSda.isNone then -1 else (args.dacI2c.map Subtype.val).getD (-1)
      sda := sda
      scl := scl }

/-- `do_spdif_cmd` -/
def doSpdifCmd (g : Gpios) (clock wordselect data : CInt) : Option I2sConfig := do
  let bck ← isOutputGpio g (some clock) true
  let ws ← isOutputGpio g (some wordselect) true
  let dataOut ← isOutputGpio g (some data) true
  some ⟨⟨bck, ws, dataOut⟩, [], -1, -1, -1, -1, -1⟩

structure RotaryArgs where
  a : CInt
  b : CInt
  sw : Option CInt
  volumeLock : Bool
  longpress : Bool
  knobonly : Bool
  timer : Option CInt

/-- `do_rotary_cmd` -/
def doRotaryCmd (g : Gpios) (args : RotaryArgs) : Option RotaryConfig := do
  let a ← isGpio g (some args.a) true false
  let b ← isGpio g (some args.b) true false
  let sw ← isGpio g args.sw false false
  if args.knobonly ∧ (args.volumeLock ∨ args.longpress) then none
  else if args.timer.any fun n => decide (n.val < 0) then none
  else
    some
      { a := a
        b := b
        sw := sw
        knobonly := args.knobonly
        volumeLock := args.volumeLock
        longpress := args.longpress
        timer := (args.timer.map Subtype.val).getD 0 }

structure DisplayArgs where
  type : Option (List UInt8)
  address : Option CInt
  speed : Option CInt
  cs : Option CInt
  reset : Option CInt
  width : CInt
  height : CInt
  driver : Option (List UInt8)
  depth : Option CInt
  back : Option CInt
  rotate : Bool
  hflip : Bool
  vflip : Bool

/-- `do_i2c_set_display`, with whether the buses have been configured. -/
def doI2cSetDisplay (g : Gpios) (bHasI2cConfig bHasSpiConfig : Bool) (args : DisplayArgs) :
    Option DisplayConfig := do
  let i2c := args.type.all fun type => decide (CaseEq (ascii "I2C") type)
  let csPin ← (if i2c then some (-1) else isOutputGpio g args.cs false)
  let rstPin ← isOutputGpio g args.reset false
  let back ← isOutputGpio g args.back false
  let drivername ← args.driver.bind displayConfGetDriverName
  if (i2c && bHasI2cConfig) || (!i2c && bHasSpiConfig) then
    some
      { width := args.width
        height := args.height
        address := if i2c then (args.address.map Subtype.val).getD 60 else 0
        rstPin := rstPin
        hflip := args.hflip
        vflip := args.vflip
        drivername := some drivername
        csPin := csPin
        speed := if i2c then 0 else (args.speed.map Subtype.val).getD 8000000
        back := back
        depth :=
          if CaseEq drivername (ascii "SSD1326") then (args.depth.map Subtype.val).getD 0 else 0
        type := some (if i2c then ascii "I2C" else ascii "SPI")
        rotate := args.rotate }
  else none

/-! ### What they are for -/

/-- A configuration, of a kind. -/
inductive Config
  | i2s (c : I2sConfig)
  | spdif (c : I2sConfig)
  | rotary (c : RotaryConfig)
  | display (c : DisplayConfig)

/-- A command sets it. -/
def Config.Accepted (g : Gpios) : Config → Prop
  | .i2s c => ∃ args, doI2sCmd g args = some c
  | .spdif c => ∃ clock wordselect data, doSpdifCmd g clock wordselect data = some c
  | .rotary c => ∃ args, doRotaryCmd g args = some c
  | .display c => ∃ i2c spi args, doI2cSetDisplay g i2c spi args = some c

/-- What is written is read as the same; an S/PDIF output has no model, and a depth that is not
given is zero for the command. -/
def Config.ReadBack (s : Statics) : Config → Prop
  | .i2s c => configI2sGetFromStr s.i2s (configI2sSet c) = c
  | .spdif c => { configI2sGetFromStr s.i2s (configSpdifSet c) with model := c.model } = c
  | .rotary c => configRotaryGet s.rotary (configRotarySet c) = c
  | .display c => ∃ r, configDisplayGet s.display (configDisplaySet c) = some r ∧
      { r with depth := c.depth } = c ∧ (r.depth = c.depth ∨ c.depth = 0 ∧ r.depth = -1)

/-- Whatever has been read before. -/
def Config.RoundTrips (c : Config) : Prop :=
  ∀ before s, Statics.after before = some s → c.ReadBack s

/-- The number that is read behind a name which the model has, up to `p`: the one behind the next
`=`, which is the pin of the clock if the model has no more. -/
def shown (p : List UInt8) (bck : ℤ) : ℤ :=
  if 61 ∈ p then atol (p.dropWhile (· ≠ 61)).tail else bck

/-- The same for a pin: behind the name comes something else than the `=`. -/
def shownPin (name p : List UInt8) (bck : ℤ) : ℤ :=
  if name <+: p then
    let rest := p.drop name.length
    if rest.head? = some 61 then -1
    else if 61 ∈ rest then ((scanInt (rest.dropWhile (· ≠ 61)).tail).map Prod.fst).getD (-1)
    else bck
  else -1

/-- A number is read back: it is written, or the model has its name and shows it. -/
def NumberFine (model name : List UInt8) (bck value : ℤ) (written : Prop) : Prop :=
  match strcasestr model name with
  | none => written
  | some p => shown p bck = value

/-- A pin is read back, which it is not from its own place. -/
def PinFine (model name : List UInt8) (bck value : ℤ) : Prop :=
  ∃ p, strcasestr model name = some p ∧ shownPin name p bck = value

/-- The mute pin and its level. -/
def MuteFine (model : List UInt8) (bck gpio level : ℤ) : Prop :=
  match strcasestr model (ascii "mute") with
  | none => 0 < gpio
  | some p =>
      (if 61 ∈ p then atol ((p.dropWhile (· ≠ 61)).tail.take 7) else bck) = gpio ∧
        if 58 ∈ p then atol (p.dropWhile (· ≠ 58)).tail = level else 0 < gpio

/-- The pins can only be read from the name of the model, and all options have to be there. -/
structure I2sFine (c : I2sConfig) : Prop where
  model : 44 ∉ c.model ∧ c.model.head? ≠ some 32
  bck : PinFine c.model (ascii "bck") c.pin.bck c.pin.bck
  ws : PinFine c.model (ascii "ws") c.pin.bck c.pin.ws
  dataOut : PinFine c.model (ascii "do") c.pin.bck c.pin.dataOut
  mute : MuteFine c.model c.pin.bck c.muteGpio c.muteLevel
  i2cAddr : NumberFine c.model (ascii "i2c") c.pin.bck c.i2cAddr (0 < c.i2cAddr)
  sda : NumberFine c.model (ascii "sda") c.pin.bck c.sda (0 ≤ c.sda)
  scl : NumberFine c.model (ascii "scl") c.pin.bck c.scl (0 ≤ c.scl)

/-- The options that are not written are not reset. -/
structure RotaryFine (c : RotaryConfig) : Prop where
  sw : 0 ≤ c.sw
  volumeLock : c.volumeLock = true
  longpress : c.longpress = true
  timer : c.timer = 0

def Config.Fine : Config → Prop
  | .i2s c => I2sFine c
  | .spdif _ => False
  | .rotary c => RotaryFine c
  | .display _ => False

/-! ### Searching in what is written -/

section Items

variable {key v k rest s : List UInt8} {is : List (List UInt8 × List UInt8)} {n : ℤ}

/-- Values with their names, as they are written behind a comma. -/
def items (is : List (List UInt8 × List UInt8)) : List UInt8 :=
  is.flatMap fun i => 44 :: (i.1 ++ 61 :: i.2)

/-- A name that is looked for: none of the separators, and a letter. -/
structure Key (key : List UInt8) : Prop where
  comma : tolower 44 ∉ key.map tolower
  equals : tolower 61 ∉ key.map tolower
  letter : ∃ d ∈ key.map tolower, 58 < d

/-- What may follow a value. -/
def Behind (r : List UInt8) : Prop := r = [] ∨ ∃ x, r = 44 :: x

theorem Key.ne_nil (h : Key key) : key ≠ [] := by
  rintro rfl
  obtain ⟨d, hd, -⟩ := h.letter
  cases hd

theorem Key.equals_not_mem (h : Key key) : 61 ∉ key := fun hmem =>
  h.equals (List.mem_map_of_mem hmem)

theorem strcasestr_comma (h : Key key) (s : List UInt8) :
    strcasestr (44 :: s) key = strcasestr s key := by
  have hcut := strcasestr_append h.ne_nil h.comma [] s
  rwa [List.nil_append, strcasestr, if_neg h.ne_nil, Option.map_none, Option.none_or] at hcut

theorem behind_items (is : List (List UInt8 × List UInt8)) (h : Behind rest) :
    Behind (items is ++ rest) := by
  rcases is with - | ⟨i, is⟩
  · exact h
  · exact .inr ⟨_, rfl⟩

theorem strcasestr_value (h : Key key) (hv : strcasestr v key = none) (hr : Behind rest) :
    strcasestr (v ++ rest) key = strcasestr rest key := by
  rcases hr with rfl | ⟨x, rfl⟩
  · rw [List.append_nil, hv, strcasestr, if_neg h.ne_nil]
  · rw [strcasestr_append h.ne_nil h.comma, hv, Option.map_none, Option.none_or,
      strcasestr_comma h]

/-- Names that do not have the text, with values that do not, are passed over. -/
theorem strcasestr_items (h : Key key) (hr : Behind rest)
    (his : ∀ i ∈ is, strcasestr i.1 key = none ∧ strcasestr i.2 key = none) :
    strcasestr (items is ++ rest) key = strcasestr rest key := by
  induction is with
  | nil => rfl
  | cons i is ih =>
      obtain ⟨hname, hvalue⟩ := his i List.mem_cons_self
      have hitems : items (i :: is) ++ rest
          = 44 :: (i.1 ++ 61 :: (i.2 ++ (items is ++ rest))) := by
        simp [items]
      rw [hitems, strcasestr_comma h, strcasestr_append h.ne_nil h.equals, hname, Option.map_none,
        Option.none_or, strcasestr_value h hvalue (behind_items is hr)]
      exact ih fun j hj => his j (List.mem_cons_of_mem _ hj)

theorem strcasestr_item (h : Key key) (r : List UInt8) :
    strcasestr (44 :: (key ++ 61 :: r)) key = some (key ++ 61 :: r) := by
  rw [strcasestr_comma h, strcasestr_self]

theorem dropWhile_key (h : Key key) (r : List UInt8) :
    (key ++ 61 :: r).dropWhile (· ≠ 61) = 61 :: r := by
  rw [List.dropWhile_append_of_pos, List.dropWhile_cons_of_neg (by simp)]
  intro c hc
  have hne : c ≠ 61 := fun heq => h.equals_not_mem (heq ▸ hc)
  simpa using hne

theorem atol_behind (hr : Behind rest) (v : List UInt8) : atol (v ++ rest) = atol v := by
  rcases hr with rfl | ⟨x, rfl⟩
  · rw [List.append_nil]
  · exact atol_append (by decide) (by decide) (by decide) (by decide) v x

/-- The number of a value that is written. -/
theorem parseParam_items (h : Key key) (hr : Behind rest) {old : ℤ}
    {a b : List (List UInt8 × List UInt8)} (his : is = a ++ (key, v) :: b)
    (ha : ∀ i ∈ a, strcasestr i.1 key = none ∧ strcasestr i.2 key = none) :
    parseParam (items is ++ rest) key 61 old = atol v := by
  have hitems : items is ++ rest = items a ++ (44 :: (key ++ 61 :: (v ++ (items b ++ rest)))) := by
    simp [his, items]
  rw [parseParam, hitems, strcasestr_items h (.inr ⟨_, rfl⟩) ha, strcasestr_item h]
  simp only [dropWhile_key h]
  exact atol_behind (behind_items b hr) v

theorem parseParam_none (h : strcasestr s key = none) (sep : UInt8) (old : ℤ) :
    parseParam s key sep old = old := by
  rw [parseParam, h]

/-- A number is no name. -/
theorem unsigned_numeral (n : ℤ) : ∀ c ∈ unsigned n, isdigit c = true := isdigit_decimal

theorem digit_le {c : UInt8} (h : isdigit c = true) : c ≤ 58 :=
  UInt8.le_trans (digit_range h).2 (by decide)

theorem atol_unsigned (h : 0 ≤ n) (h' : n < 2 ^ 31) : atol (unsigned n) = n := by
  have hmod : n % 2 ^ 32 = n := Int.emod_eq_of_lt h (by omega)
  rw [unsigned, hmod, atol_decimal (by omega)]
  omega

/-- An absent value is written as a large one. -/
theorem atol_unsigned_absent : atol (unsigned (-1)) ≠ -1 := by decide +kernel

theorem length_unsigned_le (n : ℤ) : (unsigned n).length ≤ 10 := by
  refine length_decimal_le (by decide) ?_
  have h₁ := Int.emod_nonneg n (b := 2 ^ 32) (by decide)
  have h₂ := Int.emod_lt_of_pos n (b := 2 ^ 32) (by decide)
  omega

end Items

/-! ### I2S -/

section I2s

variable {c : I2sConfig} {key m p x : List UInt8} {g : Gpios} {s : Statics}

/-- What a command sets. -/
structure Sane (c : I2sConfig) : Prop where
  model : c.model ≠ [] ∧ c.model.length ≤ 31
  bck : 0 ≤ c.pin.bck ∧ c.pin.bck < 40
  ws : 0 ≤ c.pin.ws ∧ c.pin.ws < 40
  dataOut : 0 ≤ c.pin.dataOut ∧ c.pin.dataOut < 40
  mute : c.muteGpio = -1 ∨ 0 ≤ c.muteGpio ∧ c.muteGpio < 40
  level : if 0 < c.muteGpio then 0 ≤ c.muteLevel ∧ c.muteLevel < 2 else c.muteLevel = -1
  sda : c.sda = -1 ∨ 0 ≤ c.sda ∧ c.sda < 40
  scl : c.scl = -1 ∨ 0 ≤ c.sda ∧ 0 ≤ c.scl ∧ c.scl < 40
  i2cAddr : c.i2cAddr < 2 ^ 31

theorem isGpio_range {gpio : Option CInt} {mandatory output : Bool} {n : ℤ}
    (h : isGpio g gpio mandatory output = some n) :
    n = -1 ∧ gpio = none ∧ mandatory = false ∨ 0 ≤ n ∧ n < 40 := by
  rcases gpio with - | k
  · rcases mandatory with - | -
    · exact .inl ⟨(Option.some.inj h).symm, rfl, rfl⟩
    · cases h
  · rw [isGpio] at h
    split at h
    case isTrue => cases h
    case isFalse hvalid =>
      obtain rfl := Option.some.inj h
      have hk : g.valid k = true := by
        by_contra hno
        exact hvalid (.inr hno)
      exact .inr (g.range k hk)

theorem sane_of_accepted (h : (Config.i2s c).Accepted g) : Sane c := by
  obtain ⟨args, h⟩ := h
  simp only [doI2sCmd, Option.bind_eq_bind, Option.bind_eq_some_iff, Option.some.injEq] at h
  obtain ⟨bck, hbck, ws, hws, dataOut, hdata, mute, hmute, sda, hsda, scl, hscl, rfl⟩ := h
  have hpin {gpio : CInt} {n : ℤ} (h : isOutputGpio g (some gpio) true = some n) :
      0 ≤ n ∧ n < 40 := (isGpio_range h).resolve_left fun h => by simp at h
  refine ⟨?_, hpin hbck, hpin hws, hpin hdata, (isGpio_range hmute).imp And.left id, ?_, ?_, ?_, ?_⟩
  · constructor
    · dsimp only
      split
      · decide
      · simpa using by assumption
    · dsimp only
      split
      · decide
      · exact List.length_take_le 31 args.modelName
  · dsimp only
    split
    · split <;> decide
    · rfl
  · dsimp only
    split at hsda
    · exact (isGpio_range hsda).imp And.left id
    · exact .inl (Option.some.inj hsda).symm
  · dsimp only
    split at hscl
    case isTrue hgiven =>
      rw [if_pos hgiven] at hsda
      rcases isGpio_range hscl with ⟨hneg, -⟩ | hscl
      · exact .inl hneg
      · rcases isGpio_range hsda with ⟨-, hnone, -⟩ | hsda
        · rw [hnone] at hgiven
          cases hgiven
        · exact .inr ⟨hsda.1, hscl⟩
    case isFalse => exact .inl (Option.some.inj hscl).symm
  · dsimp only
    split
    · decide
    · rcases args.dacI2c with - | n
      · decide
      · exact n.2.2

/-- The values that are written. -/
def pinValues (c : I2sConfig) : List (List UInt8 × List UInt8) :=
  [(ascii "bck", unsigned c.pin.bck), (ascii "ws", unsigned c.pin.ws),
    (ascii "do", unsigned c.pin.dataOut)]

def muteValues (c : I2sConfig) : List (List UInt8 × List UInt8) :=
  if c.muteGpio ≥ 0 then [(ascii "mute", unsigned c.muteGpio ++ 58 :: unsigned c.muteLevel)]
  else []

def busValues (c : I2sConfig) : List (List UInt8 × List UInt8) :=
  if c.sda ≥ 0 then [(ascii "sda", unsigned c.sda), (ascii "scl", unsigned c.scl)] else []

def addressValues (c : I2sConfig) : List (List UInt8 × List UInt8) :=
  if c.i2cAddr > 0 then [(ascii "i2c", unsigned c.i2cAddr)] else []

def values (c : I2sConfig) : List (List UInt8 × List UInt8) :=
  pinValues c ++ (muteValues c ++ (busValues c ++ addressValues c))

theorem items_append (a b : List (List UInt8 × List UInt8)) : items (a ++ b) = items a ++ items b :=
  List.flatMap_append

theorem snprintf_eq {bufferSize : ℕ} (h : x.length < bufferSize) : snprintf bufferSize x = x :=
  List.take_of_length_le (by omega)

/-- More values are put behind the text, or not. -/
theorem append_values {P : Prop} [Decidable P] {buffer whole : List UInt8}
    {is : List (List UInt8 × List UInt8)} (hwhole : whole = buffer ++ items is) {n k : ℕ}
    (hbuffer : buffer.length ≤ n) (hlen : (items is).length ≤ k) (hroom : n + k < 255) :
    (if P then snprintf 255 whole else buffer) = buffer ++ items (if P then is else []) ∧
      (buffer ++ items (if P then is else [])).length ≤ n + k := by
  split
  · rw [hwhole, snprintf_eq (by rw [List.length_append]; omega), List.length_append]
    exact ⟨rfl, by omega⟩
  · rw [items, List.flatMap_nil, List.append_nil]
    exact ⟨rfl, by omega⟩

theorem length_items_single (k v : List UInt8) :
    (items [(k, v)]).length = k.length + v.length + 2 := by
  simp only [items, List.flatMap_cons, List.flatMap_nil, List.append_nil, List.length_cons,
    List.length_append]
  omega

/-- The text has room in the buffer. -/
theorem configI2sSet_eq (h : c.model.length ≤ 31) :
    configI2sSet c = ascii "model" ++ 61 :: (c.model ++ items (values c)) := by
  have hu := length_unsigned_le
  have hbck := hu c.pin.bck
  have hws := hu c.pin.ws
  have hdo := hu c.pin.dataOut
  have hpins : ascii "model=" ++ c.model ++ ascii ",bck=" ++ unsigned c.pin.bck ++ ascii ",ws=" ++
      unsigned c.pin.ws ++ ascii ",do=" ++ unsigned c.pin.dataOut
      = ascii "model=" ++ c.model ++ items [(ascii "bck", unsigned c.pin.bck),
        (ascii "ws", unsigned c.pin.ws), (ascii "do", unsigned c.pin.dataOut)] := by
    simp [items, ascii]
  have hlen : (ascii "model=" ++ c.model ++ items [(ascii "bck", unsigned c.pin.bck),
      (ascii "ws", unsigned c.pin.ws), (ascii "do", unsigned c.pin.dataOut)]).length ≤ 81 := by
    have hmodel : (ascii "model=").length = 6 := by decide
    have hname : (ascii "bck").length = 3 ∧ (ascii "ws").length = 2 ∧ (ascii "do").length = 2 := by
      decide
    simp only [items, List.flatMap_cons, List.flatMap_nil, List.length_append, List.length_cons,
      List.length_nil, hmodel, hname]
    omega
  have hmuteText (b : List UInt8) :
      b ++ ascii ",mute=" ++ unsigned c.muteGpio ++ ascii ":" ++ unsigned c.muteLevel
        = b ++ items [(ascii "mute", unsigned c.muteGpio ++ 58 :: unsigned c.muteLevel)] := by
    simp [items, ascii]
  have hbusText (b : List UInt8) :
      b ++ ascii ",sda=" ++ unsigned c.sda ++ ascii ",scl=" ++ unsigned c.scl
        = b ++ items [(ascii "sda", unsigned c.sda), (ascii "scl", unsigned c.scl)] := by
    simp [items, ascii]
  have haddressText (b : List UInt8) : b ++ ascii ",i2c=" ++ unsigned c.i2cAddr
      = b ++ items [(ascii "i2c", unsigned c.i2cAddr)] := by
    simp [items, ascii]
  have hmute := append_values (P := c.muteGpio ≥ 0) (hmuteText _) hlen (k := 27) (by
      have hgpio := hu c.muteGpio
      have hlevel := hu c.muteLevel
      have hname : (ascii "mute").length = 4 := by decide
      rw [length_items_single, List.length_append, List.length_cons, hname]
      omega) (by decide)
  have hbus := append_values (P := c.sda ≥ 0) (hbusText _) hmute.2 (k := 30) (by
      have hsda := hu c.sda
      have hscl := hu c.scl
      have hname : (ascii "sda").length = 3 ∧ (ascii "scl").length = 3 := by decide
      simp only [items, List.flatMap_cons, List.flatMap_nil, List.length_append, List.length_cons,
        List.length_nil, hname]
      omega) (by decide)
  have haddress := append_values (P := c.i2cAddr > 0) (haddressText _) hbus.2 (k := 15) (by
      have haddr := hu c.i2cAddr
      have hname : (ascii "i2c").length = 3 := by decide
      rw [length_items_single, hname]
      omega) (by decide)
  have hmodel : ascii "model=" = ascii "model" ++ [61] := by decide
  rw [configI2sSet]
  simp only [hpins, snprintf_eq (Nat.lt_of_le_of_lt hlen (by decide : 81 < 255)), hmute.1, hbus.1,
    haddress.1]
  rw [values, items_append, items_append, items_append, hmodel, pinValues, muteValues, busValues,
    addressValues]
  simp only [List.append_assoc, List.cons_append, List.nil_append]

/-- The names of the values. -/
def names : List (List UInt8) :=
  [ascii "bck", ascii "ws", ascii "do", ascii "mute", ascii "sda", ascii "scl", ascii "i2c"]

theorem key_of_names (h : key ∈ names) : Key key := by
  have hall : ∀ k ∈ names, tolower 44 ∉ k.map tolower ∧ tolower 61 ∉ k.map tolower ∧
      ∃ d ∈ k.map tolower, 58 < d := by decide
  exact ⟨(hall key h).1, (hall key h).2.1, (hall key h).2.2⟩

/-- No name has another one. -/
theorem names_apart : ∀ k ∈ names, ∀ key ∈ names, k ≠ key → strcasestr k key = none := by
  decide

theorem names_model : ∀ key ∈ names, strcasestr (ascii "model") key = none := by
  decide

theorem mem_values {i : List UInt8 × List UInt8} (h : i ∈ values c) :
    i ∈ pinValues c ∨ i ∈ muteValues c ∨ i ∈ busValues c ∨ i ∈ addressValues c := by
  simpa only [values, List.mem_append] using h

/-- The names of the values, of each kind. -/
theorem values_named {i : List UInt8 × List UInt8} :
    (i ∈ pinValues c → i.1 ∈ [ascii "bck", ascii "ws", ascii "do"]) ∧
    (i ∈ muteValues c → i.1 ∈ [ascii "mute"] ∧ c.muteGpio ≥ 0) ∧
    (i ∈ busValues c → i.1 ∈ [ascii "sda", ascii "scl"] ∧ c.sda ≥ 0) ∧
    (i ∈ addressValues c → i.1 ∈ [ascii "i2c"] ∧ c.i2cAddr > 0) := by
  refine ⟨fun h => ?_, fun h => ?_, fun h => ?_, fun h => ?_⟩
  · simp only [pinValues, List.mem_cons, List.not_mem_nil, or_false] at h
    rcases h with rfl | rfl | rfl <;> simp
  · rw [muteValues] at h
    split at h
    · rw [List.mem_singleton.mp h]
      exact ⟨by simp, by assumption⟩
    · cases h
  · rw [busValues] at h
    split at h
    · simp only [List.mem_cons, List.not_mem_nil, or_false] at h
      rcases h with rfl | rfl <;> exact ⟨by simp, by assumption⟩
    · cases h
  · rw [addressValues] at h
    split at h
    · rw [List.mem_singleton.mp h]
      exact ⟨by simp, by assumption⟩
    · cases h

theorem values_numeral : ∀ i ∈ values c, i.1 ∈ names ∧ ∀ d ∈ i.2, d ≤ 58 := by
  have hnum (n : ℤ) : ∀ d ∈ unsigned n, d ≤ 58 := fun d hd => digit_le (unsigned_numeral n d hd)
  have hmute : ∀ d ∈ unsigned c.muteGpio ++ 58 :: unsigned c.muteLevel, d ≤ 58 := by
    intro d hd
    rcases List.mem_append.mp hd with hd | hd
    · exact hnum _ d hd
    · rcases List.mem_cons.mp hd with rfl | hd
      · exact UInt8.le_refl _
      · exact hnum _ d hd
  intro i hi
  rcases mem_values hi with hi | hi | hi | hi
  · simp only [pinValues, List.mem_cons, List.not_mem_nil, or_false] at hi
    rcases hi with rfl | rfl | rfl <;> exact ⟨by simp [names], hnum _⟩
  · rw [muteValues] at hi
    split at hi
    · rw [List.mem_singleton.mp hi]
      exact ⟨by simp [names], hmute⟩
    · cases hi
  · rw [busValues] at hi
    split at hi
    · simp only [List.mem_cons, List.not_mem_nil, or_false] at hi
      rcases hi with rfl | rfl <;> exact ⟨by simp [names], hnum _⟩
    · cases hi
  · rw [addressValues] at hi
    split at hi
    · rw [List.mem_singleton.mp hi]
      exact ⟨by simp [names], hnum _⟩
    · cases hi

theorem values_other (hkey : key ∈ names) {i : List UInt8 × List UInt8} (hi : i ∈ values c)
    (hne : i.1 ≠ key) : strcasestr i.1 key = none ∧ strcasestr i.2 key = none :=
  ⟨names_apart _ (values_numeral i hi).1 key hkey hne,
    strcasestr_none (values_numeral i hi).2 (key_of_names hkey).letter⟩

/-- A value that is written. -/
theorem find_value {a b : List (List UInt8 × List UInt8)} {v : List UInt8} (hkey : key ∈ names)
    (h : values c = a ++ (key, v) :: b) (ha : ∀ i ∈ a, i.1 ≠ key) :
    strcasestr (items (values c)) key = some (key ++ 61 :: (v ++ items b)) := by
  have hall : ∀ i ∈ a, strcasestr i.1 key = none ∧ strcasestr i.2 key = none := fun i hi =>
    values_other hkey (h ▸ List.mem_append_left _ hi) (ha i hi)
  have hitems : items (values c) = items a ++ (44 :: (key ++ 61 :: (v ++ items b))) := by
    simp [h, items]
  rw [hitems, strcasestr_items (key_of_names hkey) (.inr ⟨_, rfl⟩) hall,
    strcasestr_item (key_of_names hkey)]

theorem find_no_value (hkey : key ∈ names) (h : ∀ i ∈ values c, i.1 ≠ key) :
    strcasestr (items (values c)) key = none := by
  have hfind := strcasestr_items (key_of_names hkey) (.inl rfl)
    fun i hi => values_other hkey hi (h i hi)
  rw [List.append_nil] at hfind
  rw [hfind, strcasestr, if_neg (key_of_names hkey).ne_nil]

theorem parse_value {a b : List (List UInt8 × List UInt8)} {v : List UInt8} (hkey : key ∈ names)
    (h : values c = a ++ (key, v) :: b) (ha : ∀ i ∈ a, i.1 ≠ key) (old : ℤ) :
    parseParam (items (values c)) key 61 old = atol v := by
  have hbehind : Behind (items b) := by
    have hb := behind_items b (.inl rfl)
    rwa [List.append_nil] at hb
  rw [parseParam, find_value hkey h ha]
  simp only [dropWhile_key (key_of_names hkey)]
  exact atol_behind hbehind v

/-- The address is written last. -/
theorem parse_i2c (old : ℤ) : parseParam (items (values c)) (ascii "i2c") 61 old =
    if 0 < c.i2cAddr then atol (unsigned c.i2cAddr) else old := by
  have hkey : ascii "i2c" ∈ names := by decide
  split
  case isTrue haddr =>
    refine parse_value (a := pinValues c ++ (muteValues c ++ busValues c)) (b := []) hkey ?_ ?_ old
    · simp [values, addressValues, haddr]
    · intro i hi heq
      simp only [List.mem_append] at hi
      rcases hi with hi | hi | hi
      · exact absurd (values_named.1 hi) (by rw [heq]; decide)
      · exact absurd (values_named.2.1 hi).1 (by rw [heq]; decide)
      · exact absurd (values_named.2.2.1 hi).1 (by rw [heq]; decide)
  case isFalse hno =>
    refine parseParam_none (find_no_value hkey fun i hi heq => ?_) 61 old
    rcases mem_values hi with hi | hi | hi | hi
    · exact absurd (values_named.1 hi) (by rw [heq]; decide)
    · exact absurd (values_named.2.1 hi).1 (by rw [heq]; decide)
    · exact absurd (values_named.2.2.1 hi).1 (by rw [heq]; decide)
    · exact hno (values_named.2.2.2 hi).2

/-- The bus is written if its data pin is given. -/
theorem parse_bus (old : ℤ) :
    parseParam (items (values c)) (ascii "sda") 61 old =
      (if 0 ≤ c.sda then atol (unsigned c.sda) else old) ∧
    parseParam (items (values c)) (ascii "scl") 61 old =
      (if 0 ≤ c.sda then atol (unsigned c.scl) else old) := by
  have hsda : ascii "sda" ∈ names := by decide
  have hscl : ascii "scl" ∈ names := by decide
  have hfront {i : List UInt8 × List UInt8} (hi : i ∈ pinValues c ++ muteValues c) :
      i.1 ≠ ascii "sda" ∧ i.1 ≠ ascii "scl" := by
    rcases List.mem_append.mp hi with hi | hi
    · have hin := values_named.1 hi
      exact ⟨fun heq => absurd hin (by rw [heq]; decide),
        fun heq => absurd hin (by rw [heq]; decide)⟩
    · have hin := (values_named.2.1 hi).1
      exact ⟨fun heq => absurd hin (by rw [heq]; decide),
        fun heq => absurd hin (by rw [heq]; decide)⟩
  have hnone (hno : ¬ 0 ≤ c.sda) {i : List UInt8 × List UInt8} (hi : i ∈ values c) :
      i.1 ≠ ascii "sda" ∧ i.1 ≠ ascii "scl" := by
    rcases mem_values hi with hi | hi | hi | hi
    · exact hfront (List.mem_append_left _ hi)
    · exact hfront (List.mem_append_right _ hi)
    · exact absurd (values_named.2.2.1 hi).2 hno
    · have hin := (values_named.2.2.2 hi).1
      exact ⟨fun heq => absurd hin (by rw [heq]; decide),
        fun heq => absurd hin (by rw [heq]; decide)⟩
  constructor
  · split
    case isTrue hbus =>
      refine parse_value (a := pinValues c ++ muteValues c)
        (b := (ascii "scl", unsigned c.scl) :: addressValues c) hsda ?_
        (fun i hi => (hfront hi).1) old
      simp [values, busValues, hbus]
    case isFalse hno =>
      exact parseParam_none (find_no_value hsda fun i hi => (hnone hno hi).1) 61 old
  · split
    case isTrue hbus =>
      refine parse_value (a := pinValues c ++ muteValues c ++ [(ascii "sda", unsigned c.sda)])
        (b := addressValues c) hscl ?_ ?_ old
      · simp [values, busValues, hbus]
      · intro i hi
        rcases List.mem_append.mp hi with hi | hi
        · exact (hfront hi).2
        · rw [List.mem_singleton.mp hi]
          exact (by decide : ascii "sda" ≠ ascii "scl")
    case isFalse hno =>
      exact parseParam_none (find_no_value hscl fun i hi => (hnone hno hi).2) 61 old

/-- The mute pin is written with its level. -/
theorem find_mute : strcasestr (items (values c)) (ascii "mute") =
    if 0 ≤ c.muteGpio then
      some (ascii "mute" ++ 61 :: (unsigned c.muteGpio ++ 58 :: (unsigned c.muteLevel ++
        items (busValues c ++ addressValues c))))
    else none := by
  have hkey : ascii "mute" ∈ names := by decide
  have hpins {i : List UInt8 × List UInt8} (hi : i ∈ pinValues c) : i.1 ≠ ascii "mute" :=
    fun heq => absurd (values_named.1 hi) (by rw [heq]; decide)
  split
  case isTrue hmute =>
    rw [find_value (a := pinValues c) (b := busValues c ++ addressValues c)
      (v := unsigned c.muteGpio ++ 58 :: unsigned c.muteLevel) hkey
      (by simp [values, muteValues, hmute]) fun i hi => hpins hi]
    simp only [List.append_assoc, List.cons_append]
  case isFalse hno =>
    refine find_no_value hkey fun i hi heq => ?_
    rcases mem_values hi with hi | hi | hi | hi
    · exact hpins hi heq
    · exact hno (values_named.2.1 hi).2
    · exact absurd (values_named.2.2.1 hi).1 (by rw [heq]; decide)
    · exact absurd (values_named.2.2.2 hi).1 (by rw [heq]; decide)

/-- Behind the name of a pin comes the `=`. -/
theorem scan_value {a b : List (List UInt8 × List UInt8)} {v : List UInt8} (hkey : key ∈ names)
    (h : values c = a ++ (key, v) :: b) (ha : ∀ i ∈ a, i.1 ≠ key) :
    scanPin (items (values c)) key = -1 := by
  rw [scanPin, find_value hkey h ha]
  simp only [List.prefix_append, if_true, List.drop_left, List.head?_cons]

theorem scan_pins : scanPin (items (values c)) (ascii "bck") = -1 ∧
    scanPin (items (values c)) (ascii "ws") = -1 ∧
    scanPin (items (values c)) (ascii "do") = -1 := by
  have hvalues : values c = (ascii "bck", unsigned c.pin.bck) :: (ascii "ws", unsigned c.pin.ws) ::
      (ascii "do", unsigned c.pin.dataOut) ::
        (muteValues c ++ (busValues c ++ addressValues c)) := rfl
  refine ⟨scan_value (a := []) (by decide) hvalues (by simp),
    scan_value (a := [_]) (by decide) hvalues ?_, scan_value (a := [_, _]) (by decide) hvalues ?_⟩
  · intro i hi
    rw [List.mem_singleton.mp hi]
    exact (by decide : ascii "bck" ≠ ascii "ws")
  · intro i hi
    simp only [List.mem_cons, List.not_mem_nil, or_false] at hi
    rcases hi with rfl | rfl
    · exact (by decide : ascii "bck" ≠ ascii "do")
    · exact (by decide : ascii "ws" ≠ ascii "do")

/-- The values that follow begin with the pin of the clock. -/
theorem items_values : ∃ r, Behind r ∧
    items (values c) = 44 :: (ascii "bck" ++ 61 :: (unsigned c.pin.bck ++ r)) := by
  refine ⟨items (values c).tail, ?_, rfl⟩
  have hbehind := behind_items (values c).tail (.inl rfl)
  rwa [List.append_nil] at hbehind

/-- A name is looked for in the name of the model first. -/
theorem find_model (hkey : key ∈ names) :
    strcasestr (ascii "model" ++ 61 :: (m ++ items (values c))) key =
      ((strcasestr m key).map (· ++ items (values c))).or (strcasestr (items (values c)) key) := by
  have hk := key_of_names hkey
  obtain ⟨r, -, hitems⟩ := items_values (c := c)
  rw [strcasestr_append hk.ne_nil hk.equals, names_model key hkey, Option.map_none, Option.none_or,
    hitems, strcasestr_append hk.ne_nil hk.comma, strcasestr_comma hk]

theorem dropWhile_isEmpty {d : UInt8} (p : List UInt8) :
    (p.dropWhile (· ≠ d)).isEmpty = true ↔ d ∉ p := by
  rw [List.isEmpty_iff, List.dropWhile_eq_nil_iff]
  constructor
  · exact fun h hd => by simpa using h d hd
  · intro h e he
    have hne : e ≠ d := fun heq => h (heq ▸ he)
    simpa using hne

/-- The next `=`, in the name of the model or behind it. -/
theorem dropWhile_model (p : List UInt8) :
    (61 ∈ p ∧ (p ++ items (values c)).dropWhile (· ≠ 61)
      = 61 :: ((p.dropWhile (· ≠ 61)).tail ++ items (values c))) ∨
    (61 ∉ p ∧ ∃ r, Behind r ∧
      (p ++ items (values c)).dropWhile (· ≠ 61) = 61 :: (unsigned c.pin.bck ++ r)) := by
  rw [List.dropWhile_append]
  split
  case isTrue h =>
    obtain ⟨r, hr, hitems⟩ := items_values (c := c)
    refine .inr ⟨(dropWhile_isEmpty p).mp h, r, hr, ?_⟩
    rw [hitems, List.dropWhile_cons_of_pos (by decide), dropWhile_key (key_of_names (by decide))]
  case isFalse h =>
    refine .inl ⟨by_contra fun hno => h ((dropWhile_isEmpty p).mpr hno), ?_⟩
    rcases hp : p.dropWhile (· ≠ 61) with - | ⟨d, t⟩
    · rw [hp] at h
      exact absurd rfl h
    · have hhead := List.head?_dropWhile_not (· ≠ 61) p
      rw [hp] at hhead
      have hd : d = 61 := by simpa using hhead
      rw [hp, hd, List.cons_append, List.tail_cons]

theorem behind_values : Behind (items (values c)) := by
  obtain ⟨r, -, hitems⟩ := items_values (c := c)
  exact .inr ⟨_, hitems⟩

/-- What is read for a name that the model has. -/
theorem parse_shown (hsane : Sane c) (hkey : key ∈ names) (h : strcasestr m key = some p)
    (old : ℤ) : parseParam (ascii "model" ++ 61 :: (m ++ items (values c))) key 61 old
      = shown p c.pin.bck := by
  have hfind := find_model (m := m) (c := c) hkey
  rw [h, Option.map_some, Option.some_or] at hfind
  rw [parseParam, hfind, shown]
  rcases dropWhile_model (c := c) p with ⟨hin, hdrop⟩ | ⟨hno, r, hr, hdrop⟩
  · rw [if_pos hin]
    simp only [hdrop]
    exact atol_behind behind_values _
  · rw [if_neg hno]
    simp only [hdrop]
    rw [atol_behind hr, atol_unsigned hsane.bck.1 (by have := hsane.bck.2; omega)]

theorem parse_own (hkey : key ∈ names) (h : strcasestr m key = none) (old : ℤ) :
    parseParam (ascii "model" ++ 61 :: (m ++ items (values c))) key 61 old
      = parseParam (items (values c)) key 61 old := by
  have hfind := find_model (m := m) (c := c) hkey
  rw [h, Option.map_none, Option.none_or] at hfind
  rw [parseParam, hfind, parseParam]

/-- A number is the same whatever was read before, if and only if it is written or shown. -/
theorem number_iff (hsane : Sane c) (hkey : key ∈ names) {v : ℤ} {written : Prop} {P : ℤ → Prop}
    (hinit : P (-1)) (hother : P 4)
    (hwritten : written → ∀ old, parseParam (items (values c)) key 61 old = v)
    (hlost : ¬ written → ∃ old, (old = -1 ∨ old = 4) ∧
      parseParam (items (values c)) key 61 old ≠ v) :
    (∀ old, P old →
      parseParam (ascii "model" ++ 61 :: (m ++ items (values c))) key 61 old = v) ↔
      NumberFine m key c.pin.bck v written := by
  rw [NumberFine]
  rcases hm : strcasestr m key with - | p
  · simp only [parse_own hkey hm]
    constructor
    · intro h
      by_contra hno
      obtain ⟨old, rfl | rfl, hne⟩ := hlost hno
      · exact hne (h _ hinit)
      · exact hne (h _ hother)
    · exact fun h old _ => hwritten h old
  · simp only [parse_shown hsane hkey hm]
    exact ⟨fun h => h (-1) hinit, fun h _ _ => h⟩

/-! A pin. -/

theorem scanInt_fst (s : List UInt8) : (scanInt s).map Prod.fst =
    let t := s.dropWhile isspace
    let u := if t.head? = some 45 ∨ t.head? = some 43 then t.tail else t
    if (u.head?).any isdigit then some (atol t) else none :=
  apply_ite (Option.map Prod.fst) _ _ _

theorem scanInt_append (s x : List UInt8) :
    (scanInt (s ++ 44 :: x)).map Prod.fst = (scanInt s).map Prod.fst := by
  have hdigit : isdigit 44 = false := by decide
  have hatol (t : List UInt8) : atol (t ++ 44 :: x) = atol t :=
    atol_append hdigit (by decide) (by decide) (by decide) t x
  have hspace : (s ++ 44 :: x).dropWhile isspace = s.dropWhile isspace ++ 44 :: x :=
    dropWhile_append_stop (by decide) s x
  rw [scanInt_fst, scanInt_fst, hspace]
  simp only [hatol]
  rcases s.dropWhile isspace with - | ⟨d, t⟩
  · simp [hdigit]
  · simp only [List.cons_append, List.head?_cons, Option.some.injEq, List.tail_cons]
    by_cases hsign : d = 45 ∨ d = 43
    · simp only [if_pos hsign]
      rcases t with - | ⟨e, t⟩
      · simp [hdigit]
      · rfl
    · simp only [if_neg hsign, List.head?_cons]

theorem scanInt_behind {r : List UInt8} (hr : Behind r) (s : List UInt8) :
    (scanInt (s ++ r)).map Prod.fst = (scanInt s).map Prod.fst := by
  rcases hr with rfl | ⟨x, rfl⟩
  · rw [List.append_nil]
  · exact scanInt_append s x

theorem scanInt_unsigned {n : ℤ} (h : 0 ≤ n) (h' : n < 2 ^ 31) :
    (scanInt (unsigned n)).map Prod.fst = some n := by
  have hmod : n % 2 ^ 32 = n := Int.emod_eq_of_lt h (by omega)
  have hscan := GpioAssignment.scanInt_digits (r := []) (decimal_ne_nil n.toNat) isdigit_decimal
    (by simp)
  rw [List.append_nil, digits_decimal] at hscan
  rw [unsigned, hmod, hscan, Option.map_some, Option.some.injEq]
  omega

/-- A pin that the model shows. -/
theorem scan_shown (hsane : Sane c) (hkey : key ∈ names) (h : strcasestr m key = some p) :
    scanPin (ascii "model" ++ 61 :: (m ++ items (values c))) key = shownPin key p c.pin.bck := by
  have hfind := find_model (m := m) (c := c) hkey
  rw [h, Option.map_some, Option.some_or] at hfind
  have hlen : key.length ≤ p.length := by
    have hle := (strcasestr_found h).1.length_le
    rwa [List.length_map, List.length_map] at hle
  have hstart : key <+: p ++ items (values c) ↔ key <+: p :=
    ⟨fun hpre => List.prefix_of_prefix_length_le hpre (List.prefix_append _ _) hlen,
      fun hpre => hpre.trans (List.prefix_append _ _)⟩
  rw [scanPin, hfind, shownPin]
  simp only [hstart]
  split
  case isFalse => rfl
  case isTrue =>
    rw [List.drop_append_of_le_length hlen]
    have hhead : (p.drop key.length ++ items (values c)).head? = some 61 ↔
        (p.drop key.length).head? = some 61 := by
      rcases p.drop key.length with - | ⟨d, t⟩
      · obtain ⟨r, -, hitems⟩ := items_values (c := c)
        rw [hitems]
        simp
      · rfl
    simp only [hhead]
    split
    case isTrue => rfl
    case isFalse =>
      rcases dropWhile_model (c := c) (p.drop key.length) with ⟨hin, hdrop⟩ | ⟨hno, r, hr, hdrop⟩
      · rw [if_pos hin]
        simp only [hdrop]
        rw [scanInt_behind behind_values]
      · rw [if_neg hno]
        simp only [hdrop]
        rw [scanInt_behind hr, scanInt_unsigned hsane.bck.1 (by have := hsane.bck.2; omega)]
        rfl

theorem pin_iff (hsane : Sane c) (hkey : key ∈ names) {v : ℤ} (hv : 0 ≤ v)
    (hown : scanPin (items (values c)) key = -1) :
    scanPin (ascii "model" ++ 61 :: (m ++ items (values c))) key = v ↔
      PinFine m key c.pin.bck v := by
  rw [PinFine]
  rcases hm : strcasestr m key with - | p
  · have hfind := find_model (m := m) (c := c) hkey
    rw [hm, Option.map_none, Option.none_or] at hfind
    have hscan : scanPin (ascii "model" ++ 61 :: (m ++ items (values c))) key = -1 := by
      rw [← hown, scanPin, hfind, scanPin]
    rw [hscan]
    refine iff_of_false (by omega) ?_
    rintro ⟨p, hp, -⟩
    cases hp
  · rw [scan_shown hsane hkey hm]
    simp

/-! The model. -/

theorem model_iff (hsane : Sane c) :
    parseParamStr (ascii "model" ++ 61 :: (c.model ++ items (values c))) (ascii "model") 61
        (ascii "i2s") 31 = c.model ↔
      44 ∉ c.model ∧ c.model.head? ≠ some 32 := by
  obtain ⟨hne, hlen⟩ := hsane.model
  obtain ⟨r, -, hitems⟩ := items_values (c := c)
  have hstart (x : List UInt8) : strstr (ascii "model" ++ x) (ascii "model")
      = some (ascii "model" ++ x) := if_pos (List.prefix_append (ascii "model") x)
  have hdrop (x : List UInt8) : (ascii "model" ++ 61 :: x).dropWhile (· ≠ 61) = 61 :: x := by
    rw [List.dropWhile_append_of_pos (List.all_eq_true.1 (by decide)), List.dropWhile_cons_of_neg (by simp)]
  rw [parseParamStr, hstart]
  simp only [hdrop]
  constructor
  · intro h
    split at h
    case isTrue => rw [← h]; decide
    case isFalse hfound =>
      constructor
      · intro hcomma
        rw [← h] at hcomma
        simpa using List.mem_takeWhile_imp (List.mem_of_mem_take hcomma)
      · intro hblank
        have hhead := List.head?_dropWhile_not (· = 32) (c.model ++ items (values c))
        rcases hrest : (c.model ++ items (values c)).dropWhile (· = 32) with - | ⟨d, t⟩
        · rw [hrest] at hfound
          exact hfound rfl
        · rw [hrest] at hhead h
          have hd : d ≠ 32 := by simpa using hhead
          rw [← h, List.takeWhile_cons] at hblank
          split at hblank
          · rw [List.take_succ_cons, List.head?_cons, Option.some.injEq] at hblank
            exact hd hblank
          · simp at hblank
  · rintro ⟨hcomma, hblank⟩
    obtain ⟨d, t, hmodel⟩ := List.exists_cons_of_ne_nil hne
    have hd : d ≠ 32 := by
      rintro rfl
      exact hblank (by rw [hmodel, List.head?_cons])
    have hskip : (c.model ++ items (values c)).dropWhile (· = 32)
        = c.model ++ items (values c) := by
      rw [hmodel, List.cons_append, List.dropWhile_cons_of_neg (by simpa using hd)]
    have htake : (c.model ++ items (values c)).takeWhile (· ≠ 44) = c.model := by
      rw [hitems, takeWhile_append_stop (by decide), List.takeWhile_eq_self_iff]
      intro e he
      have hcut : e ≠ 44 := fun heq => hcomma (heq ▸ he)
      simpa using hcut
    rw [hskip, htake, List.take_of_length_le hlen, if_neg hne]

/-! The mute pin. -/

/-- The pin and the level that are read, after `old` ones. -/
def mute (config : List UInt8) (old : ℤ × ℤ) : ℤ × ℤ :=
  match strcasestr config (ascii "mute") with
  | none => old
  | some p => (atol (scanMute p), parseParam p (ascii "mute") 58 old.2)

theorem colon_not_mem_unsigned (n : ℤ) : 58 ∉ unsigned n := fun h =>
  absurd (unsigned_numeral n 58 h) (by decide)

theorem takeWhile_unsigned (n : ℤ) {f : UInt8 → Bool} (hf : ∀ d, isdigit d = true → f d = true)
    (x : List UInt8) : (unsigned n ++ x).takeWhile f = unsigned n ++ x.takeWhile f :=
  List.takeWhile_append_of_pos fun d hd => hf d (unsigned_numeral n d hd)

theorem dropWhile_unsigned (n : ℤ) {f : UInt8 → Bool} (hf : ∀ d, isdigit d = true → f d = true)
    (x : List UInt8) : (unsigned n ++ x).dropWhile f = x.dropWhile f :=
  List.dropWhile_append_of_pos fun d hd => hf d (unsigned_numeral n d hd)

/-- The number of a GPIO is short. -/
theorem atol_take_unsigned {n : ℤ} (h : 0 ≤ n) (h' : n < 40) (x : List UInt8) :
    atol ((unsigned n ++ 58 :: x).take 7) = n ∧ atol ((unsigned n).take 7) = n := by
  have hmod : n % 2 ^ 32 = n := Int.emod_eq_of_lt h (by omega)
  have hlen : (unsigned n).length ≤ 2 := by
    rw [unsigned, hmod]
    exact length_decimal_le (by decide) (by omega)
  have hnum := atol_unsigned h (by omega)
  constructor
  · rw [List.take_append, List.take_of_length_le (by omega)]
    obtain ⟨k, hk⟩ : ∃ k, 7 - (unsigned n).length = k + 1 := ⟨6 - (unsigned n).length, by omega⟩
    rw [hk, List.take_succ_cons, atol_append (by decide) (by decide) (by decide) (by decide), hnum]
  · rw [List.take_of_length_le (by omega), hnum]

theorem not_stop {d e : UInt8} (hd : isdigit d = false) (he : isdigit e = true) :
    decide (e ≠ d) = true := decide_eq_true (digit_ne he hd)

/-- The item of the mute pin. -/
theorem mute_item (hsane : Sane c) (hgpio : 0 ≤ c.muteGpio) (old : ℤ × ℤ) :
    mute (items (values c)) old = (c.muteGpio, atol (unsigned c.muteLevel)) := by
  have hrange := (hsane.mute.resolve_left (by omega)).2
  have hbehind : Behind (items (busValues c ++ addressValues c)) := by
    have hb := behind_items (busValues c ++ addressValues c) (.inl rfl)
    rwa [List.append_nil] at hb
  have hname : ∀ d ∈ ascii "mute", decide (d ≠ 58) = true :=
    List.all_eq_true.1 (by decide)
  rw [mute, find_mute, if_pos hgpio]
  simp only
  congr 1
  · have hhead (x : List UInt8) : (ascii "mute" ++ x).head? = some 109 := rfl
    rw [scanMute, hhead, if_neg (by decide)]
    simp only [dropWhile_key (key_of_names (by decide : ascii "mute" ∈ names))]
    rw [takeWhile_unsigned _ fun d => not_stop (by decide), List.takeWhile_cons_of_pos (by decide)]
    exact (atol_take_unsigned hgpio hrange _).1
  · rw [parseParam, strcasestr_self]
    simp only
    rw [List.dropWhile_append_of_pos hname, List.dropWhile_cons_of_pos (by decide),
      dropWhile_unsigned _ fun d => not_stop (by decide), List.dropWhile_cons_of_neg (by decide)]
    exact atol_behind hbehind _

/-- There is no colon but in the item of the mute pin. -/
theorem dropWhile_colon {is : List (List UInt8 × List UInt8)}
    (his : ∀ i ∈ is, 58 ∉ i.1 ∧ 58 ∉ i.2) (x : List UInt8) :
    (items is ++ x).dropWhile (· ≠ 58) = x.dropWhile (· ≠ 58) := by
  rw [List.dropWhile_append_of_pos]
  intro d hd
  obtain ⟨i, hi, hmem⟩ := List.mem_flatMap.mp hd
  have hne : d ≠ 58 := by
    rintro rfl
    simp only [List.mem_cons, List.mem_append] at hmem
    rcases hmem with hmem | hmem | hmem | hmem
    · exact absurd hmem (by decide)
    · exact (his i hi).1 hmem
    · exact absurd hmem (by decide)
    · exact (his i hi).2 hmem
  simpa using hne

theorem colon_values : (items (values c)).dropWhile (· ≠ 58) =
    if 0 ≤ c.muteGpio then
      58 :: (unsigned c.muteLevel ++ items (busValues c ++ addressValues c))
    else [] := by
  have hnames : ∀ k ∈ names, 58 ∉ k := by decide
  have hpins : ∀ i ∈ pinValues c, 58 ∉ i.1 ∧ 58 ∉ i.2 := by
    intro i hi
    simp only [pinValues, List.mem_cons, List.not_mem_nil, or_false] at hi
    rcases hi with rfl | rfl | rfl <;>
      exact ⟨hnames _ (by simp [names]), colon_not_mem_unsigned _⟩
  have hrest : ∀ i ∈ busValues c ++ addressValues c, 58 ∉ i.1 ∧ 58 ∉ i.2 := by
    intro i hi
    rcases List.mem_append.mp hi with hi | hi
    · rw [busValues] at hi
      split at hi
      · simp only [List.mem_cons, List.not_mem_nil, or_false] at hi
        rcases hi with rfl | rfl <;>
          exact ⟨hnames _ (by simp [names]), colon_not_mem_unsigned _⟩
      · cases hi
    · rw [addressValues] at hi
      split at hi
      · rw [List.mem_singleton.mp hi]
        exact ⟨hnames _ (by simp [names]), colon_not_mem_unsigned _⟩
      · cases hi
  rw [values, items_append, dropWhile_colon hpins, items_append]
  split
  case isTrue hgpio =>
    have hmute : items (muteValues c) ++ items (busValues c ++ addressValues c)
        = (44 :: ascii "mute" ++ [61]) ++ (unsigned c.muteGpio ++ 58 :: (unsigned c.muteLevel ++
          items (busValues c ++ addressValues c))) := by
      simp [muteValues, hgpio, items]
    have hname : ∀ d ∈ 44 :: ascii "mute" ++ [61], decide (d ≠ 58) = true :=
      List.all_eq_true.1 (by decide)
    rw [hmute, List.dropWhile_append_of_pos hname,
      dropWhile_unsigned _ fun d => not_stop (by decide), List.dropWhile_cons_of_neg (by decide)]
  case isFalse hno =>
    have hdrop := dropWhile_colon hrest []
    rw [List.append_nil, List.dropWhile_nil] at hdrop
    rw [muteValues, if_neg hno]
    exact hdrop

/-- A mute pin that the model shows. -/
theorem mute_shown (hsane : Sane c) (hcomma : 44 ∉ m)
    (h : strcasestr m (ascii "mute") = some p) (old : ℤ × ℤ) :
    mute (ascii "model" ++ 61 :: (m ++ items (values c))) old =
      (if 61 ∈ p then atol ((p.dropWhile (· ≠ 61)).tail.take 7) else c.pin.bck,
        if 58 ∈ p then atol (p.dropWhile (· ≠ 58)).tail
        else if 0 ≤ c.muteGpio then atol (unsigned c.muteLevel) else old.2) := by
  have hfind := find_model (m := m) (c := c) (by decide : ascii "mute" ∈ names)
  rw [h, Option.map_some, Option.some_or] at hfind
  obtain ⟨hpre, hsuffix⟩ := strcasestr_found h
  have hself : strcasestr (p ++ items (values c)) (ascii "mute")
      = some (p ++ items (values c)) := by
    refine strcasestr_prefixed ?_
    rw [List.map_append]
    exact hpre.trans (List.prefix_append _ _)
  have hlower : (ascii "mute").map tolower = [109, 117, 116, 101] := by decide
  obtain ⟨d, t, rfl⟩ : ∃ d t, p = d :: t := by
    rcases p with - | ⟨d, t⟩
    · simp [hlower] at hpre
    · exact ⟨d, t, rfl⟩
  have hd : d ≠ 61 := by
    rintro rfl
    rw [hlower, List.map_cons, List.cons_prefix_cons] at hpre
    exact absurd hpre.1 (by decide)
  rw [mute, hfind]
  simp only
  congr 1
  · have hhead : ¬ (d :: t ++ items (values c)).head? = some 61 := by simpa using hd
    obtain ⟨r, -, hitems⟩ := items_values (c := c)
    rw [scanMute, if_neg hhead]
    rcases dropWhile_model (c := c) (d :: t) with ⟨hin, hdrop⟩ | ⟨hno, r', hr', hdrop⟩
    · rw [if_pos hin]
      simp only [hdrop]
      rw [hitems, takeWhile_append_stop (by decide), List.takeWhile_eq_self_iff.mpr]
      intro e he
      have hin' := (List.dropWhile_suffix _).subset (List.mem_of_mem_tail he)
      have hmem : e ∈ m := hsuffix.subset hin'
      have hne : e ≠ 44 := fun heq => hcomma (heq ▸ hmem)
      simpa using hne
    · rw [if_neg hno]
      simp only [hdrop]
      rw [takeWhile_unsigned _ fun d => not_stop (by decide)]
      have hstop : r'.takeWhile (· ≠ 44) = [] := by
        rcases hr' with rfl | ⟨x, rfl⟩
        · rfl
        · exact List.takeWhile_cons_of_neg (by decide)
      rw [hstop, List.append_nil]
      exact (atol_take_unsigned hsane.bck.1 hsane.bck.2 []).2
  · have hbehind : Behind (items (busValues c ++ addressValues c)) := by
      have hb := behind_items (busValues c ++ addressValues c) (.inl rfl)
      rwa [List.append_nil] at hb
    rw [parseParam, hself]
    simp only
    rw [List.dropWhile_append]
    by_cases hcolon : 58 ∈ d :: t
    · rw [if_neg fun h => (dropWhile_isEmpty _).mp h hcolon, if_pos hcolon]
      rcases hdrop : (d :: t).dropWhile (· ≠ 58) with - | ⟨e, n⟩
      · exact absurd hcolon ((dropWhile_isEmpty _).mp (by rw [hdrop]; rfl))
      · rw [hdrop]
        exact atol_behind behind_values n
    · rw [if_pos ((dropWhile_isEmpty _).mpr hcolon), if_neg hcolon, colon_values]
      by_cases hgpio : 0 ≤ c.muteGpio
      · rw [if_pos hgpio, if_pos hgpio]
        exact atol_behind hbehind _
      · rw [if_neg hgpio, if_neg hgpio]

/-- The level is read back, if the pin is not the first one. -/
theorem level_iff (hsane : Sane c) :
    atol (unsigned c.muteLevel) = c.muteLevel ↔ 0 < c.muteGpio := by
  have hlevel := hsane.level
  split at hlevel
  case isTrue hpos => exact iff_of_true (atol_unsigned hlevel.1 (by omega)) hpos
  case isFalse hno =>
    rw [hlevel]
    exact iff_of_false atol_unsigned_absent hno

theorem mute_iff (hsane : Sane c) (hcomma : 44 ∉ m) {P : ℤ × ℤ → Prop} (hinit : P (-1, -1))
    (hother : P (5, 1)) :
    (∀ old, P old →
      mute (ascii "model" ++ 61 :: (m ++ items (values c))) old = (c.muteGpio, c.muteLevel)) ↔
      MuteFine m c.pin.bck c.muteGpio c.muteLevel := by
  rw [MuteFine]
  rcases hm : strcasestr m (ascii "mute") with - | p
  · have hfind := find_model (m := m) (c := c) (by decide : ascii "mute" ∈ names)
    rw [hm, Option.map_none, Option.none_or] at hfind
    have hown (old : ℤ × ℤ) : mute (ascii "model" ++ 61 :: (m ++ items (values c))) old
        = mute (items (values c)) old := by
      rw [mute, hfind, mute]
    simp only [hown]
    by_cases hgpio : 0 ≤ c.muteGpio
    · simp only [mute_item hsane hgpio, Prod.mk.injEq, true_and]
      rw [level_iff hsane]
      exact ⟨fun h => h _ hinit, fun h _ _ => h⟩
    · refine iff_of_false (fun h => ?_) (by omega)
      have hkeep (old : ℤ × ℤ) : mute (items (values c)) old = old := by
        rw [mute, find_mute, if_neg hgpio]
      have h₁ := h _ hinit
      have h₂ := h _ hother
      rw [hkeep] at h₁ h₂
      exact absurd (h₁.trans h₂.symm) (by decide)
  · simp only [mute_shown hsane hcomma hm, Prod.mk.injEq]
    by_cases hcolon : 58 ∈ p
    · simp only [if_pos hcolon]
      exact ⟨fun h => h _ hinit, fun h _ _ => h⟩
    · simp only [if_neg hcolon]
      by_cases hgpio : 0 ≤ c.muteGpio
      · simp only [if_pos hgpio]
        rw [← level_iff hsane]
        exact ⟨fun h => h _ hinit, fun h _ _ => h⟩
      · simp only [if_neg hgpio]
        refine iff_of_false (fun h => ?_) (fun h => by omega)
        have h₁ := (h _ hinit).2
        have h₂ := (h _ hother).2
        exact absurd (h₁.trans h₂.symm) (by decide)

/-- What is read for a configuration that is written, field by field. -/
theorem get_set (hsane : Sane c) (old : I2sConfig) :
    configI2sGetFromStr old (configI2sSet c) = c ↔
      let s := ascii "model" ++ 61 :: (c.model ++ items (values c))
      (parseParamStr s (ascii "model") 61 (ascii "i2s") 31 = c.model) ∧
      (scanPin s (ascii "bck") = c.pin.bck ∧ scanPin s (ascii "ws") = c.pin.ws ∧
        scanPin s (ascii "do") = c.pin.dataOut) ∧
      mute s (old.muteGpio, old.muteLevel) = (c.muteGpio, c.muteLevel) ∧
      parseParam s (ascii "i2c") 61 old.i2cAddr = c.i2cAddr ∧
      parseParam s (ascii "sda") 61 old.sda = c.sda ∧
      parseParam s (ascii "scl") 61 old.scl = c.scl := by
  rw [configI2sSet_eq hsane.model.2]
  generalize ascii "model" ++ 61 :: (c.model ++ items (values c)) = s
  have hmute : mute s (old.muteGpio, old.muteLevel) = ((configI2sGetFromStr old s).muteGpio,
      (configI2sGetFromStr old s).muteLevel) := by
    rw [mute, configI2sGetFromStr]
    rcases strcasestr s (ascii "mute") with - | p <;> rfl
  simp only [hmute]
  constructor
  · intro h
    rw [h]
    refine ⟨congrArg I2sConfig.model h, ⟨congrArg (·.pin.bck) h, congrArg (·.pin.ws) h,
      congrArg (·.pin.dataOut) h⟩, rfl, congrArg I2sConfig.i2cAddr h, congrArg I2sConfig.sda h,
      congrArg I2sConfig.scl h⟩
  · rintro ⟨hmodel, ⟨hbck, hws, hdo⟩, hmute', hi2c, hsda, hscl⟩
    obtain ⟨⟨bck, ws, dataOut⟩, model, muteGpio, muteLevel, i2cAddr, sda, scl⟩ := c
    have hgpio := congrArg Prod.fst hmute'
    have hlevel := congrArg Prod.snd hmute'
    simp only [configI2sGetFromStr, setI2sPin] at hgpio hlevel ⊢
    simp only at hmodel hbck hws hdo hi2c hsda hscl
    rw [hmodel, hbck, hws, hdo, hi2c, hsda, hscl, hgpio, hlevel]

/-- With all options read before. -/
def otherI2s : Statics :=
  { Statics.init with
    i2s := configI2sGetFromStr Statics.init.i2s (ascii "model=x,mute=5:1,sda=4,scl=4,i2c=4") }

theorem otherI2s_options : (otherI2s.i2s.muteGpio, otherI2s.i2s.muteLevel) = (5, 1) ∧
    otherI2s.i2s.i2cAddr = 4 ∧ otherI2s.i2s.sda = 4 ∧ otherI2s.i2s.scl = 4 := by
  decide +kernel

/-- A number that is not written stays as it was. -/
theorem lost_of_keeps {f : ℤ → ℤ} {v : ℤ} (h : ∀ old, f old = old) :
    ∃ old, (old = -1 ∨ old = 4) ∧ f old ≠ v := by
  by_cases hv : v = -1
  · exact ⟨4, .inr rfl, by rw [h, hv]; decide⟩
  · exact ⟨-1, .inl rfl, by rw [h]; exact fun heq => hv heq.symm⟩

/-- The fields that depend on what was read before, for readings among which are none and another
one. -/
theorem fields_iff (hsane : Sane c) {P : ℤ → Prop} (hinit : P (-1)) (hother : P 4) :
    ((∀ old, P old → parseParam (ascii "model" ++ 61 :: (m ++ items (values c))) (ascii "i2c") 61
      old = c.i2cAddr) ↔ NumberFine m (ascii "i2c") c.pin.bck c.i2cAddr (0 < c.i2cAddr)) ∧
    ((∀ old, P old → parseParam (ascii "model" ++ 61 :: (m ++ items (values c))) (ascii "sda") 61
      old = c.sda) ↔ NumberFine m (ascii "sda") c.pin.bck c.sda (0 ≤ c.sda)) ∧
    ((∀ old, P old → parseParam (ascii "model" ++ 61 :: (m ++ items (values c))) (ascii "scl") 61
      old = c.scl) ↔ NumberFine m (ascii "scl") c.pin.bck c.scl (0 ≤ c.scl)) := by
  refine ⟨number_iff hsane (by decide) hinit hother ?_ ?_,
    number_iff hsane (by decide) hinit hother ?_ ?_,
    number_iff hsane (by decide) hinit hother ?_ ?_⟩
  · intro h old
    rw [parse_i2c, if_pos h, atol_unsigned (by omega) hsane.i2cAddr]
  · exact fun h => lost_of_keeps fun old => by rw [parse_i2c, if_neg h]
  · intro h old
    have hlt := (hsane.sda.resolve_left (by omega)).2
    rw [(parse_bus old).1, if_pos h, atol_unsigned h (by omega)]
  · exact fun h => lost_of_keeps fun old => by rw [(parse_bus old).1, if_neg h]
  · intro h old
    have hscl := hsane.scl.resolve_left (by omega)
    rw [(parse_bus old).2, if_pos hscl.1, atol_unsigned h (by omega)]
  · intro h
    -- the clock of the bus is not given
    have hscl : c.scl = -1 := hsane.scl.resolve_right fun hscl => h hscl.2.1
    by_cases hsda : 0 ≤ c.sda
    · refine ⟨-1, .inl rfl, ?_⟩
      rw [(parse_bus _).2, if_pos hsda, hscl]
      exact atol_unsigned_absent
    · exact lost_of_keeps fun old => by rw [(parse_bus old).2, if_neg hsda]

theorem pins_iff (hsane : Sane c) :
    (scanPin (ascii "model" ++ 61 :: (m ++ items (values c))) (ascii "bck") = c.pin.bck ↔
      PinFine m (ascii "bck") c.pin.bck c.pin.bck) ∧
    (scanPin (ascii "model" ++ 61 :: (m ++ items (values c))) (ascii "ws") = c.pin.ws ↔
      PinFine m (ascii "ws") c.pin.bck c.pin.ws) ∧
    (scanPin (ascii "model" ++ 61 :: (m ++ items (values c))) (ascii "do") = c.pin.dataOut ↔
      PinFine m (ascii "do") c.pin.bck c.pin.dataOut) :=
  ⟨pin_iff hsane (by decide) hsane.bck.1 scan_pins.1,
    pin_iff hsane (by decide) hsane.ws.1 scan_pins.2.1,
    pin_iff hsane (by decide) hsane.dataOut.1 scan_pins.2.2⟩

theorem i2s_iff (hsane : Sane c) : (Config.i2s c).RoundTrips ↔ I2sFine c := by
  obtain ⟨hbck, hws, hdo⟩ := pins_iff (m := c.model) hsane
  constructor
  · intro h
    have h₀ := (get_set hsane _).mp (h [] _ rfl)
    have h₁ := (get_set hsane _).mp
      (h [.i2s (ascii "model=x,mute=5:1,sda=4,scl=4,i2c=4")] otherI2s rfl)
    obtain ⟨hmute, hi2c, hsda, hscl⟩ := otherI2s_options
    rw [hmute, hi2c, hsda, hscl] at h₁
    obtain ⟨hmodel, ⟨hbck', hws', hdo'⟩, hmute₀, hi2c₀, hsda₀, hscl₀⟩ := h₀
    obtain ⟨-, -, hmute₁, hi2c₁, hsda₁, hscl₁⟩ := h₁
    have hname := (model_iff hsane).mp hmodel
    have hfields := fields_iff (m := c.model) hsane (P := fun old => old = -1 ∨ old = 4) (.inl rfl)
      (.inr rfl)
    refine ⟨hname, hbck.mp hbck', hws.mp hws', hdo.mp hdo', ?_, hfields.1.mp ?_,
      hfields.2.1.mp ?_, hfields.2.2.mp ?_⟩
    · refine (mute_iff hsane hname.1 (P := fun old => old = (-1, -1) ∨ old = (5, 1)) (.inl rfl)
        (.inr rfl)).mp ?_
      rintro old (rfl | rfl)
      · exact hmute₀
      · exact hmute₁
    · rintro old (rfl | rfl)
      · exact hi2c₀
      · exact hi2c₁
    · rintro old (rfl | rfl)
      · exact hsda₀
      · exact hsda₁
    · rintro old (rfl | rfl)
      · exact hscl₀
      · exact hscl₁
  · intro h before s _
    have hfields := fields_iff (m := c.model) hsane (P := fun _ => True) trivial trivial
    have hmute := (mute_iff hsane h.model.1 (P := fun _ => True) trivial trivial).mpr h.mute
    exact (get_set hsane s.i2s).mpr ⟨(model_iff hsane).mpr h.model,
      ⟨hbck.mpr h.bck, hws.mpr h.ws, hdo.mpr h.dataOut⟩, hmute _ trivial,
      hfields.1.mpr h.i2cAddr _ trivial, hfields.2.1.mpr h.sda _ trivial,
      hfields.2.2.mpr h.scl _ trivial⟩

/-- The name of the clock is the first that is found, and the `=` is behind it. -/
theorem spdif_lost (h : (Config.spdif c).Accepted g) : ¬ (Config.spdif c).RoundTrips := by
  obtain ⟨clock, wordselect, data, h⟩ := h
  simp only [doSpdifCmd, Option.bind_eq_bind, Option.bind_eq_some_iff] at h
  obtain ⟨bck, hbck, ws, -, dataOut, -, hc⟩ := h
  have hrange : 0 ≤ bck := ((isGpio_range hbck).resolve_left fun h => by simp at h).1
  have hpin : c.pin.bck = bck := by
    rw [← Option.some.inj hc]
  have hname : ascii "bck=" = ascii "bck" ++ [61] := by decide
  have htext : ∃ x, configSpdifSet c = ascii "bck" ++ 61 :: x := by
    refine ⟨(unsigned c.pin.bck ++ (ascii ",ws=" ++ (unsigned c.pin.ws ++ (ascii ",do=" ++
      unsigned c.pin.dataOut)))).take 250, ?_⟩
    rw [configSpdifSet, snprintf, hname]
    simp only [List.append_assoc, List.singleton_append]
    rfl
  obtain ⟨x, htext⟩ := htext
  intro hall
  have hread := congrArg (·.pin.bck) (hall [] _ rfl)
  simp only [configI2sGetFromStr, setI2sPin, htext, scanPin, strcasestr_self, List.prefix_append,
    if_true, List.drop_left, List.head?_cons] at hread
  omega

end I2s

/-! ### The rotary encoder -/

section Rotary

variable {c : RotaryConfig} {key : List UInt8} {g : Gpios}

/-- What the command sets. -/
structure SaneRotary (c : RotaryConfig) : Prop where
  a : 0 ≤ c.a ∧ c.a < 40
  b : 0 ≤ c.b ∧ c.b < 40
  sw : c.sw = -1 ∨ 0 ≤ c.sw ∧ c.sw < 40
  knobonly : c.knobonly = true → c.volumeLock = false ∧ c.longpress = false

theorem saneRotary_of_accepted (h : (Config.rotary c).Accepted g) : SaneRotary c := by
  obtain ⟨args, h⟩ := h
  simp only [doRotaryCmd, Option.bind_eq_bind, Option.bind_eq_some_iff] at h
  obtain ⟨a, ha, b, hb, sw, hsw, h⟩ := h
  split at h
  case isTrue => cases h
  case isFalse hknob =>
    split at h
    case isTrue => cases h
    case isFalse =>
      obtain rfl := Option.some.inj h
      refine ⟨(isGpio_range ha).resolve_left fun h => by simp at h,
        (isGpio_range hb).resolve_left fun h => by simp at h, (isGpio_range hsw).imp And.left id,
        fun honly => ?_⟩
      have hnone := not_or.mp fun h => hknob ⟨honly, h⟩
      exact ⟨Bool.eq_false_iff.mpr hnone.1, Bool.eq_false_iff.mpr hnone.2⟩

/-- The pins that are written. -/
def rotaryValues (c : RotaryConfig) : List (List UInt8 × List UInt8) :=
  [(ascii "A", signed c.a), (ascii "B", signed c.b)] ++
    if c.sw ≥ 0 then [(ascii "SW", signed c.sw)] else []

def flags (c : RotaryConfig) : List UInt8 :=
  (if c.volumeLock then ascii ",volume" else []) ++ if c.longpress then ascii ",longpress" else []

theorem signed_eq {n : ℤ} (h : 0 ≤ n) : signed n = decimal n.toNat := if_neg (by omega)

theorem length_signed_le {n : ℤ} (h : 0 ≤ n) (h' : n < 40) : (signed n).length ≤ 2 := by
  rw [signed_eq h]
  exact length_decimal_le (by decide) (by omega)

theorem atol_signed {n : ℤ} (h : 0 ≤ n) (h' : n < 40) : atol (signed n) = n := by
  rw [signed_eq h, atol_decimal (by omega)]
  omega

theorem configRotarySet_eq (hsane : SaneRotary c) (hknob : c.knobonly = false) :
    44 :: configRotarySet c = items (rotaryValues c) ++ flags c := by
  have ha := length_signed_le hsane.a.1 hsane.a.2
  have hb := length_signed_le hsane.b.1 hsane.b.2
  have hname : (ascii "A=").length = 2 ∧ (ascii ",B=").length = 3 ∧ (ascii ",SW=").length = 4 := by
    decide
  have hpins : snprintf 512 (ascii "A=" ++ signed c.a ++ ascii ",B=" ++ signed c.b)
      = ascii "A=" ++ signed c.a ++ ascii ",B=" ++ signed c.b := by
    refine snprintf_eq ?_
    simp only [List.length_append, hname]
    omega
  have hsw : c.sw ≥ 0 → snprintf 512 (ascii "A=" ++ signed c.a ++ ascii ",B=" ++ signed c.b ++
      ascii ",SW=" ++ signed c.sw) = ascii "A=" ++ signed c.a ++ ascii ",B=" ++ signed c.b ++
      ascii ",SW=" ++ signed c.sw := by
    intro h
    have hlen := length_signed_le h (hsane.sw.resolve_left (by omega)).2
    refine snprintf_eq ?_
    simp only [List.length_append, hname]
    omega
  rw [configRotarySet]
  simp only [hpins, hknob, Bool.false_eq_true, if_false]
  by_cases h : c.sw ≥ 0
  · simp only [if_pos h, hsw h, rotaryValues, flags]
    rcases c.volumeLock with - | - <;> rcases c.longpress with - | - <;> simp [items, ascii]
  · simp only [if_neg h, rotaryValues, flags]
    rcases c.volumeLock with - | - <;> rcases c.longpress with - | - <;> simp [items, ascii]

theorem behind_flags : Behind (flags c) := by
  rw [flags]
  rcases c.volumeLock with - | -
  · rcases c.longpress with - | -
    · exact .inl rfl
    · exact .inr ⟨_, rfl⟩
  · rcases c.longpress with - | - <;> exact .inr ⟨_, rfl⟩

theorem signed_numeral {n : ℤ} (h : 0 ≤ n) : ∀ d ∈ signed n, d ≤ 58 := by
  rw [signed_eq h]
  exact fun d hd => digit_le (isdigit_decimal d hd)

theorem rotaryValues_numeral (hsane : SaneRotary c) {i : List UInt8 × List UInt8}
    (hi : i ∈ rotaryValues c) : i.1 ∈ [ascii "A", ascii "B", ascii "SW"] ∧ ∀ d ∈ i.2, d ≤ 58 := by
  rw [rotaryValues] at hi
  rcases List.mem_append.mp hi with hi | hi
  · simp only [List.mem_cons, List.not_mem_nil, or_false] at hi
    rcases hi with rfl | rfl
    · exact ⟨by simp, signed_numeral hsane.a.1⟩
    · exact ⟨by simp, signed_numeral hsane.b.1⟩
  · split at hi
    case isTrue h =>
      rw [List.mem_singleton.mp hi]
      exact ⟨by simp, signed_numeral h⟩
    case isFalse => cases hi

/-- The options come behind the pins. -/
theorem find_flag (hsane : SaneRotary c) (hknob : c.knobonly = false)
    (hkey : key ∈ [ascii "knobonly", ascii "volume", ascii "longpress"]) :
    strcasestr (configRotarySet c) key = strcasestr (flags c) key := by
  have hk : Key key := by
    have hall : ∀ k ∈ [ascii "knobonly", ascii "volume", ascii "longpress"],
        tolower 44 ∉ k.map tolower ∧ tolower 61 ∉ k.map tolower ∧
          ∃ d ∈ k.map tolower, 58 < d := by decide
    exact ⟨(hall key hkey).1, (hall key hkey).2.1, (hall key hkey).2.2⟩
  have hpins : ∀ k ∈ [ascii "A", ascii "B", ascii "SW"],
      ∀ key ∈ [ascii "knobonly", ascii "volume", ascii "longpress"], strcasestr k key = none := by
    decide
  rw [← strcasestr_comma hk, configRotarySet_eq hsane hknob]
  refine strcasestr_items hk behind_flags fun i hi => ?_
  obtain ⟨hname, hnum⟩ := rotaryValues_numeral hsane hi
  exact ⟨hpins _ hname key hkey, strcasestr_none hnum hk.letter⟩

theorem parse_pins (hsane : SaneRotary c) (hknob : c.knobonly = false) (old : RotaryConfig) :
    parseParam (configRotarySet c) (ascii "A") 61 old.a = c.a ∧
    parseParam (configRotarySet c) (ascii "B") 61 old.b = c.b ∧
    parseParam (configRotarySet c) (ascii "SW") 61 old.sw = if 0 ≤ c.sw then c.sw else old.sw := by
  have hk : ∀ k ∈ [ascii "A", ascii "B", ascii "SW"], Key k := by
    have hall : ∀ k ∈ [ascii "A", ascii "B", ascii "SW"], tolower 44 ∉ k.map tolower ∧
        tolower 61 ∉ k.map tolower ∧ ∃ d ∈ k.map tolower, 58 < d := by decide
    exact fun k hk => ⟨(hall k hk).1, (hall k hk).2.1, (hall k hk).2.2⟩
  have hA := hk (ascii "A") (by decide)
  have hB := hk (ascii "B") (by decide)
  have hSW := hk (ascii "SW") (by decide)
  have htext {key : List UInt8} (h : Key key) (old : ℤ) :
      parseParam (configRotarySet c) key 61 old
        = parseParam (items (rotaryValues c) ++ flags c) key 61 old := by
    rw [← configRotarySet_eq hsane hknob, parseParam, parseParam, strcasestr_comma h]
  have hother {key : List UInt8} (h : Key key) {k : List UInt8} (hname : strcasestr k key = none)
      {n : ℤ} (hn : 0 ≤ n) : strcasestr k key = none ∧ strcasestr (signed n) key = none :=
    ⟨hname, strcasestr_none (signed_numeral hn) h.letter⟩
  have hvalues : rotaryValues c = (ascii "A", signed c.a) :: (ascii "B", signed c.b) ::
      if c.sw ≥ 0 then [(ascii "SW", signed c.sw)] else [] := rfl
  refine ⟨?_, ?_, ?_⟩
  · rw [htext hA, parseParam_items (a := []) hA behind_flags hvalues (by simp),
      atol_signed hsane.a.1 hsane.a.2]
  · rw [htext hB, parseParam_items (a := [_]) hB behind_flags hvalues ?_,
      atol_signed hsane.b.1 hsane.b.2]
    intro i hi
    rw [List.mem_singleton.mp hi]
    exact hother hB (by decide : strcasestr (ascii "A") (ascii "B") = none) hsane.a.1
  · have hfront : ∀ i ∈ [(ascii "A", signed c.a), (ascii "B", signed c.b)],
        strcasestr i.1 (ascii "SW") = none ∧ strcasestr i.2 (ascii "SW") = none := by
      intro i hi
      simp only [List.mem_cons, List.not_mem_nil, or_false] at hi
      rcases hi with rfl | rfl
      · exact hother hSW (by decide : strcasestr (ascii "A") (ascii "SW") = none) hsane.a.1
      · exact hother hSW (by decide : strcasestr (ascii "B") (ascii "SW") = none) hsane.b.1
    rw [htext hSW]
    split
    case isTrue h =>
      have hlt := (hsane.sw.resolve_left (by omega)).2
      rw [parseParam_items (b := []) hSW behind_flags (by rw [rotaryValues, if_pos h]) hfront,
        atol_signed h hlt]
    case isFalse h =>
      have hflags : strcasestr (flags c) (ascii "SW") = none := by
        rw [flags]
        rcases c.volumeLock with - | - <;> rcases c.longpress with - | - <;> decide
      rw [rotaryValues, if_neg h, List.append_nil]
      exact parseParam_none (by rw [strcasestr_items hSW behind_flags hfront, hflags]) 61 old.sw

/-- What is read for an encoder with more than the knob. -/
theorem get_rotary (hsane : SaneRotary c) (hknob : c.knobonly = false) (old : RotaryConfig) :
    configRotaryGet old (configRotarySet c) =
      { a := c.a
        b := c.b
        sw := if 0 ≤ c.sw then c.sw else old.sw
        knobonly := false
        volumeLock := c.volumeLock || old.volumeLock
        longpress := c.longpress || old.longpress
        timer := 0 } := by
  obtain ⟨ha, hb, hsw⟩ := parse_pins hsane hknob old
  have hne : configRotarySet c ≠ [] := by
    intro hnil
    have htext := configRotarySet_eq hsane hknob
    rw [hnil] at htext
    have hlen := congrArg List.length htext
    simp [rotaryValues, items, ascii] at hlen
  have hknobonly : strcasestr (flags c) (ascii "knobonly") = none := by
    rw [flags]
    rcases c.volumeLock with - | - <;> rcases c.longpress with - | - <;> decide
  have hvolume : (strcasestr (flags c) (ascii "volume")).isSome = c.volumeLock := by
    rw [flags]
    rcases c.volumeLock with - | - <;> rcases c.longpress with - | - <;> decide
  have hlongpress : (strcasestr (flags c) (ascii "longpress")).isSome = c.longpress := by
    rw [flags]
    rcases c.volumeLock with - | - <;> rcases c.longpress with - | - <;> decide
  rw [configRotaryGet, if_neg hne, find_flag hsane hknob (by simp), hknobonly]
  simp only
  rw [find_flag hsane hknob (by simp), find_flag hsane hknob (by simp), hvolume, hlongpress, ha, hb,
    hsw]

/-- The volume lock is never reset. -/
theorem volumeLock_stays {old : RotaryConfig} (h : old.volumeLock = true) (config : List UInt8) :
    (configRotaryGet old config).volumeLock = true := by
  rw [configRotaryGet]
  split
  · exact h
  · rcases strcasestr config (ascii "knobonly") with - | p
    · simp [h]
    · exact h

/-- With all options read before. -/
def otherRotary : Statics :=
  { Statics.init with
    rotary := configRotaryGet Statics.init.rotary (ascii "A=1,B=2,SW=3,volume,longpress") }

theorem otherRotary_options : otherRotary.rotary.sw = 3 ∧ otherRotary.rotary.volumeLock = true ∧
    otherRotary.rotary.longpress = true := by
  decide +kernel

theorem rotary_iff (hsane : SaneRotary c) : (Config.rotary c).RoundTrips ↔ RotaryFine c := by
  constructor
  · intro h
    have h₁ : configRotaryGet otherRotary.rotary (configRotarySet c) = c :=
      h [.rotary (ascii "A=1,B=2,SW=3,volume,longpress")] otherRotary rfl
    obtain ⟨hsw, hvolume, hlongpress⟩ := otherRotary_options
    have hlock : c.volumeLock = true := h₁ ▸ volumeLock_stays hvolume _
    have hknob : c.knobonly = false := by
      by_contra hno
      have hnone := (hsane.knobonly (by simpa using hno)).1
      rw [hlock] at hnone
      cases hnone
    rw [get_rotary hsane hknob, hlongpress, hsw] at h₁
    refine ⟨?_, hlock, ?_, ?_⟩
    · by_contra hno
      have hthree := congrArg RotaryConfig.sw h₁
      simp only [if_neg hno] at hthree
      omega
    · simpa using (congrArg RotaryConfig.longpress h₁).symm
    · exact (congrArg RotaryConfig.timer h₁).symm
  · intro h before s _
    have hknob : c.knobonly = false := by
      by_contra hno
      have hnone := (hsane.knobonly (by simpa using hno)).1
      rw [h.volumeLock] at hnone
      cases hnone
    obtain ⟨a, b, sw, knobonly, volumeLock, longpress, timer⟩ := c
    obtain ⟨hsw, rfl, rfl, rfl⟩ := h
    obtain rfl := hknob
    exact (get_rotary hsane rfl s.rotary).trans (by simp only [if_pos hsw, Bool.true_or])

end Rotary

/-! ### The display -/

section Display

variable {c : DisplayConfig} {buffer x : List UInt8} {g : Gpios}

theorem colon_not_mem_signed (n : ℤ) : 58 ∉ signed n := by
  have hdecimal (k : ℕ) : 58 ∉ decimal k := fun h => absurd (isdigit_decimal 58 h) (by decide)
  rw [signed]
  split
  · intro h
    rcases List.mem_cons.mp h with h | h
    · exact absurd h (by decide)
    · exact hdecimal _ h
  · exact hdecimal _

theorem colon_snprintf (h : 58 ∉ x) : 58 ∉ snprintf 512 x := fun hmem =>
  h (List.mem_of_mem_take hmem)

/-- An option of the display. -/
theorem colon_option {P : Prop} [Decidable P] (hbuffer : 58 ∉ buffer) {name : List UInt8}
    (hname : 58 ∉ name) (n : ℤ) :
    58 ∉ if P then snprintf 512 (buffer ++ name ++ signed n) else buffer := by
  split
  · refine colon_snprintf ?_
    simp only [List.mem_append, not_or]
    exact ⟨⟨hbuffer, hname⟩, colon_not_mem_signed n⟩
  · exact hbuffer

theorem colon_drivername {driver name : List UInt8}
    (h : displayConfGetDriverName driver = some name) : 58 ∉ name := by
  have hall : ∀ d ∈ knownDrivers, 58 ∉ d := by decide
  exact hall name (List.mem_of_find?_eq_some h)

/-- What the command sets, as far as the text has no colon. -/
theorem colon_display (htype : ∀ t ∈ c.type, 58 ∉ t) (hdriver : ∀ d ∈ c.drivername, 58 ∉ d) :
    58 ∉ configDisplaySet c := by
  have htype' : 58 ∉ c.type.getD [] := by
    rcases ht : c.type with - | t
    · exact List.not_mem_nil
    · exact htype t (by rw [ht]; rfl)
  have hdriver' : 58 ∉ c.drivername.getD [] := by
    rcases hd : c.drivername with - | d
    · exact List.not_mem_nil
    · exact hdriver d (by rw [hd]; rfl)
  have hflag (b : Bool) {name : List UInt8} (h : 58 ∉ name) :
      58 ∉ if b = true then name else [] := by
    split
    · exact h
    · exact List.not_mem_nil
  have hsize : 58 ∉ snprintf 512 (c.type.getD [] ++ ascii ",width=" ++ signed c.width ++
      ascii ",height=" ++ signed c.height) := by
    refine colon_snprintf ?_
    simp only [List.mem_append, not_or]
    exact ⟨⟨⟨⟨htype', by decide⟩, colon_not_mem_signed _⟩, by decide⟩, colon_not_mem_signed _⟩
  rw [configDisplaySet]
  refine colon_snprintf ?_
  simp only [List.mem_append, not_or]
  refine ⟨⟨⟨⟨⟨?_, by decide⟩, hdriver'⟩, hflag _ (by decide)⟩, hflag _ (by decide)⟩,
    hflag _ (by decide)⟩
  refine colon_option (colon_option (colon_option ?_ (by decide) _) (by decide) _) (by decide) _
  split
  · exact colon_option hsize (by decide) _
  · exact colon_option hsize (by decide) _

/-- Without a colon, the depth stays as it was. -/
theorem depth_stays {old r : DisplayConfig} {config : List UInt8} (hcolon : 58 ∉ config)
    (h : configDisplayGet old config = some r) : r.depth = old.depth := by
  simp only [configDisplayGet, Option.bind_eq_bind, Option.bind_eq_some_iff] at h
  obtain ⟨driver, hdriver, hr⟩ := h
  have hdepth : r.depth = driver.1 := by rw [← Option.some.inj hr]
  rw [hdepth]
  split at hdriver
  case h_1 => rw [← Option.some.inj hdriver]
  case h_2 p hp =>
    split at hdriver
    case h_1 => cases hdriver
    case h_2 =>
      have hno : 58 ∉ p := fun hmem => hcolon ((strcasestr_found hp).2.subset hmem)
      have hnil : p.dropWhile (· ≠ 58) = [] :=
        List.isEmpty_iff.mp ((dropWhile_isEmpty p).mpr hno)
      rw [← Option.some.inj hdriver, scanDepth, hnil]
      split <;> rfl

/-- The depth is not written, and what is read before is kept. -/
theorem display_lost (h : (Config.display c).Accepted g) : ¬ (Config.display c).RoundTrips := by
  obtain ⟨i2c, spi, args, h⟩ := h
  simp only [doI2cSetDisplay, Option.bind_eq_bind, Option.bind_eq_some_iff] at h
  obtain ⟨csPin, -, rstPin, -, back, -, drivername, hname, h⟩ := h
  have hcolon : 58 ∉ configDisplaySet c := by
    split at h
    case isFalse => cases h
    case isTrue =>
      obtain rfl := Option.some.inj h
      refine colon_display ?_ ?_
      · rintro t ht
        obtain rfl := Option.some.inj ht
        split <;> decide
      · rintro d hd
        obtain rfl := Option.some.inj hd
        obtain ⟨driver, -, hdriver⟩ := hname
        exact colon_drivername hdriver
  intro hall
  obtain ⟨s, hs, hdepth⟩ := Option.map_eq_some_iff.mp (by decide +kernel :
    (Statics.after [.display (ascii "I2C,driver=SSD1326:4")]).map (fun s => s.display.depth)
      = some 4)
  obtain ⟨r₀, hr₀, -, hinit⟩ := hall [] _ rfl
  obtain ⟨r₁, hr₁, -, hother⟩ := hall _ s hs
  have h₀ : r₀.depth = -1 := depth_stays hcolon hr₀
  have h₁ : r₁.depth = 4 := (depth_stays hcolon hr₁).trans hdepth
  omega

end Display

/-! ### All of them -/

section Whole

variable {g : Gpios} {c : Config}

/-- A configuration that a command has accepted is read back, whatever was read before, if and only
if nothing of it depends on what was. -/
theorem roundTrips_iff (h : c.Accepted g) : c.RoundTrips ↔ c.Fine := by
  cases c with
  | i2s c => exact i2s_iff (sane_of_accepted h)
  | spdif c => exact iff_of_false (spdif_lost h) id
  | rotary c => exact rotary_iff (saneRotary_of_accepted h)
  | display c => exact iff_of_false (display_lost h) id

/-- The pins of the ESP32. -/
def esp32 : Gpios where
  valid n := decide (0 ≤ n ∧ n < 40 ∧ n ≠ 24 ∧ ¬ (28 ≤ n ∧ n < 32))
  validOutput n := decide (0 ≤ n ∧ n < 34 ∧ n ≠ 24 ∧ ¬ (28 ≤ n ∧ n < 32))
  range _ h := ⟨(of_decide_eq_true h).1, (of_decide_eq_true h).2.1⟩

/-- An encoder with a switch, the volume lock and the long press. -/
theorem encoder_roundTrips :
    (Config.rotary ⟨4, 5, 16, false, true, true, 0⟩).RoundTrips :=
  (roundTrips_iff (g := esp32) (c := .rotary ⟨4, 5, 16, false, true, true, 0⟩)
    ⟨⟨⟨4, by decide⟩, ⟨5, by decide⟩, some ⟨16, by decide⟩, true, true, false, none⟩, rfl⟩).mpr
    ⟨by decide, rfl, rfl, rfl⟩

/-- The pins of a DAC are not found. -/
theorem dac_lost : ¬ ∀ (g : Gpios) (c : Config), c.Accepted g → c.RoundTrips := by
  intro h
  have hread := h esp32 (.i2s ⟨⟨33, 25, 32⟩, ascii "TAS57xx", -1, -1, -1, -1, -1⟩)
    ⟨⟨ascii "TAS57xx", ⟨33, by decide⟩, ⟨25, by decide⟩, ⟨32, by decide⟩, none, false, none, none,
      none⟩, by decide +kernel⟩ [] _ rfl
  have hpin := congrArg (fun r : I2sConfig => r.pin.bck) hread
  exact absurd hpin (by decide +kernel)

end Whole

end HardwareConfig

end SqueezeliteMuse
