/-
SqueezeliteMuse/Config.lean

The configuration store of platform_config.c: a cache of named entries, and the
NVS partition behind it.

The cache is a cJSON object.  Each of its items is an object again, with the
fields "type", "value" and "chg"; a field can be missing, where memory for it
was.  cJSON is modelled as it is documented: `cJSON_GetObjectItemCaseSensitive`
and `cJSON_DetachItemFromObjectCaseSensitive` take the first item with the very
name, `cJSON_ReplaceItemInObject` the first whose name is the same up to letter
case, and `cJSON_AddItemToObject` appends.  A cJSON number is a double, here a
rational; `atof` stands for the C function.

What the environment decides is a parameter of each call: whether the lock is
obtained, which allocations get memory, which NVS calls succeed.  NVS is a map,
and a failed write leaves it.
-/
import SqueezeliteMuse.Lib.Keyed
import SqueezeliteMuse.Lib.Runs
import Mathlib.Data.Rat.Defs

namespace SqueezeliteMuse

open Keyed

/-! ### Data -/

/-- A C string, without its NUL. -/
abbrev CString := List UInt8

/-- `nvs_type_t`; `unset` is the 0 of an entry that has no type. -/
inductive NvsType
  | unset | u8 | i8 | u16 | i16 | u32 | i32 | u64 | i64 | str | blob | any
  deriving DecidableEq, Repr

/-- A value of a type that NVS stores. -/
inductive NvsValue
  | u8 (v : UInt8) | i8 (v : Int8) | u16 (v : UInt16) | i16 (v : Int16)
  | u32 (v : UInt32) | i32 (v : Int32) | u64 (v : UInt64) | i64 (v : Int64)
  | str (s : CString)
  deriving DecidableEq

def NvsValue.type : NvsValue → NvsType
  | .u8 _ => .u8 | .i8 _ => .i8 | .u16 _ => .u16 | .i16 _ => .i16
  | .u32 _ => .u32 | .i32 _ => .i32 | .u64 _ => .u64 | .i64 _ => .i64
  | .str _ => .str

/-- A type and what the pointer that comes with it points to, as far as it is read. -/
inductive ConfigArg
  | value (v : NvsValue)
  | blob
  | any

def ConfigArg.type : ConfigArg → NvsType
  | .value v => v.type
  | .blob => .blob
  | .any => .any

/-- A cJSON value. -/
inductive CJson
  | number (d : ℚ)
  | string (s : CString)
  deriving DecidableEq

/-- An entry of the cache. -/
structure ConfigEntry where
  type : Option NvsType
  value : Option CJson
  chg : Option Bool
  deriving DecidableEq

/-- The cached configuration, `CONFIG_NO_COMMIT_PENDING`, `CONFIG_LOAD_BIT`, and NVS. -/
structure Config where
  entries : List (CString × ConfigEntry)
  noCommitPending : Bool
  loading : Bool
  nvs : List (CString × NvsValue)

/-- Which allocations of `config_set_value_safe` get memory: the entry, its
fields, the flag where it is added a second time, and the key of the entry. -/
structure ConfigMemory where
  entry : Bool
  type : Bool
  value : Bool
  chg : Bool
  flag : Bool
  key : Bool

/-- All of them. -/
def ConfigMemory.enough : ConfigMemory := ⟨true, true, true, true, true, true⟩

/-- Memory that may be missing. -/
def grant {α : Type*} (memory : Bool) (a : α) : Option α := if memory then some a else none

/-! ### Entries -/

/-- `tolower` -/
def tolower (c : UInt8) : UInt8 := if 0x41 ≤ c ∧ c ≤ 0x5a then c + 0x20 else c

/-- Whether cJSON takes two names for the same where it ignores case. -/
def sameName (s s' : CString) : Bool := s.map tolower = s'.map tolower

/-- `config_get_item_type`, and also `config_get_entry_type` -/
def ConfigEntry.itemType (e : ConfigEntry) : NvsType := e.type.getD .unset

/-- `config_is_entry_changed` -/
def ConfigEntry.isChanged (e : ConfigEntry) : Bool := e.chg.getD true

/-- `valuedouble` -/
def CJson.valuedouble : CJson → ℚ
  | .number d => d
  | .string _ => 0

/-- A double, cut to an integer. -/
def trunc (d : ℚ) : ℤ := d.num.tdiv d.den

/-- `config_safe_alloc_get_entry_value` -/
def ConfigEntry.getValue (t : NvsType) (e : ConfigEntry) : Option NvsValue :=
  match e.value with
  | none => none
  | some item =>
      if t ≠ e.itemType then none
      else
        match t with
        | .i8 => some (.i8 (.ofInt (trunc item.valuedouble)))
        | .u8 => some (.u8 (.ofInt (trunc item.valuedouble)))
        | .i16 => some (.i16 (.ofInt (trunc item.valuedouble)))
        | .u16 => some (.u16 (.ofInt (trunc item.valuedouble)))
        | .i32 => some (.i32 (.ofInt (trunc item.valuedouble)))
        | .u32 => some (.u32 (.ofInt (trunc item.valuedouble)))
        | .i64 => some (.i64 (.ofInt (trunc item.valuedouble)))
        | .u64 => some (.u64 (.ofInt (trunc item.valuedouble)))
        | .str =>
            match item with
            | .string s => some (.str s)
            | .number _ => none
        | .unset | .blob | .any => none

/-- The value that `config_set_value_safe` adds, for the types it supports. -/
def ConfigArg.item : ConfigArg → Option CJson
  | .value (.i8 v) => some (.number v.toInt)
  | .value (.i16 v) => some (.number v.toInt)
  | .value (.i32 v) => some (.number v.toInt)
  | .value (.u8 v) => some (.number v.toNat)
  | .value (.u16 v) => some (.number v.toNat)
  | .value (.u32 v) => some (.number v.toNat)
  | .value (.str s) => some (.string s)
  | .value (.i64 _) | .value (.u64 _) | .blob | .any => none

section Store

variable (atof : CString → ℚ)

/-- The new entry, before it gets a flag: a string for an entry that is not one is read as a number. -/
def newEntry (memory : ConfigMemory) (arg : ConfigArg) (existing : Option ConfigEntry) :
    ConfigEntry :=
  match arg, existing with
  | .value (.str s), some e =>
      if e.itemType ≠ .str then
        ⟨grant memory.type e.itemType, grant memory.value (.number (atof s)), none⟩
      else ⟨grant memory.type .str, grant memory.value (.string s), none⟩
  | _, _ => ⟨grant memory.type arg.type, arg.item.bind (grant memory.value ·), none⟩

/-! ### The flags -/

namespace Config

/-- `config_raise_change`; nothing happens to the bit while the configuration is loaded. -/
def raiseChange (c : Config) (changeFound : Bool) : Config :=
  if c.loading then c else { c with noCommitPending := !changeFound }

/-- `config_set_entry_changed_flag`: the entry. -/
def setFlag (c : Config) (memory : Bool) (e : ConfigEntry) (flag : Bool) : ConfigEntry :=
  match e.chg with
  | none => { e with chg := grant memory (flag && !c.loading) }
  | some _ => { e with chg := some (flag && !c.loading) }

/-- `config_set_entry_changed_flag`: the bit. -/
def raiseFlag (c : Config) (flag : Bool) : Config :=
  if flag && !c.loading then c.raiseChange true else c

/-! ### Operations -/

/-- `config_set_value_safe`: whether it returns an entry. -/
def setValueSafe (c : Config) (memory : ConfigMemory) (key : CString) (arg : ConfigArg) :
    Bool × Config :=
  if memory.entry = false then (false, c)
  else
    let entry := newEntry atof memory arg (c.entries.lookup key)
    match c.entries.lookup key with
    | some existing =>
        let entry' := { entry with chg := grant memory.chg existing.isChanged }
        if entry' = existing then (true, c)
        else
          (true, { c.raiseFlag true with
            entries :=
              if memory.key then
                replaceFirst (sameName key) (key, c.setFlag memory.flag entry' true) c.entries
              else c.entries })
    | none =>
        (true, { c.raiseFlag true with
          entries :=
            if memory.key then c.entries ++ [(key, c.setFlag memory.flag entry true)]
            else c.entries })

/-- The loop of `config_commit_to_nvs`: what the cache and NVS are after it.  For
each entry, `writes` is whether it can be stored and `flags` whether there is
memory for its flag. -/
def commitLoop (c : Config) (writes flags : ℕ → Bool) :
    List (CString × ConfigEntry) → List (CString × NvsValue) →
      List (CString × ConfigEntry) × List (CString × NvsValue)
  | [], nvs => ([], nvs)
  | (key, e) :: rest, nvs =>
      let next := commitLoop c (fun i => writes (i + 1)) (fun i => flags (i + 1)) rest
      match e.isChanged, e.getValue e.itemType with
      | true, some v =>
          if writes 0 then
            let r := next (put key v nvs)
            ((key, c.setFlag (flags 0) e false) :: r.1, r.2)
          else ((key, e) :: (next nvs).1, (next nvs).2)
      | _, _ => ((key, e) :: (next nvs).1, (next nvs).2)

/-- `config_commit_to_nvs`, with the lock. -/
def commitToNvs (c : Config) (writes flags : ℕ → Bool) : Config :=
  let r := c.commitLoop writes flags c.entries c.nvs
  { c with entries := r.1, nvs := r.2 }.raiseChange false

/-- The loop of `nvs_load_config`: every value that can be read is set, up to one that cannot. -/
def loadLoop : ℕ → (ℕ → Bool) → (ℕ → ConfigMemory) → List (CString × NvsValue) → Config → Config
  | _, _, _, [], c => c
  | n, reads, memory, (key, v) :: rest, c =>
      if reads n then
        loadLoop (n + 1) reads memory rest (c.setValueSafe atof (memory n) key (.value v)).2
      else c

/-- `config_init`, also called to load the configuration again. -/
def init (c : Config) (reads : ℕ → Bool) (memory : ℕ → ConfigMemory) : Config :=
  { loadLoop atof 0 reads memory c.nvs
      { entries := [], noCommitPending := false, loading := true, nvs := c.nvs } with
    loading := false }

/-! ### Calls -/

/-- The calls, each with what the environment decides: whether the lock is obtained, which
allocations get memory, whether NVS erases the key, stores an entry, reads an entry. -/
inductive Op
  | setValue (locked : Bool) (memory : ConfigMemory) (key : CString) (arg : ConfigArg)
  | setDefault (locked : Bool) (memory : ConfigMemory) (key : CString) (arg : ConfigArg)
  | deleteKey (locked : Bool) (erased : Bool) (key : CString)
  | allocGet (locked : Bool) (t : NvsType) (key : CString)
  | allocGetDefault (locked : Bool) (memory : ConfigMemory) (key : CString) (arg : ConfigArg)
  | commitToNvs (locked : Bool) (writes flags : ℕ → Bool)
  | init (reads : ℕ → Bool) (memory : ℕ → ConfigMemory)

/-- What a call returns, and what it does with the lock. -/
structure Outcome where
  ok : Bool
  value : Option NvsValue
  taken : Bool
  given : Bool

/-- `config_alloc_get_default`, the entry found or not. -/
def getDefault (c : Config) (memory : ConfigMemory) (key : CString) (arg : ConfigArg) :
    Option NvsValue × Config :=
  match c.entries.lookup key with
  | some e => (e.getValue arg.type, c)
  | none =>
      let r := c.setValueSafe atof memory key arg
      (if r.1 then
        ((newEntry atof memory arg none).getValue arg.type)
      else none, r.2)

/-- One call. -/
def step (c : Config) : Op → Config × List Outcome
  | .setValue locked memory key arg =>
      -- without the lock too
      let r := c.setValueSafe atof memory key arg
      (r.2, [⟨locked && r.1, none, locked, true⟩])
  | .setDefault locked memory key arg =>
      if locked then
        match c.entries.lookup key with
        | some _ => (c, [⟨true, none, true, true⟩])
        | none =>
            let r := c.setValueSafe atof memory key arg
            (r.2, [⟨r.1, none, true, true⟩])
      else (c, [⟨false, none, false, false⟩])
  | .deleteKey locked erased key =>
      if locked then
        ({ c with
            entries := remove key c.entries
            nvs := if erased then remove key c.nvs else c.nvs },
          [⟨true, none, true, true⟩])
      else (c, [⟨false, none, false, false⟩])
  | .allocGet locked t key =>
      if locked then
        (c, [⟨true, (c.entries.lookup key).bind (ConfigEntry.getValue t), true, true⟩])
      else (c, [⟨false, none, false, false⟩])
  | .allocGetDefault locked memory key arg =>
      if locked then
        let r := c.getDefault atof memory key arg
        (r.2, [⟨true, r.1, true, true⟩])
      else (c, [⟨false, none, false, false⟩])
  | .commitToNvs locked writes flags =>
      if locked then (c.commitToNvs writes flags, [⟨true, none, true, true⟩])
      else (c, [⟨false, none, false, false⟩])
  | .init reads memory => (c.init atof reads memory, [])

/-- The store. -/
def store : Runs.Machine Config Op Outcome := ⟨step atof⟩

/-- Before `config_init`, with what is in NVS. -/
def start (nvs : List (CString × NvsValue)) : Config where
  entries := []
  noCommitPending := false
  loading := false
  nvs := nvs

end Config

end Store

end SqueezeliteMuse
