/-
SqueezeliteMuse/ConfigStore.lean

The configuration cache as a finite map from keys to values.

A call is *plain* if it does not come upon one of three slips of the code:
`config_set_value` goes on without the lock and then releases it; a value that
is not supported, or for which memory is missing, is stored without its value;
and an entry that changes is looked for up to letter case, so that the entry of
another key may be replaced.

Main result: `config_map`: in a run of plain calls, every call does to the map
what its name says and nothing else, and no key has two entries.
-/
import SqueezeliteMuse.Config
import Mathlib.Data.Rat.Lemmas

namespace SqueezeliteMuse

open Keyed

namespace Config

variable {atof : CString → ℚ} {c : Config} {memory : ConfigMemory} {key : CString} {arg : ConfigArg}

/-! ### Entries -/

@[simp] theorem setFlag_type (m : Bool) (e : ConfigEntry) (flag : Bool) :
    (c.setFlag m e flag).type = e.type := by
  rw [setFlag]
  split <;> rfl

@[simp] theorem setFlag_value (m : Bool) (e : ConfigEntry) (flag : Bool) :
    (c.setFlag m e flag).value = e.value := by
  rw [setFlag]
  split <;> rfl

/-- The value of an entry does not depend on its flag. -/
theorem getValue_congr {e e' : ConfigEntry} (ht : e.type = e'.type) (hv : e.value = e'.value)
    (t : NvsType) : e.getValue t = e'.getValue t := by
  rw [ConfigEntry.getValue, ConfigEntry.getValue, ConfigEntry.itemType, ConfigEntry.itemType, ht, hv]

theorem trunc_intCast (z : ℤ) : trunc z = z := by simp [trunc]

theorem trunc_natCast (n : ℕ) : trunc n = n := by simp [trunc]

theorem uint8_ofInt (v : UInt8) : UInt8.ofInt v.toNat = v := by
  have hlt := v.toNat_lt
  have hmod : (v.toNat : ℤ) % 2 ^ 8 = v.toNat := by omega
  rw [UInt8.ofInt, hmod, Int.toNat_natCast, UInt8.ofNat_toNat]

theorem uint16_ofInt (v : UInt16) : UInt16.ofInt v.toNat = v := by
  have hlt := v.toNat_lt
  have hmod : (v.toNat : ℤ) % 2 ^ 16 = v.toNat := by omega
  rw [UInt16.ofInt, hmod, Int.toNat_natCast, UInt16.ofNat_toNat]

theorem uint32_ofInt (v : UInt32) : UInt32.ofInt v.toNat = v := by
  have hlt := v.toNat_lt
  have hmod : (v.toNat : ℤ) % 2 ^ 32 = v.toNat := by omega
  rw [UInt32.ofInt, hmod, Int.toNat_natCast, UInt32.ofNat_toNat]

/-- A supported value is read as it was set. -/
theorem getValue_item {v : NvsValue} {item : CJson} (h : (ConfigArg.value v).item = some item)
    (chg : Option Bool) :
    ConfigEntry.getValue v.type ⟨some v.type, some item, chg⟩ = some v := by
  cases v with
  | u8 v =>
      cases h
      show some (NvsValue.u8 (.ofInt (trunc (v.toNat : ℕ)))) = _
      rw [trunc_natCast, uint8_ofInt]
  | i8 v =>
      cases h
      show some (NvsValue.i8 (.ofInt (trunc (v.toInt : ℤ)))) = _
      rw [trunc_intCast, Int8.ofInt_toInt]
  | u16 v =>
      cases h
      show some (NvsValue.u16 (.ofInt (trunc (v.toNat : ℕ)))) = _
      rw [trunc_natCast, uint16_ofInt]
  | i16 v =>
      cases h
      show some (NvsValue.i16 (.ofInt (trunc (v.toInt : ℤ)))) = _
      rw [trunc_intCast, Int16.ofInt_toInt]
  | u32 v =>
      cases h
      show some (NvsValue.u32 (.ofInt (trunc (v.toNat : ℕ)))) = _
      rw [trunc_natCast, uint32_ofInt]
  | i32 v =>
      cases h
      show some (NvsValue.i32 (.ofInt (trunc (v.toInt : ℤ)))) = _
      rw [trunc_intCast, Int32.ofInt_toInt]
  | u64 v => cases h
  | i64 v => cases h
  | str s =>
      cases h
      rfl

/-- With memory and a supported value of the type there was, the new entry holds the value. -/
theorem newEntry_value {v : NvsValue} {item : CJson} {existing : Option ConfigEntry}
    (ht : memory.type = true) (hv : memory.value = true)
    (hitem : (ConfigArg.value v).item = some item)
    (hold : ∀ e, existing = some e → e.itemType = v.type) :
    newEntry atof memory (.value v) existing = ⟨some v.type, some item, none⟩ := by
  have hplain : (⟨grant memory.type v.type, (ConfigArg.value v).item.bind (grant memory.value ·),
      none⟩ : ConfigEntry) = ⟨some v.type, some item, none⟩ := by
    rw [ht, hv, hitem]
    rfl
  cases v with
  | str s =>
      cases existing with
      | none => exact hplain
      | some e =>
          have hstr : e.itemType = .str := hold e rfl
          rw [newEntry, if_neg (not_not.mpr hstr)]
          exact hplain
  | _ => exact hplain

/-! ### `config_set_value_safe` -/

/-- The entry that takes the place of an existing one. -/
def changedEntry (atof : CString → ℚ) (memory : ConfigMemory) (arg : ConfigArg)
    (existing : ConfigEntry) : ConfigEntry :=
  { newEntry atof memory arg (some existing) with chg := grant memory.chg existing.isChanged }

/-- All that it does: nothing, replace an entry, or add one. -/
theorem setValueSafe_cases (atof : CString → ℚ) (c : Config) (memory : ConfigMemory)
    (key : CString) (arg : ConfigArg) :
    (memory.entry = false ∧ c.setValueSafe atof memory key arg = (false, c)) ∨
    (∃ e, c.entries.lookup key = some e ∧ changedEntry atof memory arg e = e ∧
      c.setValueSafe atof memory key arg = (true, c)) ∨
    (∃ e, c.entries.lookup key = some e ∧ changedEntry atof memory arg e ≠ e ∧
      c.setValueSafe atof memory key arg = (true, { c.raiseFlag true with
        entries :=
          if memory.key then
            replaceFirst (sameName key)
              (key, c.setFlag memory.flag (changedEntry atof memory arg e) true) c.entries
          else c.entries })) ∨
    (c.entries.lookup key = none ∧
      c.setValueSafe atof memory key arg = (true, { c.raiseFlag true with
        entries :=
          if memory.key then
            c.entries ++ [(key, c.setFlag memory.flag (newEntry atof memory arg none) true)]
          else c.entries })) := by
  by_cases hentry : memory.entry = false
  · exact .inl ⟨hentry, by rw [setValueSafe, if_pos hentry]⟩
  rcases hold : c.entries.lookup key with - | e
  · refine .inr (.inr (.inr ⟨rfl, ?_⟩))
    rw [setValueSafe, if_neg hentry]
    simp only [hold]
  · by_cases hsame : changedEntry atof memory arg e = e
    · refine .inr (.inl ⟨e, rfl, hsame, ?_⟩)
      rw [setValueSafe, if_neg hentry]
      simp only [hold]
      exact if_pos hsame
    · refine .inr (.inr (.inl ⟨e, rfl, hsame, ?_⟩))
      rw [setValueSafe, if_neg hentry]
      simp only [hold]
      exact if_neg hsame

@[simp] theorem raiseFlag_entries (flag : Bool) : (c.raiseFlag flag).entries = c.entries := by
  rw [raiseFlag, raiseChange]
  split
  · split <;> rfl
  · rfl

@[simp] theorem raiseFlag_nvs (flag : Bool) : (c.raiseFlag flag).nvs = c.nvs := by
  rw [raiseFlag, raiseChange]
  split
  · split <;> rfl
  · rfl

@[simp] theorem raiseFlag_loading (flag : Bool) : (c.raiseFlag flag).loading = c.loading := by
  rw [raiseFlag, raiseChange]
  split
  · split <;> rfl
  · rfl

/-! ### The contract -/

/-- No key has two entries. -/
def Distinct (c : Config) : Prop := (c.entries.map Prod.fst).Nodup

/-- The value of a key, read as what it should be. -/
def reads (c : Config) (key : CString) (t : NvsType) : Option NvsValue :=
  (c.entries.lookup key).bind (ConfigEntry.getValue t)

/-- Setting fails: without memory for the entry, its fields or its key, or for a type that is not
supported. -/
def SetFails (memory : ConfigMemory) (arg : ConfigArg) : Prop :=
  memory.entry = false ∨ memory.type = false ∨ memory.value = false ∨ memory.key = false ∨
    arg.item = none

/-- What setting should do: to the other keys nothing; if it fails, nothing; if
it says that it did, the key has the value, where it had one of that type or none. -/
structure SetsOnly (c c' : Config) (memory : ConfigMemory) (key : CString) (arg : ConfigArg)
    (ok : Bool) : Prop where
  others_eq : others key c'.entries = others key c.entries
  fails : SetFails memory arg → c'.entries = c.entries
  reads_eq : ok = true → ∀ v, arg = .value v →
    (∀ e, c.entries.lookup key = some e → e.itemType = v.type) → c'.reads key v.type = some v

/-- What each call should do, beside giving back no lock that it does not have. -/
def Does (c c' : Config) (o : Outcome) : Op → Prop
  | .setValue locked memory key arg =>
      SetsOnly c c' memory key arg o.ok ∧ (locked = false → c'.entries = c.entries)
  | .setDefault locked memory key arg =>
      if locked = true ∧ c.entries.lookup key = none then SetsOnly c c' memory key arg o.ok
      else c'.entries = c.entries
  | .allocGetDefault locked memory key arg =>
      if locked = true ∧ c.entries.lookup key = none then
        SetsOnly c c' memory key arg o.value.isSome
      else c'.entries = c.entries
  | .allocGet locked t key =>
      c'.entries = c.entries ∧ o.value = if locked then c.reads key t else none
  | .deleteKey locked _ key =>
      others key c'.entries = others key c.entries ∧
        if locked then c'.entries.lookup key = none else c'.entries = c.entries
  | .commitToNvs .. | .init .. => True

/-- A call keeps to its contract, and no key gets a second entry. -/
def Honours (atof : CString → ℚ) (c : Config) (op : Op) : Prop :=
  (∀ o ∈ (c.step atof op).2,
    (o.given = true → o.taken = true) ∧ Does c (c.step atof op).1 o op) ∧
  Distinct (c.step atof op).1

/-! ### Plain calls -/

/-- Setting does not come upon a slip: there is no memory for an entry at all; or there is
for all that is needed, the type is supported, and an entry that changes is the first whose
name is the same up to letter case. -/
def PlainSet (atof : CString → ℚ) (c : Config) (memory : ConfigMemory) (key : CString)
    (arg : ConfigArg) : Prop :=
  memory.entry = false ∨
    ((arg.item).isSome ∧ memory.type = true ∧ memory.value = true) ∧
      ((∃ e, c.entries.lookup key = some e ∧ changedEntry atof memory arg e = e) ∨
        memory.key = true ∧
          (c.entries.lookup key = none ∨ firstKey (sameName key) c.entries = some key))

/-- A call that does not come upon a slip. -/
def Plain (atof : CString → ℚ) (c : Config) : Op → Prop
  | .setValue locked memory key arg => locked = true ∧ PlainSet atof c memory key arg
  | .setDefault locked memory key arg | .allocGetDefault locked memory key arg =>
      locked = true → c.entries.lookup key = none → PlainSet atof c memory key arg
  | _ => True

/-! ### Each call -/

/-- What `config_set_value_safe` leaves in the cache, if it sets. -/
theorem reads_setFlag {c' : Config} {m : Bool} {e : ConfigEntry} {v : NvsValue} {item : CJson}
    (hitem : (ConfigArg.value v).item = some item)
    (ht : e.type = some v.type) (hv : e.value = some item)
    (hc' : c'.entries.lookup key = some (c.setFlag m e true)) : c'.reads key v.type = some v := by
  rw [reads, hc', Option.bind_some, ← getValue_item hitem none]
  exact getValue_congr (by rw [setFlag_type, ht]) (by rw [setFlag_value, hv]) _

/-- It has no entry to return only where there is no memory for one. -/
theorem entry_of_setValueSafe {c' : Config}
    (h : c.setValueSafe atof memory key arg = (true, c')) : memory.entry = true := by
  rcases he : memory.entry with - | -
  · rw [setValueSafe, if_pos he] at h
    cases h
  · rfl

theorem not_setFails (hentry : memory.entry = true) (hitem : arg.item.isSome)
    (ht : memory.type = true) (hv : memory.value = true) (hkey : memory.key = true) :
    ¬ SetFails memory arg := by
  simp [SetFails, hentry, ht, hv, hkey, Option.isSome_iff_ne_none.mp hitem]

theorem setValueSafe_setsOnly (h : PlainSet atof c memory key arg) :
    SetsOnly c (c.setValueSafe atof memory key arg).2 memory key arg
      (c.setValueSafe atof memory key arg).1 := by
  rcases setValueSafe_cases atof c memory key arg with
    ⟨-, heq⟩ | ⟨e, hold, hsame, heq⟩ | ⟨e, hold, hsame, heq⟩ | ⟨hold, heq⟩
  · -- no memory for an entry
    rw [heq]
    exact ⟨rfl, fun _ => rfl, fun hok => absurd hok Bool.false_ne_true⟩
  · -- what is set is there already
    have hentry := entry_of_setValueSafe heq
    obtain ⟨⟨hitem, ht, hv⟩, -⟩ := h.resolve_left (by simp [hentry])
    rw [heq]
    refine ⟨rfl, fun _ => rfl, ?_⟩
    rintro - v rfl htype
    obtain ⟨item, hitem⟩ := Option.isSome_iff_exists.mp hitem
    have hnew : newEntry atof memory (.value v) (some e) = ⟨some v.type, some item, none⟩ :=
      newEntry_value ht hv hitem fun e' he' => htype e' (hold.trans he')
    rw [reads, hold, Option.bind_some, ← getValue_item hitem none]
    rw [changedEntry, hnew] at hsame
    rw [← hsame]
    exact getValue_congr rfl rfl _
  · -- an entry that changes is the first that is looked at
    have hentry := entry_of_setValueSafe heq
    obtain ⟨⟨hitem, ht, hv⟩, hslot⟩ := h.resolve_left (by simp [hentry])
    obtain ⟨hkey, hfirst⟩ : memory.key = true ∧ firstKey (sameName key) c.entries = some key := by
      rcases hslot with ⟨e', hold', hsame'⟩ | ⟨hkey, hnone | hfirst⟩
      · cases hold.symm.trans hold'
        exact absurd hsame' hsame
      · rw [hold] at hnone
        cases hnone
      · exact ⟨hkey, hfirst⟩
    rw [heq]
    simp only [hkey, if_true]
    refine ⟨others_replaceFirst hfirst,
      fun hfails => absurd hfails (not_setFails hentry hitem ht hv hkey), ?_⟩
    rintro - v rfl htype
    obtain ⟨item, hitem⟩ := Option.isSome_iff_exists.mp hitem
    have hnew : newEntry atof memory (.value v) (some e) = ⟨some v.type, some item, none⟩ :=
      newEntry_value ht hv hitem fun e' he' => htype e' (hold.trans he')
    refine reads_setFlag hitem ?_ ?_ (lookup_replaceFirst hfirst)
    · rw [changedEntry, hnew]
    · rw [changedEntry, hnew]
  · -- a new key
    have hentry := entry_of_setValueSafe heq
    obtain ⟨⟨hitem, ht, hv⟩, hslot⟩ := h.resolve_left (by simp [hentry])
    have hkey : memory.key = true := by
      rcases hslot with ⟨e', hold', -⟩ | ⟨hkey, -⟩
      · rw [hold] at hold'
        cases hold'
      · exact hkey
    rw [heq]
    simp only [hkey, if_true]
    refine ⟨others_append, fun hfails => absurd hfails (not_setFails hentry hitem ht hv hkey), ?_⟩
    rintro - v rfl -
    obtain ⟨item, hitem⟩ := Option.isSome_iff_exists.mp hitem
    have hnew : newEntry atof memory (.value v) none = ⟨some v.type, some item, none⟩ :=
      newEntry_value ht hv hitem (by simp)
    refine reads_setFlag hitem ?_ ?_ (lookup_append hold)
    · rw [hnew]
    · rw [hnew]

theorem setValueSafe_distinct (hc : Distinct c) (h : PlainSet atof c memory key arg) :
    Distinct (c.setValueSafe atof memory key arg).2 := by
  rcases setValueSafe_cases atof c memory key arg with
    ⟨-, heq⟩ | ⟨e, hold, hsame, heq⟩ | ⟨e, hold, hsame, heq⟩ | ⟨hold, heq⟩
  · rw [heq]
    exact hc
  · rw [heq]
    exact hc
  · have hentry := entry_of_setValueSafe heq
    rw [heq, Distinct]
    split
    · rcases (h.resolve_left (by simp [hentry])).2 with ⟨e', hold', hsame'⟩ | ⟨-, hnone | hfirst⟩
      · cases hold.symm.trans hold'
        exact absurd hsame' hsame
      · rw [hold] at hnone
        cases hnone
      · rwa [keys_replaceFirst hfirst]
    · exact hc
  · rw [heq, Distinct]
    split
    · exact nodup_append hc hold
    · exact hc

variable (atof memory arg) in
/-- A key that is not there is appended, unless nothing is. -/
theorem setValueSafe_new (hold : c.entries.lookup key = none) :
    (c.setValueSafe atof memory key arg).2.entries = c.entries ∨
      ∃ e, (c.setValueSafe atof memory key arg).2.entries = c.entries ++ [(key, e)] := by
  rcases setValueSafe_cases atof c memory key arg with
    ⟨-, heq⟩ | ⟨e, hold', -⟩ | ⟨e, hold', -⟩ | ⟨-, heq⟩
  · exact .inl (by rw [heq])
  · rw [hold] at hold'
    cases hold'
  · rw [hold] at hold'
    cases hold'
  · rw [heq]
    simp only
    split
    · exact .inr ⟨_, rfl⟩
    · exact .inl rfl

/-- Loading sets each key once. -/
theorem loadLoop_distinct {reads : ℕ → Bool} {memory : ℕ → ConfigMemory} (hc : Distinct c)
    {rest : List (CString × NvsValue)} (hrest : (rest.map Prod.fst).Nodup)
    (hnew : ∀ e ∈ rest, c.entries.lookup e.1 = none) (n : ℕ) :
    Distinct (loadLoop atof n reads memory rest c) := by
  induction rest generalizing c n with
  | nil => exact hc
  | cons e rest ih =>
      obtain ⟨key, v⟩ := e
      rw [List.map_cons, List.nodup_cons] at hrest
      rw [loadLoop]
      split
      · have hkey := hnew (key, v) List.mem_cons_self
        rcases setValueSafe_new atof (memory n) (.value v) hkey with heq | ⟨e, heq⟩
        · refine ih (by rwa [Distinct, heq]) hrest.2 (fun x hx => ?_) _
          rw [heq]
          exact hnew x (List.mem_cons_of_mem _ hx)
        · refine ih (by rw [Distinct, heq]; exact nodup_append hc hkey) hrest.2 (fun x hx => ?_) _
          have hne : x.1 ≠ key := fun heq => hrest.1 (List.mem_map.mpr ⟨x, hx, heq⟩)
          rw [heq, ← lookup_others hne, others_append, lookup_others hne]
          exact hnew x (List.mem_cons_of_mem _ hx)
      · exact hc

/-- Committing changes flags, and no keys. -/
theorem commitLoop_keys (writes flags : ℕ → Bool) (l : List (CString × ConfigEntry))
    (nvs : List (CString × NvsValue)) :
    (c.commitLoop writes flags l nvs).1.map Prod.fst = l.map Prod.fst := by
  induction l generalizing writes flags nvs with
  | nil => rfl
  | cons e l ih =>
      obtain ⟨key, e⟩ := e
      rw [commitLoop]
      split
      · split
        · rw [List.map_cons, List.map_cons, ih]
        · rw [List.map_cons, List.map_cons, ih]
      · rw [List.map_cons, List.map_cons, ih]

/-! ### Runs -/

/-- The invariant: distinct keys, in the cache and in NVS. -/
def Maps (c : Config) : Prop := Distinct c ∧ (c.nvs.map Prod.fst).Nodup

theorem commitLoop_nvs (writes flags : ℕ → Bool) (l : List (CString × ConfigEntry))
    {nvs : List (CString × NvsValue)} (h : (nvs.map Prod.fst).Nodup) :
    ((c.commitLoop writes flags l nvs).2.map Prod.fst).Nodup := by
  induction l generalizing writes flags nvs with
  | nil => exact h
  | cons e l ih =>
      obtain ⟨key, e⟩ := e
      rw [commitLoop]
      split
      · split
        · exact ih _ _ (nodup_put h)
        · exact ih _ _ h
      · exact ih _ _ h

@[simp] theorem raiseChange_entries (found : Bool) :
    (c.raiseChange found).entries = c.entries := by
  rw [raiseChange]
  split <;> rfl

@[simp] theorem raiseChange_nvs (found : Bool) : (c.raiseChange found).nvs = c.nvs := by
  rw [raiseChange]
  split <;> rfl

@[simp] theorem setValueSafe_nvs (memory : ConfigMemory) (key : CString) (arg : ConfigArg) :
    (c.setValueSafe atof memory key arg).2.nvs = c.nvs := by
  rcases setValueSafe_cases atof c memory key arg with
    ⟨-, heq⟩ | ⟨e, -, -, heq⟩ | ⟨e, -, -, heq⟩ | ⟨-, heq⟩
  all_goals simp [heq]

@[simp] theorem loadLoop_nvs (n : ℕ) (reads : ℕ → Bool) (memory : ℕ → ConfigMemory)
    (rest : List (CString × NvsValue)) (c : Config) :
    (loadLoop atof n reads memory rest c).nvs = c.nvs := by
  induction rest generalizing n c with
  | nil => rfl
  | cons e rest ih =>
      rw [loadLoop]
      split
      · rw [ih, setValueSafe_nvs]
      · rfl

/-- The default is set only where the key has no entry. -/
theorem getDefault_of_some {e : ConfigEntry} (h : c.entries.lookup key = some e) :
    c.getDefault atof memory key arg = (e.getValue arg.type, c) := by
  simp only [getDefault, h]

variable (atof memory arg) in
theorem getDefault_of_none (h : c.entries.lookup key = none) :
    (c.getDefault atof memory key arg).2 = (c.setValueSafe atof memory key arg).2 ∧
      ((c.getDefault atof memory key arg).1.isSome →
        (c.setValueSafe atof memory key arg).1 = true) := by
  simp only [getDefault, h, true_and]
  split
  · rename_i hset
    exact fun _ => hset
  · exact fun hsome => absurd hsome (by simp)

/-- A plain call keeps the keys distinct. -/
theorem step_maps (op : Op) (hc : Maps c) (h : Plain atof c op) : Maps (c.step atof op).1 := by
  obtain ⟨hd, hn⟩ := hc
  cases op with
  | setValue locked memory key arg =>
      exact ⟨setValueSafe_distinct hd h.2, by simpa [step] using hn⟩
  | setDefault locked memory key arg =>
      cases locked with
      | false => exact ⟨hd, hn⟩
      | true =>
          rcases hold : c.entries.lookup key with - | e
          · simp only [step, hold, if_true]
            exact ⟨setValueSafe_distinct hd (h rfl hold), by simpa using hn⟩
          · simp only [step, hold, if_true]
            exact ⟨hd, hn⟩
  | deleteKey locked erased key =>
      cases locked with
      | false => exact ⟨hd, hn⟩
      | true =>
          refine ⟨nodup_remove hd, ?_⟩
          cases erased with
          | false => exact hn
          | true => exact nodup_remove hn
  | allocGet locked t key => cases locked <;> exact ⟨hd, hn⟩
  | allocGetDefault locked memory key arg =>
      cases locked with
      | false => exact ⟨hd, hn⟩
      | true =>
          rcases hold : c.entries.lookup key with - | e
          · show Maps (c.getDefault atof memory key arg).2
            rw [(getDefault_of_none atof memory arg hold).1]
            exact ⟨setValueSafe_distinct hd (h rfl hold), by simpa using hn⟩
          · show Maps (c.getDefault atof memory key arg).2
            rw [getDefault_of_some hold]
            exact ⟨hd, hn⟩
  | commitToNvs locked writes flags =>
      cases locked with
      | false => exact ⟨hd, hn⟩
      | true =>
          refine ⟨?_, ?_⟩
          · show Distinct (c.commitToNvs writes flags)
            rw [commitToNvs, Distinct, raiseChange_entries, commitLoop_keys]
            exact hd
          · show ((c.commitToNvs writes flags).nvs.map Prod.fst).Nodup
            rw [commitToNvs, raiseChange_nvs]
            exact commitLoop_nvs _ _ _ hn
  | init reads memory =>
      refine ⟨loadLoop_distinct (c := ⟨[], false, true, c.nvs⟩) List.nodup_nil hn
        (fun _ _ => rfl) 0, ?_⟩
      show ((loadLoop atof 0 reads memory c.nvs _).nvs.map Prod.fst).Nodup
      rw [loadLoop_nvs]
      exact hn

/-- A plain call does what it should. -/
theorem step_does (op : Op) (hc : Maps c) (h : Plain atof c op) :
    ∀ o ∈ (c.step atof op).2,
      (o.given = true → o.taken = true) ∧ Does c (c.step atof op).1 o op := by
  intro o ho
  cases op with
  | setValue locked memory key arg =>
      obtain ⟨rfl, hset⟩ := h
      obtain rfl := List.mem_singleton.mp ho
      exact ⟨fun _ => rfl, setValueSafe_setsOnly hset, fun hlock => absurd hlock (by decide)⟩
  | setDefault locked memory key arg =>
      cases locked with
      | false =>
          obtain rfl := List.mem_singleton.mp ho
          exact ⟨fun hgiven => hgiven, rfl⟩
      | true =>
          rcases hold : c.entries.lookup key with - | e
          · simp only [step, hold, if_true, List.mem_singleton] at ho
            obtain rfl := ho
            simp only [step, hold, if_true, Does, and_self]
            exact ⟨by simp, setValueSafe_setsOnly (h rfl hold)⟩
          · simp only [step, hold, if_true, List.mem_singleton] at ho
            obtain rfl := ho
            simp [step, hold, Does]
  | deleteKey locked erased key =>
      cases locked with
      | false =>
          obtain rfl := List.mem_singleton.mp ho
          exact ⟨fun hgiven => hgiven, rfl, by simp [step]⟩
      | true =>
          obtain rfl := List.mem_singleton.mp ho
          refine ⟨fun _ => rfl, others_remove, ?_⟩
          simpa [step] using lookup_remove hc.1
  | allocGet locked t key =>
      cases locked with
      | false =>
          obtain rfl := List.mem_singleton.mp ho
          exact ⟨fun hgiven => hgiven, rfl, rfl⟩
      | true =>
          obtain rfl := List.mem_singleton.mp ho
          exact ⟨fun _ => rfl, rfl, rfl⟩
  | allocGetDefault locked memory key arg =>
      cases locked with
      | false =>
          obtain rfl := List.mem_singleton.mp ho
          exact ⟨fun hgiven => hgiven, rfl⟩
      | true =>
          obtain rfl := List.mem_singleton.mp ho
          refine ⟨fun _ => rfl, ?_⟩
          rcases hold : c.entries.lookup key with - | e
          · obtain ⟨hstate, hvalue⟩ := getDefault_of_none atof memory arg hold
            have hset := setValueSafe_setsOnly (h rfl hold)
            simp only [step, if_true, Does, hold, and_self, hstate]
            exact ⟨hset.others_eq, hset.fails, fun hok => hset.reads_eq (hvalue hok)⟩
          · simp [step, Does, hold, getDefault_of_some hold]
  | commitToNvs locked writes flags =>
      cases locked with
      | false =>
          obtain rfl := List.mem_singleton.mp ho
          exact ⟨fun hgiven => hgiven, trivial⟩
      | true =>
          obtain rfl := List.mem_singleton.mp ho
          exact ⟨fun _ => rfl, trivial⟩
  | init reads memory => cases ho

/-- In every run of plain calls, from any content of NVS, each call does to the
map of keys what its name says and nothing else, no key gets a second entry, a call that fails leaves
all entries, and no lock is given back that was not taken. -/
theorem config_map (atof : CString → ℚ) {nvs : List (CString × NvsValue)} {ops : List Op}
    (hnvs : (nvs.map Prod.fst).Nodup) (h : (store atof).Along (Plain atof) (start nvs) ops) :
    (store atof).Along (Honours atof) (start nvs) ops := by
  refine (store atof).along_of_invariant (I := Maps) ?_ ?_ ⟨List.nodup_nil, hnvs⟩ h
  · exact fun c op hc hop => step_maps op hc hop
  · exact fun c op hc hop => ⟨step_does op hc hop, (step_maps op hc hop).1⟩

/-- "A" is set, then "a" twice: the second time "a" changes, and the entry of "A" goes. -/
theorem not_config_map :
    ¬ ∀ (atof : CString → ℚ) (nvs : List (CString × NvsValue)) (ops : List Op),
      (nvs.map Prod.fst).Nodup → (store atof).Along (Honours atof) (start nvs) ops := by
  intro h
  obtain ⟨-, -, ⟨hdoes, -⟩, -⟩ := h (fun _ => 0) []
    [.setValue true .enough [0x41] (.value (.u8 1)), .setValue true .enough [0x61] (.value (.u8 2)),
      .setValue true .enough [0x61] (.value (.u8 3))] List.nodup_nil
  have hothers := (hdoes _ List.mem_cons_self).2.1.others_eq
  have hlookup := congrArg (fun l => (l.lookup [0x41]).isSome) hothers
  revert hlookup
  decide

/-- A string that is set, read, refused and set again. -/
theorem config_map_run :
    (store fun _ => 0).Along (Honours fun _ => 0) (start [([0x6b], .u8 7)])
      [.init (fun _ => true) (fun _ => .enough),
        .setValue true .enough [0x41] (.value (.str [0x78])),
        .setValue true ⟨false, true, true, true, true, true⟩ [0x41] (.value (.str [])),
        .setValue true .enough [0x41] (.value (.str [0x79])), .allocGet true .str [0x41],
        .deleteKey true true [0x6b]] := by
  refine config_map _ (by decide) ⟨trivial, ⟨rfl, ?_⟩, ⟨rfl, .inl rfl⟩, ⟨rfl, ?_⟩, trivial, trivial,
    trivial⟩
  · exact .inr ⟨⟨rfl, rfl, rfl⟩, .inr ⟨rfl, .inl (by decide)⟩⟩
  · exact .inr ⟨⟨rfl, rfl, rfl⟩, .inr ⟨rfl, .inr (by decide)⟩⟩

end Config

end SqueezeliteMuse
