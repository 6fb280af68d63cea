/-
SqueezeliteMuse/ConfigCommit.lean

What is in NVS when no commit is pending.

The state of change is held twice: each entry has its flag, and the bit
`CONFIG_NO_COMMIT_PENDING` stands for all of them.  `config_commit_to_nvs` sets
the bit at its end whatever became of the entries, so a value that could not be
stored stays marked, but nothing tells the timer to try again.

Main result: `committed_in_nvs`: in a run in which every commit stores what it
has to, and no call comes upon a slip that `Plain` names, a bit that is set
means that every entry is in NVS and none is marked.
-/
import SqueezeliteMuse.ConfigStore

namespace SqueezeliteMuse

open Keyed

namespace Config

variable {atof : CString → ℚ} {c : Config} {memory : ConfigMemory} {key : CString} {arg : ConfigArg}

/-! ### Entries and NVS -/

/-- The entry has a value of the type that it says. -/
def Readable (e : ConfigEntry) : Prop := ∃ v, e.getValue e.itemType = some v

/-- NVS has the value of the entry. -/
def Stored (nvs : List (CString × NvsValue)) (x : CString × ConfigEntry) : Prop :=
  ∃ v, x.2.getValue x.2.itemType = some v ∧ nvs.lookup x.1 = some v

theorem itemType_setFlag (m : Bool) (e : ConfigEntry) (flag : Bool) :
    (c.setFlag m e flag).itemType = e.itemType := by
  rw [ConfigEntry.itemType, setFlag_type, ConfigEntry.itemType]

theorem getValue_setFlag (m : Bool) (e : ConfigEntry) (flag : Bool) (t : NvsType) :
    (c.setFlag m e flag).getValue t = e.getValue t :=
  getValue_congr (setFlag_type m e flag) (setFlag_value m e flag) t

theorem readable_setFlag {m : Bool} {e : ConfigEntry} {flag : Bool} (h : Readable e) :
    Readable (c.setFlag m e flag) := by
  rwa [Readable, itemType_setFlag, getValue_setFlag]

/-- A flag that is taken down is not up, and one that is put up is not down. -/
theorem setFlag_chg (m : Bool) (e : ConfigEntry) (flag : Bool) :
    (c.setFlag m e flag).chg ≠ some (!(flag && !c.loading)) := by
  rcases hchg : e.chg with - | b
  · cases m <;> cases flag <;> cases hl : c.loading <;> simp [setFlag, hchg, grant, hl]
  · cases flag <;> cases hl : c.loading <;> simp [setFlag, hchg, hl]

/-- A number can be read as any type that a readable entry has, if that is not a string. -/
theorem readable_number {e : ConfigEntry} (h : Readable e) (hstr : e.itemType ≠ .str) (d : ℚ)
    (chg : Option Bool) : Readable ⟨some e.itemType, some (.number d), chg⟩ := by
  obtain ⟨v, hv⟩ := h
  rcases hval : e.value with - | item
  · simp [ConfigEntry.getValue, hval] at hv
  · rcases ht : e.itemType with - | - | - | - | - | - | - | - | - | - | - | -
    all_goals first
      | exact absurd ht hstr
      | exact ⟨_, rfl⟩
      | simp [ConfigEntry.getValue, hval, ht] at hv

/-- There is no memory for an entry, or there is for its fields too, and its type is supported. -/
def Keeps (memory : ConfigMemory) (arg : ConfigArg) : Prop :=
  memory.entry = false ∨ (arg.item).isSome ∧ memory.type = true ∧ memory.value = true

/-- Only a string looks at the entry that there is. -/
theorem newEntry_of_not_str {v : NvsValue} (h : v.type ≠ .str) (existing : Option ConfigEntry) :
    newEntry atof memory (.value v) existing = newEntry atof memory (.value v) none := by
  cases v with
  | str s => exact absurd rfl h
  | _ => rfl

/-- What is set can be read, beside a readable entry of its key. -/
theorem newEntry_readable {existing : Option ConfigEntry} (hitem : (arg.item).isSome)
    (ht : memory.type = true) (hv : memory.value = true)
    (hold : ∀ e, existing = some e → Readable e) : Readable (newEntry atof memory arg existing) := by
  obtain ⟨item, hitem⟩ := Option.isSome_iff_exists.mp hitem
  cases arg with
  | value v =>
      have hplain : ∀ existing : Option ConfigEntry,
          (∀ e, existing = some e → e.itemType = v.type) →
          Readable (newEntry atof memory (.value v) existing) := by
        intro existing hsame
        rw [newEntry_value ht hv hitem hsame]
        exact ⟨v, getValue_item hitem none⟩
      by_cases hstr : v.type = .str
      · rcases existing with - | e
        · exact hplain none (by simp)
        by_cases hsame : e.itemType = .str
        · exact hplain (some e) (by simp [hsame, hstr])
        · -- the string is read as a number of the type there was
          obtain ⟨s, rfl⟩ : ∃ s, v = .str s := by
            cases v with
            | str s => exact ⟨s, rfl⟩
            | _ => cases hstr
          have hnum : newEntry atof memory (.value (.str s)) (some e) =
              ⟨some e.itemType, some (.number (atof s)), none⟩ := by
            rw [newEntry, if_pos hsame, ht, hv]
            rfl
          rw [hnum]
          exact readable_number (hold e rfl) hsame _ _
      · rw [newEntry_of_not_str hstr]
        exact hplain none (by simp)
  | blob => cases hitem
  | any => cases hitem

/-! ### The loops -/

/-- A commit writes the keys of the cache only. -/
theorem commitLoop_frame {writes flags : ℕ → Bool} {l : List (CString × ConfigEntry)}
    {nvs : List (CString × NvsValue)} (h : l.lookup key = none) :
    (c.commitLoop writes flags l nvs).2.lookup key = nvs.lookup key := by
  induction l generalizing writes flags nvs with
  | nil => rfl
  | cons x l ih =>
      obtain ⟨k, e⟩ := x
      have hne : key ≠ k := fun heq => lookup_eq_none.mp h _ List.mem_cons_self heq.symm
      rw [lookup_cons_of_ne hne] at h
      rw [commitLoop]
      split
      · split
        · rw [ih h, lookup_put_of_ne hne]
        · exact ih h
      · exact ih h

/-- The entries that a commit has to store are stored. -/
def Writes (writes : ℕ → Bool) (l : List (CString × ConfigEntry)) : Prop :=
  ∀ i x, l[i]? = some x → x.2.isChanged = true → writes i = true

/-- Then all entries are in NVS, and none is marked. -/
theorem commitLoop_stored {writes : ℕ → Bool} (flags : ℕ → Bool) {l : List (CString × ConfigEntry)}
    {nvs : List (CString × NvsValue)} (hl : (l.map Prod.fst).Nodup) (hw : Writes writes l)
    (hread : ∀ x ∈ l, Readable x.2) (hclean : ∀ x ∈ l, x.2.chg = some false → Stored nvs x) :
    ∀ x ∈ (c.commitLoop writes flags l nvs).1,
      x.2.chg ≠ some true ∧ Stored (c.commitLoop writes flags l nvs).2 x := by
  induction l generalizing writes flags nvs with
  | nil => exact fun x hx => absurd hx (by simp [commitLoop])
  | cons y l ih =>
      obtain ⟨k, e⟩ := y
      rw [List.map_cons, List.nodup_cons] at hl
      have hkey : l.lookup k = none :=
        lookup_eq_none.mpr fun x hx heq => hl.1 (List.mem_map.mpr ⟨x, hx, heq⟩)
      have hw' : Writes (fun i => writes (i + 1)) l := fun i x hx => hw (i + 1) x (by simpa using hx)
      have hread' : ∀ x ∈ l, Readable x.2 := fun x hx => hread x (List.mem_cons_of_mem _ hx)
      obtain ⟨v, hv⟩ := hread _ List.mem_cons_self
      rcases hchg : e.isChanged with - | -
      · -- the entry is in NVS already, and stays there
        have hfalse : e.chg = some false := by
          rcases h : e.chg with - | b
          · simp [ConfigEntry.isChanged, h] at hchg
          · simpa [ConfigEntry.isChanged, h] using hchg
        obtain ⟨w, hw0, hnvs⟩ := hclean _ List.mem_cons_self hfalse
        simp only [commitLoop, hchg]
        rintro x (- | ⟨-, hx⟩)
        · refine ⟨by simp [hfalse], w, hw0, ?_⟩
          rw [commitLoop_frame hkey, hnvs]
        · exact ih _ hl.2 hw' hread' (fun x hx => hclean x (List.mem_cons_of_mem _ hx)) x hx
      · have hwrite : writes 0 = true := hw 0 (k, e) rfl hchg
        simp only at hv
        simp only [commitLoop, hchg, hv, hwrite, if_true]
        rintro x (- | ⟨-, hx⟩)
        · refine ⟨by simpa using setFlag_chg (c := c) (flags 0) e false, v, ?_, ?_⟩
          · rw [itemType_setFlag, getValue_setFlag, hv]
          · rw [commitLoop_frame hkey, lookup_put]
        · refine ih _ hl.2 hw' hread' (fun x hx hfalse => ?_) x hx
          obtain ⟨w, hw0, hnvs⟩ := hclean x (List.mem_cons_of_mem _ hx) hfalse
          have hne : x.1 ≠ k := fun heq => hl.1 (List.mem_map.mpr ⟨x, hx, heq⟩)
          exact ⟨w, hw0, by rw [lookup_put_of_ne hne, hnvs]⟩

variable (atof) in
/-- While the configuration is loaded, what is set is what NVS has. -/
theorem loadLoop_stored (reads : ℕ → Bool) {memory : ℕ → ConfigMemory}
    {rest : List (CString × NvsValue)} {n : ℕ} (hload : c.loading = true)
    (hbit : c.noCommitPending = false) (hrest : (rest.map Prod.fst).Nodup)
    (hnew : ∀ y ∈ rest, c.entries.lookup y.1 = none)
    (hkeeps : ∀ i y, rest[i]? = some y → Keeps (memory (n + i)) (.value y.2))
    (hnvs : ∀ y ∈ rest, c.nvs.lookup y.1 = some y.2) (hc : ∀ x ∈ c.entries, Stored c.nvs x) :
    (loadLoop atof n reads memory rest c).noCommitPending = false ∧
      ∀ x ∈ (loadLoop atof n reads memory rest c).entries, Stored c.nvs x := by
  induction rest generalizing c n with
  | nil => exact ⟨hbit, hc⟩
  | cons y rest ih =>
      obtain ⟨k, v⟩ := y
      rw [List.map_cons, List.nodup_cons] at hrest
      rw [loadLoop]
      split
      swap
      · exact ⟨hbit, hc⟩
      have hkey := hnew (k, v) List.mem_cons_self
      have hkeep : Keeps (memory n) (.value v) := by simpa using hkeeps 0 (k, v) rfl
      have hkeeps' : ∀ i y, rest[i]? = some y → Keeps (memory (n + 1 + i)) (.value y.2) := by
        intro i y hy
        have h := hkeeps (i + 1) y (by simpa using hy)
        rwa [show n + (i + 1) = n + 1 + i from by omega] at h
      have hnew' : ∀ y ∈ rest, c.entries.lookup y.1 = none := fun y hy =>
        hnew y (List.mem_cons_of_mem _ hy)
      have hnvs' : ∀ y ∈ rest, c.nvs.lookup y.1 = some y.2 := fun y hy =>
        hnvs y (List.mem_cons_of_mem _ hy)
      rcases setValueSafe_cases atof c (memory n) k (.value v) with
        ⟨-, heq⟩ | ⟨e, hold, -⟩ | ⟨e, hold, -⟩ | ⟨-, heq⟩
      · rw [heq]
        exact ih hload hbit hrest.2 hnew' hkeeps' hnvs' hc
      · rw [hkey] at hold
        cases hold
      · rw [hkey] at hold
        cases hold
      · obtain ⟨hitem, ht, hv⟩ := hkeep.resolve_left (by simp [entry_of_setValueSafe heq])
        obtain ⟨item, hitem⟩ := Option.isSome_iff_exists.mp hitem
        have hraise : c.raiseFlag true = c := by simp [raiseFlag, hload]
        rw [heq, hraise]
        by_cases hmem : (memory n).key = true
        swap
        · simp only [if_neg hmem]
          exact ih hload hbit hrest.2 hnew' hkeeps' hnvs' hc
        simp only [if_pos hmem]
        refine ih (c := { c with entries := _ }) hload hbit hrest.2 (fun y hy => ?_) hkeeps' hnvs'
          (fun x hx => ?_)
        · have hne : y.1 ≠ k := fun heq => hrest.1 (List.mem_map.mpr ⟨y, hy, heq⟩)
          rw [← lookup_others hne, others_append, lookup_others hne]
          exact hnew' y hy
        · rcases List.mem_append.mp hx with hx | hx
          · exact hc x hx
          · obtain rfl := List.mem_singleton.mp hx
            refine ⟨v, ?_, hnvs (k, v) List.mem_cons_self⟩
            rw [itemType_setFlag, getValue_setFlag, newEntry_value ht hv hitem (by simp)]
            exact getValue_item hitem none

/-! ### Runs -/

/-- The invariant: an entry whose flag is down is in NVS, and with the bit set all are. -/
structure Agrees (c : Config) : Prop where
  maps : Maps c
  idle : c.loading = false
  readable : ∀ x ∈ c.entries, Readable x.2
  clean : ∀ x ∈ c.entries, x.2.chg = some false → Stored c.nvs x
  settled : c.noCommitPending = true → ∀ x ∈ c.entries, x.2.chg ≠ some true ∧ Stored c.nvs x

/-- What is set is kept, and goes to its own entry. -/
def OwnEntry (atof : CString → ℚ) (c : Config) (memory : ConfigMemory) (key : CString)
    (arg : ConfigArg) : Prop :=
  ∀ e, c.entries.lookup key = some e →
    changedEntry atof memory arg e = e ∨ firstKey (sameName key) c.entries = some key

/-- A call after which NVS is as the bit says: what is set is kept and goes to
its own entry, what is committed or loaded is stored or kept. -/
def Durable (atof : CString → ℚ) (c : Config) : Op → Prop
  | .setValue _ memory key arg => Keeps memory arg ∧ OwnEntry atof c memory key arg
  | .setDefault locked memory key arg | .allocGetDefault locked memory key arg =>
      locked = true → c.entries.lookup key = none → Keeps memory arg
  | .commitToNvs locked writes _ => locked = true → Writes writes c.entries
  | .init _ memory => ∀ i y, c.nvs[i]? = some y → Keeps (memory i) (.value y.2)
  | .deleteKey .. | .allocGet .. => True

@[simp] theorem raiseFlag_true_bit (h : c.loading = false) :
    (c.raiseFlag true).noCommitPending = false := by
  simp [raiseFlag, raiseChange, h]

/-- Entries that are readable and marked may come in while a commit is pending. -/
theorem Agrees.marked (hc : Agrees c) {l : List (CString × ConfigEntry)}
    (hl : (l.map Prod.fst).Nodup)
    (hmem : ∀ x ∈ l, x ∈ c.entries ∨ Readable x.2 ∧ x.2.chg ≠ some false) :
    Agrees { c.raiseFlag true with entries := l } := by
  obtain ⟨⟨hd, hn⟩, hidle, hread, hclean, -⟩ := hc
  refine ⟨⟨hl, by simpa using hn⟩, by simpa using hidle, fun x hx => ?_, fun x hx hfalse => ?_,
    fun hbit => absurd hbit (by simp [hidle])⟩
  · exact (hmem x hx).elim (hread x) And.left
  · rcases hmem x hx with hx | ⟨-, hmark⟩
    · simpa using hclean x hx hfalse
    · exact absurd hfalse hmark

/-- An entry that is set is marked, and a commit is pending. -/
theorem setValueSafe_agrees (hc : Agrees c) (hkeeps : Keeps memory arg)
    (hown : OwnEntry atof c memory key arg) : Agrees (c.setValueSafe atof memory key arg).2 := by
  have hmark : ∀ e, (c.setFlag memory.flag e true).chg ≠ some false := by
    intro e
    have hchg := setFlag_chg (c := c) memory.flag e true
    simpa [hc.idle] using hchg
  rcases setValueSafe_cases atof c memory key arg with
    ⟨-, heq⟩ | ⟨e, -, -, heq⟩ | ⟨e, hold, hsame, heq⟩ | ⟨hold, heq⟩
  · rw [heq]
    exact hc
  · rw [heq]
    exact hc
  · -- an entry that changes
    obtain ⟨hitem, ht, hv⟩ := hkeeps.resolve_left (by simp [entry_of_setValueSafe heq])
    have hfirst := (hown e hold).resolve_left hsame
    have hnew : Readable (changedEntry atof memory arg e) :=
      newEntry_readable hitem ht hv fun e' he' => by
        cases he'
        exact hc.readable _ (mem_of_lookup hold)
    rw [heq]
    refine hc.marked ?_ fun x hx => ?_
    · split
      · rw [keys_replaceFirst hfirst]
        exact hc.maps.1
      · exact hc.maps.1
    · split at hx
      · rcases mem_replaceFirst hx with rfl | hx
        · exact .inr ⟨readable_setFlag hnew, hmark _⟩
        · exact .inl hx
      · exact .inl hx
  · -- a new key
    obtain ⟨hitem, ht, hv⟩ := hkeeps.resolve_left (by simp [entry_of_setValueSafe heq])
    have hnew : Readable (newEntry atof memory arg none) :=
      newEntry_readable hitem ht hv (by simp)
    rw [heq]
    refine hc.marked ?_ fun x hx => ?_
    · split
      · exact nodup_append hc.maps.1 hold
      · exact hc.maps.1
    · split at hx
      · rcases List.mem_append.mp hx with hx | hx
        · exact .inl hx
        · obtain rfl := List.mem_singleton.mp hx
          exact .inr ⟨readable_setFlag hnew, hmark _⟩
      · exact .inl hx

/-- A commit that stores what it has to leaves nothing marked. -/
theorem commitToNvs_agrees {writes flags : ℕ → Bool} (hc : Agrees c)
    (hw : Writes writes c.entries) : Agrees (c.commitToNvs writes flags) := by
  obtain ⟨⟨hd, hn⟩, hidle, hread, hclean, -⟩ := hc
  have hall := commitLoop_stored (c := c) flags hd hw hread hclean
  have hbit : (c.commitToNvs writes flags).noCommitPending = true := by
    simp [commitToNvs, raiseChange, hidle]
  have hentries : (c.commitToNvs writes flags).entries =
      (c.commitLoop writes flags c.entries c.nvs).1 := by
    rw [commitToNvs, raiseChange_entries]
  have hnvs : (c.commitToNvs writes flags).nvs =
      (c.commitLoop writes flags c.entries c.nvs).2 := by
    rw [commitToNvs, raiseChange_nvs]
  rw [← hentries, ← hnvs] at hall
  refine ⟨⟨?_, ?_⟩, ?_, fun x hx => ?_, fun x hx _ => (hall x hx).2, fun _ => hall⟩
  · rw [Distinct, hentries, commitLoop_keys]
    exact hd
  · rw [hnvs]
    exact commitLoop_nvs _ _ _ hn
  · simp [commitToNvs, raiseChange, hidle]
  · obtain ⟨v, hv, -⟩ := (hall x hx).2
    exact ⟨v, hv⟩

/-- A key that is deleted leaves the others as they were. -/
theorem deleteKey_agrees (hc : Agrees c) (key : CString) (erased : Bool) :
    Agrees { c with
      entries := remove key c.entries
      nvs := if erased then remove key c.nvs else c.nvs } := by
  obtain ⟨⟨hd, hn⟩, hidle, hread, hclean, hsettled⟩ := hc
  have hstored : ∀ x ∈ remove key c.entries, Stored c.nvs x →
      Stored (if erased then remove key c.nvs else c.nvs) x := by
    rintro x hx ⟨v, hv, hnvs⟩
    refine ⟨v, hv, ?_⟩
    have hne : x.1 ≠ key := lookup_eq_none.mp (lookup_remove hd) x hx
    split
    · rw [← lookup_others hne, others_remove, lookup_others hne, hnvs]
    · exact hnvs
  refine ⟨⟨nodup_remove hd, ?_⟩, hidle, fun x hx => hread x (mem_of_mem_remove hx), ?_, ?_⟩
  · show ((if erased then remove key c.nvs else c.nvs).map Prod.fst).Nodup
    split
    · exact nodup_remove hn
    · exact hn
  · exact fun x hx hfalse => hstored x hx (hclean x (mem_of_mem_remove hx) hfalse)
  · intro hbit x hx
    obtain ⟨hchg, hst⟩ := hsettled hbit x (mem_of_mem_remove hx)
    exact ⟨hchg, hstored x hx hst⟩

/-- What is loaded is what NVS has, and a commit is taken to be pending. -/
theorem init_agrees {reads : ℕ → Bool} {memory : ℕ → ConfigMemory} (hc : Agrees c)
    (hkeeps : ∀ i y, c.nvs[i]? = some y → Keeps (memory i) (.value y.2)) :
    Agrees (c.init atof reads memory) := by
  have hn := hc.maps.2
  obtain ⟨hbit, hall⟩ := loadLoop_stored atof reads (n := 0)
    (c := ⟨[], false, true, c.nvs⟩) rfl rfl hn (fun _ _ => rfl)
    (by simpa using hkeeps) (fun y hy => lookup_of_mem hn hy) (by simp)
  refine ⟨⟨loadLoop_distinct (c := ⟨[], false, true, c.nvs⟩) List.nodup_nil hn
    (fun _ _ => rfl) 0, ?_⟩, rfl, fun x hx => ?_, fun x hx _ => ?_, fun h => ?_⟩
  · show ((loadLoop atof 0 reads memory c.nvs _).nvs.map Prod.fst).Nodup
    rw [loadLoop_nvs]
    exact hn
  · obtain ⟨v, hv, -⟩ := hall x hx
    exact ⟨v, hv⟩
  · show Stored (loadLoop atof 0 reads memory c.nvs _).nvs x
    rw [loadLoop_nvs]
    exact hall x hx
  · exact absurd (hbit.symm.trans h) Bool.false_ne_true

/-- A durable call keeps the bit true to NVS. -/
theorem step_agrees (op : Op) (hc : Agrees c) (h : Durable atof c op) :
    Agrees (c.step atof op).1 := by
  have hown : ∀ {memory key arg}, c.entries.lookup key = none → OwnEntry atof c memory key arg :=
    fun hnone e hold => absurd (hnone.symm.trans hold) (by simp)
  cases op with
  | setValue locked memory key arg => exact setValueSafe_agrees hc h.1 h.2
  | setDefault locked memory key arg =>
      cases locked with
      | false => exact hc
      | true =>
          rcases hold : c.entries.lookup key with - | e
          · simp only [step, hold, if_true]
            exact setValueSafe_agrees hc (h rfl hold) (hown hold)
          · simp only [step, hold, if_true]
            exact hc
  | deleteKey locked erased key =>
      cases locked with
      | false => exact hc
      | true => exact deleteKey_agrees hc key erased
  | allocGet locked t key => cases locked <;> exact hc
  | allocGetDefault locked memory key arg =>
      cases locked with
      | false => exact hc
      | true =>
          show Agrees (c.getDefault atof memory key arg).2
          rcases hold : c.entries.lookup key with - | e
          · rw [(getDefault_of_none atof memory arg hold).1]
            exact setValueSafe_agrees hc (h rfl hold) (hown hold)
          · rw [getDefault_of_some hold]
            exact hc
  | commitToNvs locked writes flags =>
      cases locked with
      | false => exact hc
      | true => exact commitToNvs_agrees hc (h rfl)
  | init reads memory => exact init_agrees hc h

/-- In every run of durable calls, from any content of NVS: with no commit
pending, no entry is marked, and NVS has each with its type and value. -/
theorem committed_in_nvs (atof : CString → ℚ) {nvs : List (CString × NvsValue)} {ops : List Op}
    (hnvs : (nvs.map Prod.fst).Nodup) (h : (store atof).Along (Durable atof) (start nvs) ops)
    (hbit : ((store atof).run (start nvs) ops).1.noCommitPending = true) :
    ∀ x ∈ ((store atof).run (start nvs) ops).1.entries, x.2.chg ≠ some true ∧
      ∃ v, x.2.getValue x.2.itemType = some v ∧
        ((store atof).run (start nvs) ops).1.nvs.lookup x.1 = some v := by
  refine ((store atof).run_invariant (I := Agrees) (fun c op hc hop => step_agrees op hc hop) ?_
    h).settled hbit
  exact ⟨⟨List.nodup_nil, hnvs⟩, rfl, by simp [start], by simp [start], by simp [start]⟩

/-- A value is set, and NVS does not take it: the value stays marked, and no commit is pending. -/
theorem not_committed_in_nvs :
    ¬ ∀ (atof : CString → ℚ) (nvs : List (CString × NvsValue)) (ops : List Op),
      (nvs.map Prod.fst).Nodup →
      ((store atof).run (start nvs) ops).1.noCommitPending = true →
        ∀ x ∈ ((store atof).run (start nvs) ops).1.entries, x.2.chg ≠ some true ∧
          ∃ v, x.2.getValue x.2.itemType = some v ∧
            ((store atof).run (start nvs) ops).1.nvs.lookup x.1 = some v := by
  intro h
  obtain ⟨hchg, -⟩ := h (fun _ => 0) []
    [.setValue true .enough [0x6b] (.value (.u8 7)), .commitToNvs true (fun _ => false) fun _ => true]
    List.nodup_nil rfl _ List.mem_cons_self
  exact hchg rfl

/-- A value that is loaded, changed and committed, beside one that is new. -/
theorem committed_in_nvs_run :
    let r := (store fun _ => 0).run (start [([0x6b], .u8 7)])
      [.init (fun _ => true) (fun _ => .enough), .setValue true .enough [0x6b] (.value (.u8 8)),
        .setDefault true .enough [0x6e] (.value (.str [0x78])),
        .commitToNvs true (fun _ => true) fun _ => true]
    r.1.entries.length = 2 ∧ r.1.noCommitPending = true ∧
      ∀ x ∈ r.1.entries, x.2.chg ≠ some true ∧
        ∃ v, x.2.getValue x.2.itemType = some v ∧ r.1.nvs.lookup x.1 = some v := by
  refine ⟨by decide, by decide, committed_in_nvs _ (by decide) ?_ (by decide)⟩
  refine ⟨?_, ⟨.inr ⟨rfl, rfl, rfl⟩, ?_⟩, fun _ _ => .inr ⟨rfl, rfl, rfl⟩, fun _ _ _ _ _ => rfl,
    trivial⟩
  · rintro (- | i) y hy
    · obtain rfl : ([0x6b], .u8 7) = y := by simpa [start] using hy
      exact .inr ⟨rfl, rfl, rfl⟩
    · simp [start] at hy
  · exact fun e hold => .inr (by decide)

end Config

end SqueezeliteMuse
