/-
SqueezeliteMuse/ScanList.lean

`wifi_manager_filter_unique` of wifi_manager.c: the access points of a scan, each network once.

The first loop takes each record with a name, and clears those behind it with the same name and the
same authentication, after it has taken over their signal level if that is higher.  The second one
moves the records that still have a name to the front.

Main result: `filterUnique_spec`: of each network the first record is left, with the highest signal
level, in the order they had, and no place outside the array is used.
-/
import SqueezeliteMuse.Lib.CString
import Mathlib.Data.List.Basic
import Mathlib.Data.Int.Notation
import Mathlib.Tactic.Common

namespace SqueezeliteMuse

namespace ScanList

open CString

export CString (cstr)

/-! ### The code -/

/-- The field `ssid`, which ends somewhere. -/
structure Ssid where
  bytes : List UInt8
  terminated : 0 ∈ bytes

/-- `wifi_ap_record_t`; `rest` is all that is only copied. -/
structure Record (ρ : Type) where
  ssid : Ssid
  authmode : ℕ
  rssi : ℤ
  rest : ρ

variable {ρ : Type} [Inhabited ρ]

/-- A record after `memset`. -/
def zero : Record ρ := ⟨⟨List.replicate 33 0, by decide⟩, 0, 0, default⟩

/-- The name of a network, as `strcmp` has it. -/
def Record.name (r : Record ρ) : List UInt8 := cstr r.ssid.bytes

/-- `ap->ssid[0] == 0` -/
def Record.unnamed (r : Record ρ) : Bool := r.ssid.bytes.head? == some 0

/-- Identical SSID+authmodes. -/
def Same (ap ap1 : Record ρ) : Prop := ap.name = ap1.name ∧ ap.authmode = ap1.authmode

instance (ap ap1 : Record ρ) : Decidable (Same ap ap1) := instDecidableAnd

/-- A record is stored, if its place is in the array. -/
def store (l : List (Record ρ)) (i : ℕ) (r : Record ρ) : Option (List (Record ρ)) :=
  if i < l.length then some (l.set i r) else none

/-- Save the rssi for the display. -/
def saveRssi (l : List (Record ρ)) (i : ℕ) (ap ap1 : Record ρ) : Option (List (Record ρ)) :=
  if ap.rssi < ap1.rssi then store l i { ap with rssi := ap1.rssi } else some l

/-- Remove the records like that at `i`, from `j` on. -/
def clearSame (i : ℕ) : ℕ → ℕ → List (Record ρ) → Option (List (Record ρ))
  | 0, _, l => some l
  | m + 1, j, l => do
      let ap ← l[i]?
      let ap1 ← l[j]?
      if Same ap ap1 then
        let l ← saveRssi l i ap ap1
        let l ← store l j zero
        clearSame i m (j + 1) l
      else clearSame i m (j + 1) l

/-- The first loop, from `i` on. -/
def removeSame (aps : ℕ) : ℕ → ℕ → List (Record ρ) → Option (List (Record ρ))
  | 0, _, l => some l
  | m + 1, i, l => do
      let ap ← l[i]?
      -- skip the previously removed APs
      if ap.unnamed then removeSame aps m (i + 1) l
      else
        let l ← clearSame i (aps - (i + 1)) (i + 1) l
        removeSame aps m (i + 1) l

/-- Find the next free slot. -/
def nextFree : ℕ → ℕ → List (Record ρ) → Option (Option ℕ)
  | 0, _, _ => some none
  | m + 1, j, l => do
      let ap ← l[j]?
      if ap.unnamed then some (some j) else nextFree m (j + 1) l

/-- The second loop: reorder the list so APs follow each other in the list. -/
def reorder (aps : ℕ) :
    ℕ → ℕ → Option ℕ → ℤ → List (Record ρ) → Option (List (Record ρ) × ℤ)
  | 0, _, _, total, l => some (l, total)
  | m + 1, i, firstFree, total, l => do
      let ap ← l[i]?
      -- skipping all that has no name
      if ap.unnamed then reorder aps m (i + 1) (firstFree.or (some i)) (total - 1) l
      else
        match firstFree with
        | none => reorder aps m (i + 1) none total l
        | some free => do
            let l ← store l free ap
            let l ← store l i zero
            let next ← nextFree aps 0 l
            reorder aps m (i + 1) (some (next.getD free)) total l

/-- `wifi_manager_filter_unique`: the array, and its new length. -/
def filterUnique (l : List (Record ρ)) : Option (List (Record ρ) × ℕ) := do
  let aps := l.length
  let l ← removeSame aps (aps - 1) 0 l
  let (l, total) ← reorder aps aps 0 none aps l
  pure (l, (total % 2 ^ 16).toNat)

/-! ### What it is for -/

/-- A network. -/
def Record.key (r : Record ρ) : List UInt8 × ℕ := (r.name, r.authmode)

/-- It has a name. -/
def Record.named (r : Record ρ) : Bool := !r.unnamed

/-- The records of the networks: each network once, as they first occur, by its first record, with
the highest signal level of all of them. -/
structure Unique (l out : List (Record ρ)) : Prop where
  keys : out.map Record.key = ((l.filter Record.named).map Record.key).eraseDups
  first : ∀ r ∈ out, ∃ pre ap post, l = pre ++ ap :: post ∧ (∀ q ∈ pre, q.key ≠ ap.key) ∧
    r = { ap with rssi := r.rssi }
  rssi : ∀ r ∈ out, (∃ q ∈ l, q.key = r.key ∧ q.rssi = r.rssi) ∧
    ∀ q ∈ l, q.key = r.key → q.rssi ≤ r.rssi

/-! ### Places of the array -/

section Places

omit [Inhabited ρ]

variable {pre post : List (Record ρ)} {r : Record ρ}

theorem get_mid {i : ℕ} (hi : i = pre.length) : (pre ++ r :: post)[i]? = some r := by
  subst hi
  rw [List.getElem?_append_right (Nat.le_refl _), Nat.sub_self]
  rfl

theorem store_mid {i : ℕ} (hi : i = pre.length) (q : Record ρ) :
    store (pre ++ r :: post) i q = some (pre ++ q :: post) := by
  subst hi
  have hlt : pre.length < (pre ++ r :: post).length := by
    rw [List.length_append, List.length_cons]
    omega
  rw [store, if_pos hlt, List.set_append_right _ _ (Nat.le_refl _), Nat.sub_self]
  rfl

end Places

/-! ### The first loop -/

/-- What becomes of a record, for those behind it. -/
def absorb (r : Record ρ) (l : List (Record ρ)) : Record ρ :=
  l.foldl (fun r ap1 => if Same r ap1 ∧ r.rssi < ap1.rssi then { r with rssi := ap1.rssi } else r) r

/-- What becomes of a record behind it. -/
def clear (r ap1 : Record ρ) : Record ρ := if Same r ap1 then zero else ap1

/-- What the first loop makes of the array. -/
def uniques : List (Record ρ) → List (Record ρ)
  | [] => []
  | r :: l => if r.unnamed then r :: uniques l else absorb r l :: uniques (l.map (clear r))
termination_by l => l.length
decreasing_by
  · exact Nat.lt_succ_self _
  · rw [List.length_map, List.length_attach]
    exact Nat.lt_succ_self _

theorem clearSame_eq (pre todo : List (Record ρ)) :
    ∀ (r : Record ρ) (mid : List (Record ρ)) (j : ℕ), j = (pre ++ r :: mid).length →
    clearSame pre.length todo.length j (pre ++ r :: (mid ++ todo)) =
      some (pre ++ absorb r todo :: (mid ++ todo.map (clear r))) := by
  induction todo with
  | nil => exact fun r mid j _ => rfl
  | cons ap1 todo ih =>
    intro r mid j hj
    have hap : (pre ++ r :: (mid ++ ap1 :: todo))[pre.length]? = some r := get_mid rfl
    have hsplit : ∀ (r ap1 : Record ρ), pre ++ r :: (mid ++ ap1 :: todo) =
        (pre ++ r :: mid) ++ ap1 :: todo := fun r ap1 => by simp
    have hlen : ∀ q : Record ρ, (pre ++ q :: mid).length = j := fun q => by
      rw [hj, List.length_append, List.length_append, List.length_cons, List.length_cons]
    have hap1 : (pre ++ r :: (mid ++ ap1 :: todo))[j]? = some ap1 := by
      rw [hsplit]
      exact get_mid hj
    rw [List.length_cons, clearSame, hap, hap1]
    by_cases hsame : Same r ap1
    · -- the level is taken over, and the record cleared
      obtain ⟨q, hq⟩ : ∃ q, q = if r.rssi < ap1.rssi then { r with rssi := ap1.rssi } else r :=
        ⟨_, rfl⟩
      have hlevel : saveRssi (pre ++ r :: (mid ++ ap1 :: todo)) pre.length r ap1 =
          some (pre ++ q :: (mid ++ ap1 :: todo)) := by
        rw [saveRssi, hq]
        split
        · exact store_mid rfl _
        · rfl
      have hclear : store (pre ++ q :: (mid ++ ap1 :: todo)) j zero =
          some (pre ++ q :: ((mid ++ [zero]) ++ todo)) := by
        have hstore : store (pre ++ q :: mid ++ ap1 :: todo) j zero =
            some (pre ++ q :: mid ++ zero :: todo) := store_mid (hlen q).symm zero
        rw [hsplit, hstore]
        simp
      have habsorb : absorb r (ap1 :: todo) = absorb q todo := by
        rw [absorb, List.foldl_cons, hq, absorb]
        simp only [hsame, true_and]
      have hsame' : ∀ x, clear q x = clear r x := by
        intro x
        rw [hq]
        split <;> rfl
      have hnext := ih q (mid ++ [zero]) (j + 1) (by
        rw [List.length_append, List.length_cons, List.length_append, List.length_singleton,
          ← hlen q, List.length_append, List.length_cons]
        omega)
      change ((if Same r ap1 then _ else _) : Option _) = _
      rw [if_pos hsame, hlevel]
      change (store _ j zero >>= _) = _
      rw [hclear]
      change clearSame pre.length todo.length (j + 1) _ = _
      rw [hnext, habsorb, List.map_cons, clear, if_pos hsame]
      simp [hsame']
    · have habsorb : absorb r (ap1 :: todo) = absorb r todo := by
        rw [absorb, List.foldl_cons, if_neg fun h => hsame h.1, absorb]
      have hnext := ih r (mid ++ [ap1]) (j + 1) (by
        rw [List.length_append, List.length_cons, List.length_append, List.length_singleton,
          ← hlen r, List.length_append, List.length_cons]
        omega)
      change ((if Same r ap1 then _ else _) : Option _) = _
      rw [if_neg hsame, habsorb, List.map_cons, clear, if_neg hsame]
      rw [List.append_assoc, List.append_assoc] at hnext
      exact hnext

/-- The first loop makes `uniques` of what it has not come to. -/
theorem removeSame_eq (n : ℕ) : ∀ pre rest : List (Record ρ), rest.length = n →
    removeSame (pre ++ rest).length (n - 1) pre.length (pre ++ rest) =
      some (pre ++ uniques rest) := by
  induction n with
  | zero =>
    intro pre rest hn
    obtain rfl := List.length_eq_zero_iff.mp hn
    rw [uniques]
    rfl
  | succ n ih =>
    intro pre rest hn
    obtain ⟨r, l, rfl⟩ := List.exists_cons_of_length_eq_add_one hn
    have hl : l.length = n := by
      rw [List.length_cons] at hn
      omega
    have hnext : ∀ (q : Record ρ) (l' : List (Record ρ)), (pre ++ [q]) ++ l' = pre ++ q :: l' :=
      fun q l' => by rw [List.append_assoc]; rfl
    have hlen : ∀ q : Record ρ, (pre ++ [q]).length = pre.length + 1 := fun q => by
      rw [List.length_append, List.length_singleton]
    cases n with
    | zero =>
      -- the last record is not looked at
      obtain rfl := List.length_eq_zero_iff.mp hl
      rw [uniques, uniques, List.map_nil, uniques, absorb, List.foldl_nil, ite_self]
      rfl
    | succ n =>
      have hget : (pre ++ r :: l)[pre.length]? = some r := get_mid rfl
      rw [Nat.add_sub_cancel, removeSame, hget, uniques]
      change ((if r.unnamed then _ else _) : Option _) = _
      by_cases hname : r.unnamed
      · have hrest := ih (pre ++ [r]) l hl
        rw [hlen, hnext, hnext, Nat.add_sub_cancel] at hrest
        rw [if_pos hname, if_pos hname]
        exact hrest
      · have hcount : (pre ++ r :: l).length - (pre.length + 1) = l.length := by
          rw [List.length_append, List.length_cons]
          omega
        have hclear := clearSame_eq pre l r [] (pre.length + 1) (hlen r).symm
        rw [List.nil_append, List.nil_append] at hclear
        have hrest := ih (pre ++ [absorb r l]) (l.map (clear r)) (by rw [List.length_map, hl])
        have htotal : (pre ++ absorb r l :: l.map (clear r)).length = (pre ++ r :: l).length := by
          rw [List.length_append, List.length_append, List.length_cons, List.length_cons,
            List.length_map]
        rw [hlen, hnext, hnext, Nat.add_sub_cancel, htotal] at hrest
        rw [if_neg hname, if_neg hname, hcount, hclear]
        exact hrest

/-! ### The second loop -/

omit [Inhabited ρ] in
/-- The first free slot, behind records that have names. -/
theorem nextFree_eq (mid : List (Record ρ)) (b : Record ρ) (hb : b.unnamed) :
    ∀ (pre post : List (Record ρ)) (m : ℕ), (∀ r ∈ mid, r.named) → mid.length < m →
      nextFree m pre.length (pre ++ (mid ++ b :: post)) =
        some (some (pre.length + mid.length)) := by
  induction mid with
  | nil =>
    intro pre post m _ hm
    obtain ⟨m, rfl⟩ := Nat.exists_eq_add_of_lt hm
    have hget : (pre ++ ([] ++ b :: post))[pre.length]? = some b := get_mid rfl
    rw [nextFree, hget]
    exact if_pos hb
  | cons r mid ih =>
    intro pre post m hmid hm
    obtain ⟨m, rfl⟩ : ∃ m', m = m' + 1 := ⟨m - 1, by omega⟩
    have hget : (pre ++ (r :: mid ++ b :: post))[pre.length]? = some r := get_mid rfl
    have hname : ¬ r.unnamed = true := by
      have hnamed := hmid r List.mem_cons_self
      rw [Record.named, Bool.not_eq_true'] at hnamed
      rw [hnamed]
      exact Bool.false_ne_true
    have hrest := ih (pre ++ [r]) post m (fun q hq => hmid q (List.mem_cons_of_mem r hq)) (by
      rw [List.length_cons] at hm
      omega)
    rw [List.length_append, List.length_singleton, List.append_assoc] at hrest
    rw [nextFree, hget]
    change ((if r.unnamed then _ else _) : Option _) = _
    rw [if_neg hname, List.length_cons, Nat.add_comm mid.length, ← Nat.add_assoc]
    exact hrest

/-- The slot that the second loop moves a record to. -/
def free (packed blanks : List (Record ρ)) : Option ℕ :=
  if blanks = [] then none else some packed.length

/-- The second loop, where the records of `packed` are in place, behind them those of `blanks` free,
and those of `todo` to come. -/
theorem reorder_eq (todo : List (Record ρ)) :
    ∀ (packed blanks : List (Record ρ)) (aps : ℕ) (total : ℤ),
    (∀ r ∈ packed, r.named) → (∀ r ∈ blanks, r.unnamed) →
    aps = (packed ++ (blanks ++ todo)).length →
    ∃ rest, reorder aps todo.length (packed.length + blanks.length) (free packed blanks) total
        (packed ++ (blanks ++ todo)) =
          some (packed ++ todo.filter Record.named ++ rest,
            total - (todo.filter Record.unnamed).length) ∧
      (packed ++ todo.filter Record.named ++ rest).length = aps := by
  induction todo with
  | nil =>
    intro packed blanks aps total _ _ haps
    exact ⟨blanks, by simp [reorder], by simp [haps]⟩
  | cons ap todo ih =>
    intro packed blanks aps total hpacked hblanks haps
    have hget : (packed ++ (blanks ++ ap :: todo))[packed.length + blanks.length]? = some ap := by
      rw [← List.append_assoc]
      exact get_mid (by rw [List.length_append])
    rw [List.length_cons, reorder, hget]
    change ∃ rest, ((if ap.unnamed then _ else _) : Option _) = _ ∧ _
    by_cases hname : ap.unnamed
    · have hnamed : ¬ ap.named = true := by
        rw [Record.named, hname]
        exact Bool.false_ne_true
      have hfree : (free packed blanks).or (some (packed.length + blanks.length)) =
          free packed (blanks ++ [ap]) := by
        rw [free, free]
        cases blanks with
        | nil => rfl
        | cons b bs => rfl
      have happend : packed ++ (blanks ++ ap :: todo) = packed ++ ((blanks ++ [ap]) ++ todo) := by
        simp
      obtain ⟨rest, hrun, hlen⟩ := ih packed (blanks ++ [ap]) aps (total - 1) hpacked (by
        intro r hr
        rcases List.mem_append.mp hr with hr | hr
        · exact hblanks r hr
        · exact List.mem_singleton.mp hr ▸ hname) (by rw [haps, happend])
      refine ⟨rest, ?_, ?_⟩
      · rw [if_pos hname, hfree, happend]
        rw [List.length_append, List.length_singleton, ← Nat.add_assoc] at hrun
        rw [hrun, List.filter_cons_of_neg hnamed, List.filter_cons_of_pos hname, List.length_cons]
        congr 2
        omega
      · rw [List.filter_cons_of_neg hnamed]
        exact hlen
    · have hnamed : ap.named = true := by
        rw [Record.named, Bool.not_eq_true', ← Bool.not_eq_true]
        exact hname
      have hpacked' : ∀ r ∈ packed ++ [ap], r.named := by
        intro r hr
        rcases List.mem_append.mp hr with hr | hr
        · exact hpacked r hr
        · exact List.mem_singleton.mp hr ▸ hnamed
      have hlen' : (packed ++ [ap]).length = packed.length + 1 := by
        rw [List.length_append, List.length_singleton]
      rw [if_neg hname, List.filter_cons_of_pos hnamed, List.filter_cons_of_neg hname]
      cases blanks with
      | nil =>
        obtain ⟨rest, hrun, hlen⟩ := ih (packed ++ [ap]) [] aps total hpacked'
          (fun r hr => absurd hr List.not_mem_nil) (by rw [haps]; simp)
        rw [hlen'] at hrun
        have hsplit : packed ++ [ap] ++ ([] ++ todo) = packed ++ ([] ++ ap :: todo) := by simp
        have hout : packed ++ [ap] ++ todo.filter Record.named ++ rest =
            packed ++ ap :: todo.filter Record.named ++ rest := by simp
        rw [hsplit, hout] at hrun
        rw [hout] at hlen
        exact ⟨rest, hrun, hlen⟩
      | cons b bs =>
        -- the record goes to the first free slot, and its own becomes free
        have hmove : store (packed ++ (b :: bs ++ ap :: todo)) packed.length ap =
            some (packed ++ ap :: (bs ++ ap :: todo)) := store_mid rfl ap
        have hzero : store (packed ++ ap :: (bs ++ ap :: todo)) (packed.length + (b :: bs).length)
            zero = some (packed ++ [ap] ++ ((bs ++ [zero]) ++ todo)) := by
          have hstore : store (packed ++ ap :: bs ++ ap :: todo) (packed.length + (b :: bs).length)
              zero = some (packed ++ ap :: bs ++ zero :: todo) :=
            store_mid (by rw [List.length_append]; rfl) zero
          rw [List.append_assoc, List.cons_append] at hstore
          rw [hstore]
          simp
        have hblanks' : ∀ r ∈ bs ++ [zero], r.unnamed := by
          intro r hr
          rcases List.mem_append.mp hr with hr | hr
          · exact hblanks r (List.mem_cons_of_mem b hr)
          · exact List.mem_singleton.mp hr ▸ rfl
        have hlen'' : aps = (packed ++ [ap] ++ (bs ++ [zero] ++ todo)).length := by
          rw [haps]
          simp only [List.length_append, List.length_cons, List.length_nil]
          omega
        have hnext : nextFree aps 0 (packed ++ [ap] ++ ((bs ++ [zero]) ++ todo)) =
            some (some (packed.length + 1)) := by
          obtain ⟨b', bs', hbs⟩ : ∃ b' bs', bs ++ [zero] = b' :: bs' :=
            List.exists_cons_of_ne_nil (by simp)
          have hb' : b'.unnamed := hblanks' b' (hbs ▸ List.mem_cons_self)
          have hfind := nextFree_eq (packed ++ [ap]) b' hb' [] (bs' ++ todo) aps hpacked' (by
            rw [hlen'']
            simp only [List.length_append, List.length_cons, List.length_nil]
            omega)
          rw [hbs]
          rw [List.length_nil, List.nil_append, hlen', Nat.zero_add] at hfind
          exact hfind
        obtain ⟨rest, hrun, hlen⟩ := ih (packed ++ [ap]) (bs ++ [zero]) aps total hpacked' hblanks'
          hlen''
        have hfree : free (packed ++ [ap]) (bs ++ [zero]) = some (packed.length + 1) := by
          rw [free, if_neg (by simp), hlen']
        have hcount : packed.length + (b :: bs).length + 1 =
            (packed ++ [ap]).length + (bs ++ [zero]).length := by
          simp only [List.length_append, List.length_cons, List.length_nil]
          omega
        have hout : packed ++ [ap] ++ todo.filter Record.named ++ rest =
            packed ++ ap :: todo.filter Record.named ++ rest := by simp
        rw [hfree, hout] at hrun
        rw [hout] at hlen
        refine ⟨rest, ?_, hlen⟩
        change (store _ packed.length ap >>= _) = _
        rw [hmove]
        change (store _ (packed.length + (b :: bs).length) zero >>= _) = _
        rw [hzero]
        change (nextFree aps 0 _ >>= _) = _
        rw [hnext, hcount]
        exact hrun

/-! ### What is left -/

section Keys

omit [Inhabited ρ]

theorem unnamed_iff (r : Record ρ) : r.unnamed = true ↔ r.name = [] := by
  obtain ⟨⟨bytes, hterm⟩, authmode, rssi, rest⟩ := r
  cases bytes with
  | nil => exact absurd hterm List.not_mem_nil
  | cons c bytes =>
    rw [Record.unnamed, Record.name, cstr]
    by_cases hc : c = 0
    · subst hc
      simp
    · simp [hc]

theorem named_iff (r : Record ρ) : r.named = true ↔ r.name ≠ [] := by
  rw [Record.named, Bool.not_eq_true', ← Bool.not_eq_true, unnamed_iff]

theorem same_iff (r q : Record ρ) : Same r q ↔ q.key = r.key := by
  rw [Same, Record.key, Record.key, Prod.mk.injEq]
  exact and_congr eq_comm eq_comm

theorem key_named {r q : Record ρ} (hkey : q.key = r.key) (hr : r.named) : q.named := by
  rw [named_iff] at hr ⊢
  have hname : q.name = r.name := congrArg Prod.fst hkey
  rw [hname]
  exact hr

/-- The level does not belong to the network. -/
theorem key_of_rssi {o ap : Record ρ} {x : ℤ} (h : o = { ap with rssi := x }) : o.key = ap.key :=
  (congrArg Record.key h).trans rfl

/-- A record takes over the highest level, and nothing else. -/
theorem absorb_spec (l : List (Record ρ)) : ∀ r : Record ρ,
    absorb r l = { r with rssi := (absorb r l).rssi } ∧ r.rssi ≤ (absorb r l).rssi ∧
      (∀ q ∈ l, Same r q → q.rssi ≤ (absorb r l).rssi) ∧
      ((absorb r l).rssi = r.rssi ∨ ∃ q ∈ l, Same r q ∧ q.rssi = (absorb r l).rssi) := by
  induction l with
  | nil => exact fun r => ⟨rfl, Int.le_refl _, fun q hq => absurd hq List.not_mem_nil, .inl rfl⟩
  | cons x l ih =>
    intro r
    by_cases hx : Same r x ∧ r.rssi < x.rssi
    · have habsorb : absorb r (x :: l) = absorb { r with rssi := x.rssi } l := by
        rw [absorb, List.foldl_cons, if_pos hx, absorb]
      obtain ⟨hrec, hle, hall, hex⟩ := ih { r with rssi := x.rssi }
      simp only at hle
      rw [habsorb]
      refine ⟨hrec, by omega, fun q hq hsame => ?_, .inr ?_⟩
      · rcases List.mem_cons.mp hq with rfl | hq
        · exact hle
        · exact hall q hq hsame
      · rcases hex with hex | ⟨q, hq, hsame, hlevel⟩
        · exact ⟨x, List.mem_cons_self, hx.1, hex.symm⟩
        · exact ⟨q, List.mem_cons_of_mem x hq, hsame, hlevel⟩
    · have habsorb : absorb r (x :: l) = absorb r l := by
        rw [absorb, List.foldl_cons, if_neg hx, absorb]
      obtain ⟨hrec, hle, hall, hex⟩ := ih r
      rw [habsorb]
      refine ⟨hrec, hle, fun q hq hsame => ?_, hex.imp id ?_⟩
      · rcases List.mem_cons.mp hq with rfl | hq
        · have hlevel : ¬ r.rssi < q.rssi := fun hlt => hx ⟨hsame, hlt⟩
          omega
        · exact hall q hq hsame
      · rintro ⟨q, hq, hsame, hlevel⟩
        exact ⟨q, List.mem_cons_of_mem x hq, hsame, hlevel⟩

theorem absorb_key (r : Record ρ) (l : List (Record ρ)) : (absorb r l).key = r.key := by
  rw [(absorb_spec l r).1]
  rfl

end Keys

theorem zero_named : ¬ (zero : Record ρ).named = true := Bool.false_ne_true

/-- A record that still has a name was not cleared. -/
theorem clear_named {r x : Record ρ} (h : (clear r x).named) : ¬ Same r x ∧ clear r x = x := by
  rw [clear] at h ⊢
  split at h
  case isTrue => exact absurd h zero_named
  case isFalse hsame => exact ⟨hsame, if_neg hsame⟩

/-- What is cleared loses its network. -/
theorem keys_clear (r : Record ρ) (l : List (Record ρ)) :
    ((l.map (clear r)).filter Record.named).map Record.key =
      ((l.filter Record.named).map Record.key).filter fun k => !k == r.key := by
  induction l with
  | nil => rfl
  | cons x l ih =>
    rw [List.map_cons]
    by_cases hsame : Same r x
    · have hclear : clear r x = zero := if_pos hsame
      have hkey := (same_iff r x).mp hsame
      rw [hclear, List.filter_cons_of_neg zero_named, ih]
      by_cases hname : x.named
      · rw [List.filter_cons_of_pos hname, List.map_cons, List.filter_cons_of_neg (by simp [hkey])]
      · rw [List.filter_cons_of_neg hname]
    · have hclear : clear r x = x := if_neg hsame
      have hkey : x.key ≠ r.key := fun h => hsame ((same_iff r x).mpr h)
      rw [hclear]
      by_cases hname : x.named
      · rw [List.filter_cons_of_pos hname, List.filter_cons_of_pos hname, List.map_cons,
          List.map_cons, List.filter_cons_of_pos (by simp [hkey]), ih]
      · rw [List.filter_cons_of_neg hname, List.filter_cons_of_neg hname, ih]

/-- Of each network the first record is left. -/
theorem unique_uniques (n : ℕ) : ∀ l : List (Record ρ), l.length = n →
    Unique l ((uniques l).filter Record.named) := by
  induction n with
  | zero =>
    intro l hn
    obtain rfl := List.length_eq_zero_iff.mp hn
    rw [uniques]
    exact ⟨rfl, fun r hr => absurd hr List.not_mem_nil, fun r hr => absurd hr List.not_mem_nil⟩
  | succ n ih =>
    intro l hn
    obtain ⟨r, l, rfl⟩ := List.exists_cons_of_length_eq_add_one hn
    have hl : l.length = n := by
      rw [List.length_cons] at hn
      omega
    have hmem : ∀ {l : List (Record ρ)} {o : Record ρ},
        o ∈ (uniques l).filter Record.named → o.named := fun ho => (List.mem_filter.mp ho).2
    rw [uniques]
    by_cases hname : r.unnamed
    · have hnamed : ¬ r.named = true := by
        rw [Record.named, hname]
        exact Bool.false_ne_true
      obtain ⟨hkeys, hfirst, hrssi⟩ := ih l hl
      rw [if_pos hname, List.filter_cons_of_neg hnamed]
      refine ⟨?_, fun o ho => ?_, fun o ho => ⟨?_, ?_⟩⟩
      · rw [List.filter_cons_of_neg hnamed]
        exact hkeys
      · obtain ⟨pre, ap, post, hsplit, hpre, hrec⟩ := hfirst o ho
        have hap : ap.named := key_named (key_of_rssi hrec).symm (hmem ho)
        refine ⟨r :: pre, ap, post, by rw [hsplit, List.cons_append], fun q hq => ?_, hrec⟩
        rcases List.mem_cons.mp hq with rfl | hq
        · exact fun hkey => hnamed (key_named hkey hap)
        · exact hpre q hq
      · obtain ⟨q, hq, hlevel⟩ := (hrssi o ho).1
        exact ⟨q, List.mem_cons_of_mem r hq, hlevel⟩
      · intro q hq hkey
        rcases List.mem_cons.mp hq with rfl | hq
        · exact absurd (key_named hkey (hmem ho)) hnamed
        · exact (hrssi o ho).2 q hq hkey
    · have hnamed : r.named = true := by
        rw [Record.named, Bool.not_eq_true', ← Bool.not_eq_true]
        exact hname
      have habsorb : (absorb r l).named := key_named (absorb_key r l) hnamed
      obtain ⟨hkeys, hfirst, hrssi⟩ := ih (l.map (clear r)) (by rw [List.length_map, hl])
      -- what is left behind `r` is a record of the array, and of another network
      have hother : ∀ o ∈ (uniques (l.map (clear r))).filter Record.named, o.key ≠ r.key := by
        intro o ho
        obtain ⟨pre, ap, post, hsplit, -, hrec⟩ := hfirst o ho
        have hkey : o.key = ap.key := key_of_rssi hrec
        have hap : ap.named := key_named hkey.symm (hmem ho)
        obtain ⟨x, -, rfl⟩ := List.mem_map.mp (hsplit ▸ List.mem_append_right pre
          List.mem_cons_self : ap ∈ l.map (clear r))
        obtain ⟨hnot, hclear⟩ := clear_named hap
        rw [hkey, hclear]
        exact fun h => hnot ((same_iff r x).mpr h)
      rw [if_neg hname, List.filter_cons_of_pos habsorb]
      refine ⟨?_, fun o ho => ?_, fun o ho => ?_⟩
      · rw [List.map_cons, absorb_key, hkeys, keys_clear, List.filter_cons_of_pos hnamed,
          List.map_cons, List.eraseDups_cons]
      · rcases List.mem_cons.mp ho with rfl | ho
        · exact ⟨[], r, l, rfl, fun q hq => absurd hq List.not_mem_nil, (absorb_spec l r).1⟩
        · obtain ⟨pre, ap, post, hsplit, hpre, hrec⟩ := hfirst o ho
          have hkey : o.key = ap.key := key_of_rssi hrec
          have hap : ap.named := key_named hkey.symm (hmem ho)
          obtain ⟨pre', rest, rfl, rfl, hrest⟩ := List.map_eq_append_iff.mp hsplit
          obtain ⟨x, post', rfl, rfl, -⟩ := List.map_eq_cons_iff.mp hrest
          obtain ⟨hnot, hclear⟩ := clear_named hap
          rw [hclear] at hrec hpre
          refine ⟨r :: pre', x, post', rfl, fun q hq => ?_, hrec⟩
          rcases List.mem_cons.mp hq with rfl | hq
          · exact fun h => hnot ((same_iff q x).mpr h.symm)
          · by_cases hsame : Same r q
            · rw [(same_iff r q).mp hsame]
              exact fun h => hnot ((same_iff r x).mpr h.symm)
            · exact hpre q (List.mem_map.mpr ⟨q, hq, if_neg hsame⟩)
      · rcases List.mem_cons.mp ho with rfl | ho
        · obtain ⟨-, hle, hall, hex⟩ := absorb_spec l r
          rw [absorb_key]
          refine ⟨?_, fun q hq hkey => ?_⟩
          · rcases hex with hex | ⟨q, hq, hsame, hlevel⟩
            · exact ⟨r, List.mem_cons_self, rfl, hex.symm⟩
            · exact ⟨q, List.mem_cons_of_mem r hq, (same_iff r q).mp hsame, hlevel⟩
          · rcases List.mem_cons.mp hq with rfl | hq
            · exact hle
            · exact hall q hq ((same_iff r q).mpr hkey)
        · obtain ⟨⟨q, hq, hkey, hlevel⟩, hall⟩ := hrssi o ho
          refine ⟨?_, fun q hq hkey => ?_⟩
          · obtain ⟨x, hx, rfl⟩ := List.mem_map.mp hq
            obtain ⟨-, hclear⟩ := clear_named (key_named hkey (hmem ho))
            rw [hclear] at hkey hlevel
            exact ⟨x, List.mem_cons_of_mem r hx, hkey, hlevel⟩
          · rcases List.mem_cons.mp hq with rfl | hq
            · exact absurd hkey.symm (hother o ho)
            · have hnot : ¬ Same r q := fun hsame =>
                hother o ho (hkey ▸ (same_iff r q).mp hsame)
              exact hall q (List.mem_map.mpr ⟨q, hq, if_neg hnot⟩) hkey

theorem length_uniques (n : ℕ) : ∀ l : List (Record ρ), l.length = n → (uniques l).length = n := by
  induction n with
  | zero =>
    intro l hn
    obtain rfl := List.length_eq_zero_iff.mp hn
    rw [uniques]
    rfl
  | succ n ih =>
    intro l hn
    obtain ⟨r, l, rfl⟩ := List.exists_cons_of_length_eq_add_one hn
    have hl : l.length = n := by
      rw [List.length_cons] at hn
      omega
    rw [uniques]
    split
    · rw [List.length_cons, ih l hl]
    · rw [List.length_cons, ih (l.map (clear r)) (by rw [List.length_map, hl])]

/-- Each network is left once, and no place outside the array is used. -/
theorem filterUnique_spec (l : List (Record ρ)) (hn : l.length < 2 ^ 16) :
    ∃ out rest, filterUnique l = some (out ++ rest, out.length) ∧
      (out ++ rest).length = l.length ∧ Unique l out := by
  have hremove := removeSame_eq l.length [] l rfl
  have hlength := length_uniques l.length l rfl
  obtain ⟨rest, hrun, hlen⟩ := reorder_eq (uniques l) [] [] (uniques l).length (uniques l).length
    (fun r hr => absurd hr List.not_mem_nil) (fun r hr => absurd hr List.not_mem_nil) rfl
  simp only [List.nil_append, List.length_nil, Nat.add_zero] at hremove hrun hlen
  refine ⟨(uniques l).filter Record.named, rest, ?_, by rw [hlen, hlength],
    unique_uniques l.length l rfl⟩
  have hcount : (uniques l).length = ((uniques l).filter Record.unnamed).length +
      ((uniques l).filter Record.named).length := List.length_eq_length_filter_add _
  have htotal : ((((uniques l).length : ℤ) - ((uniques l).filter Record.unnamed).length) %
      2 ^ 16).toNat = ((uniques l).filter Record.named).length := by
    omega
  rw [filterUnique]
  simp only
  rw [hremove]
  change (reorder l.length l.length 0 none l.length (uniques l) >>= _) = _
  rw [hlength] at hrun htotal
  have hfree : free ([] : List (Record ρ)) [] = none := rfl
  rw [hfree] at hrun
  rw [hrun]
  change some (_, _) = _
  rw [htotal]

/-- A network that is there twice, the second time stronger, behind one without a name. -/
def threeRecords : List (Record Unit) :=
  [⟨⟨[0], by decide⟩, 3, -40, ()⟩, ⟨⟨[97, 0], by decide⟩, 3, -60, ()⟩,
    ⟨⟨[97, 0], by decide⟩, 3, -50, ()⟩]

theorem filterUnique_three : ∃ out rest,
    filterUnique threeRecords = some (out ++ rest, out.length) ∧
    (out ++ rest).length = 3 ∧ Unique threeRecords out :=
  filterUnique_spec threeRecords (by decide)

end ScanList

end SqueezeliteMuse
