/-
SqueezeliteMuse/DmapParser.lean

What `dmap_parse` reads of the metadata.

A field is a code of four characters, a length and so many bytes; the data of a
dictionary are fields again.  A field that does not fit into what is left ends the
parser.  The test for it adds the length to a pointer, and a pointer has 32 bits:
a length with which the sum is beyond the address space passes.

Of the settings of raop.c only `on_string` is not NULL, and it copies the data of
three codes.  `fieldOf` is the table of the codes: everything here holds for any.

Main result: `dmapParse_between`: as long as no length takes a pointer beyond the
address space, everything that is read is in the buffer.
-/
import SqueezeliteMuse.Lib.CString

namespace SqueezeliteMuse

namespace Dmap

open CString

/-! ### The code -/

/-- `DMAP_TYPE` -/
inductive FieldType
  | unknown
  | uint
  | int
  | str
  | data
  | date
  | vers
  | dict
  | item
  deriving DecidableEq

/-- `dmap_field`, of a code that has one -/
structure Field where
  type : FieldType
  listItemType : FieldType

/-- What an address is in 32 bits. -/
def ptr (a : ℕ) : ℕ := a % 2 ^ 32

/-- The difference of two pointers, as it is signed. -/
def ptrdiff (fin p : ℕ) : ℤ :=
  let d := ptr (fin + 2 ^ 32 - p)
  if d < 2 ^ 31 then d else d - 2 ^ 32

/-- `isalpha` -/
def isalpha (c : UInt8) : Bool := (65 ≤ c && c ≤ 90) || (97 ≤ c && c ≤ 122)

/-- `isprint` -/
def isprint (c : UInt8) : Bool := 32 ≤ c && c ≤ 126

/-- How many bytes from `p` on, of `n`, come before one that does not pass. -/
def run (ok : UInt8 → Bool) (mem : ℕ → UInt8) : ℕ → ℕ → ℕ
  | _, 0 => 0
  | p, n + 1 => if ok (mem p) then run ok mem (ptr (p + 1)) n + 1 else 0

/-- `dmap_read_u32` -/
def readU32 (mem : ℕ → UInt8) (p : ℕ) : ℕ :=
  (mem p).toNat * 2 ^ 24 + (mem (ptr (p + 1))).toNat * 2 ^ 16 + (mem (ptr (p + 2))).toNat * 2 ^ 8 +
    (mem (ptr (p + 3))).toNat

/-- Whether the data of an unknown field look like fields. -/
def looksLikeDict (mem : ℕ → UInt8) (p n : ℕ) : Bool :=
  8 ≤ n && run isalpha mem p 4 = 4 && readU32 mem (ptr (p + 4)) < n

/-- The type of a field: a listing item has that of its listing, and an unknown one is guessed. -/
def typeOf (mem : ℕ → UInt8) (parent field : Option Field) (p n : ℕ) : FieldType :=
  match field with
  | some f =>
      if f.type = .item then
        match parent with
        | some l => if l.listItemType ≠ .unknown then l.listItemType else .dict
        | none => .dict
      else f.type
  | none =>
      if looksLikeDict mem p n then .dict
      else if run isprint mem p n = n then .str
      else .uint

/-- What is read to guess: the first characters as far as they are letters, what may be a length
behind four of them, and the data up to what is not printed. -/
def guessTouched (mem : ℕ → UInt8) (p n : ℕ) : List (ℕ × ℕ) :=
  (if 8 ≤ n then
    (p, min 4 (run isalpha mem p 4 + 1)) ::
      if run isalpha mem p 4 = 4 then [(ptr (p + 4), 4)] else []
  else []) ++
    if looksLikeDict mem p n then [] else [(p, min n (run isprint mem p n + 1))]

/-- The codes of which `on_dmap_string` copies the data. -/
def copied : List (List UInt8) := [CString.ascii "asar", CString.ascii "asal", CString.ascii "minm"]

/-- What is read of the data: by `strndup`, up to a NUL, or for a version. -/
def valueTouched (mem : ℕ → UInt8) (code : List UInt8) (type : FieldType) (p n : ℕ) :
    List (ℕ × ℕ) :=
  match type with
  | .str =>
      if copied.any fun c => CaseEq (CString.cstr code) c then
        [(p, min n (run (· ≠ 0) mem p n + 1))]
      else []
  | .vers => if 4 ≤ n then [(p, 2), (ptr (p + 2), 2)] else []
  | _ => []

/-- What `dmap_parse_internal` returns, if it does: whether that is 0; what it reads; and the fields
that it comes to, each as where its data begin and their length. -/
structure Trace where
  ret : Option Bool
  touched : List (ℕ × ℕ)
  fields : List (ℕ × ℕ)

/-- What comes next, unless -1 is returned before. -/
def Trace.andThen (a b : Trace) : Trace :=
  if a.ret = some true then ⟨b.ret, a.touched ++ b.touched, a.fields ++ b.fields⟩ else a

/-- `dmap_parse_internal`, for so many rounds at most: a round reads a field at `p`. -/
def dmapParse (fieldOf : List UInt8 → Option Field) (mem : ℕ → UInt8) :
    ℕ → ℕ → ℕ → Option Field → Trace
  | 0, _, _, _ => ⟨none, [], []⟩
  | rounds + 1, p, fin, parent =>
      if 8 ≤ ptrdiff fin p then
        let code := [mem p, mem (ptr (p + 1)), mem (ptr (p + 2)), mem (ptr (p + 3))]
        let field := fieldOf code
        let n := readU32 mem (ptr (p + 4))
        let q := ptr (p + 8)
        let header := [(p, 4), (ptr (p + 4), 4)]
        if fin < ptr (q + n) then ⟨some false, header, [(q, n)]⟩
        else
          let type := typeOf mem parent field q n
          let guess := if field.isNone then guessTouched mem q n else []
          let read : Trace :=
            ⟨some true, header ++ guess ++ valueTouched mem code type q n, [(q, n)]⟩
          let inner : Trace :=
            if type = .dict then dmapParse fieldOf mem rounds q (ptr (q + n)) field
            -- `abort`, which is not reached: no listing has items of this type
            else if type = .item then ⟨some false, [], []⟩
            else ⟨some true, [], []⟩
          read.andThen (inner.andThen (dmapParse fieldOf mem rounds (ptr (q + n)) fin parent))
      else ⟨some (decide (p = fin)), [], []⟩

/-! ### What is read -/

/-- The range is between two addresses. -/
def Between (base limit : ℕ) (t : ℕ × ℕ) : Prop := t.2 = 0 ∨ base ≤ t.1 ∧ t.1 + t.2 ≤ limit

variable {mem : ℕ → UInt8} {base limit p n : ℕ}

theorem ptr_of_lt (h : p < 2 ^ 32) : ptr p = p := Nat.mod_eq_of_lt h

theorem Between.of_le (hbase : base ≤ p) (hlimit : p + n ≤ limit) : Between base limit (p, n) :=
  .inr ⟨hbase, hlimit⟩

/-- What is read to guess is in the data. -/
theorem guessTouched_between (hbase : base ≤ p) (hlimit : p + n ≤ limit) (hmax : limit < 2 ^ 32) :
    ∀ t ∈ guessTouched mem p n, Between base limit t := by
  intro t ht
  rw [guessTouched, List.mem_append] at ht
  rcases ht with ht | ht
  · by_cases hn : 8 ≤ n
    · rw [if_pos hn] at ht
      rcases List.mem_cons.mp ht with rfl | ht
      · exact .of_le hbase (Nat.le_trans (Nat.add_le_add_left (Nat.min_le_left _ _) p) (by omega))
      · by_cases hrun : run isalpha mem p 4 = 4
        · rw [if_pos hrun, List.mem_singleton] at ht
          rw [ht, ptr_of_lt (by omega)]
          exact .of_le (by omega) (by omega)
        · rw [if_neg hrun] at ht
          exact absurd ht List.not_mem_nil
    · rw [if_neg hn] at ht
      exact absurd ht List.not_mem_nil
  · by_cases hdict : looksLikeDict mem p n = true
    · rw [if_pos hdict] at ht
      exact absurd ht List.not_mem_nil
    · rw [if_neg hdict, List.mem_singleton] at ht
      rw [ht]
      exact .of_le hbase (Nat.le_trans (Nat.add_le_add_left (Nat.min_le_left _ _) p) hlimit)

/-- What is read of the data is in them. -/
theorem valueTouched_between (hbase : base ≤ p) (hlimit : p + n ≤ limit) (hmax : limit < 2 ^ 32)
    (code : List UInt8) (type : FieldType) :
    ∀ t ∈ valueTouched mem code type p n, Between base limit t := by
  intro t ht
  cases type with
  | str =>
      rw [valueTouched] at ht
      split at ht
      · rw [List.mem_singleton.mp ht]
        exact .of_le hbase (Nat.le_trans (Nat.add_le_add_left (Nat.min_le_left _ _) p) hlimit)
      · exact absurd ht List.not_mem_nil
  | vers =>
      rw [valueTouched] at ht
      by_cases hn : 4 ≤ n
      · rw [if_pos hn, ptr_of_lt (by omega)] at ht
        rcases List.mem_cons.mp ht with rfl | ht
        · exact .of_le hbase (by omega)
        · rw [List.mem_singleton.mp ht]
          exact .of_le (by omega) (by omega)
      · rw [if_neg hn] at ht
        exact absurd ht List.not_mem_nil
  | _ => exact absurd ht List.not_mem_nil

theorem sub_wrapped {fin m : ℕ} (hp : p ≤ fin) (hfin : fin < p + m) :
    (fin + m - p) % m = fin - p := by
  rw [Nat.sub_add_comm hp, Nat.add_mod_right]
  exact Nat.mod_eq_of_lt (by omega)

/-- The difference of two pointers that are not too far apart. -/
theorem ptrdiff_eq {fin : ℕ} (hp : p ≤ fin) (hfin : fin < p + 2 ^ 31) :
    ptrdiff fin p = (fin - p : ℕ) := by
  have hlt : fin - p < 2 ^ 31 := by omega
  have hd : ptr (fin + 2 ^ 32 - p) = fin - p := sub_wrapped hp (by omega)
  simp only [ptrdiff, hd, if_pos hlt]

/-- No length takes a pointer beyond the address space. -/
def Trace.NoWrap (t : Trace) : Prop := ∀ f ∈ t.fields, f.1 + f.2 < 2 ^ 32

/-- Everything that is read is between two addresses. -/
def Trace.Inside (base limit : ℕ) (t : Trace) : Prop := ∀ r ∈ t.touched, Between base limit r

namespace Trace

variable {a b : Trace}

theorem noWrap_first (h : (a.andThen b).NoWrap) : a.NoWrap := by
  rw [andThen] at h
  split at h
  · exact fun f hf => h f (List.mem_append_left _ hf)
  · exact h

theorem noWrap_next (hret : a.ret = some true) (h : (a.andThen b).NoWrap) : b.NoWrap := by
  rw [andThen, if_pos hret] at h
  exact fun f hf => h f (List.mem_append_right _ hf)

theorem inside_andThen (ha : a.Inside base limit) (hb : a.ret = some true → b.Inside base limit) :
    (a.andThen b).Inside base limit := by
  rw [andThen]
  split
  case isTrue hret =>
    intro r hr
    rcases List.mem_append.mp hr with hr | hr
    · exact ha r hr
    · exact hb hret r hr
  case isFalse => exact ha

theorem inside_nil (ret : Option Bool) (fields : List (ℕ × ℕ)) :
    Inside base limit ⟨ret, [], fields⟩ := fun _ hr => absurd hr List.not_mem_nil

end Trace

/-- As long as no length takes a pointer beyond the address space, everything that is read is in
the buffer. -/
theorem dmapParse_between (fieldOf : List UInt8 → Option Field) (hmax : limit < 2 ^ 32)
    (hsize : limit < base + 2 ^ 31) : ∀ (rounds p fin : ℕ) (parent : Option Field),
      base ≤ p → p ≤ fin → fin ≤ limit → (dmapParse fieldOf mem rounds p fin parent).NoWrap →
        (dmapParse fieldOf mem rounds p fin parent).Inside base limit
  | 0, _, _, _, _, _, _, _ => Trace.inside_nil none []
  | rounds + 1, p, fin, parent, hbase, hp, hfin, hwrap => by
      by_cases hround : 8 ≤ ptrdiff fin p
      · have hplace : p + 8 ≤ fin := by
          rw [ptrdiff_eq hp (by omega)] at hround
          omega
        have hheader : ∀ t ∈ [(p, 4), (ptr (p + 4), 4)], Between base limit t := by
          intro t ht
          rw [ptr_of_lt (by omega)] at ht
          rcases List.mem_cons.mp ht with rfl | ht
          · exact .of_le hbase (by omega)
          · rw [List.mem_singleton.mp ht]
            exact .of_le (by omega) (by omega)
        rw [dmapParse, if_pos hround] at hwrap ⊢
        dsimp only at hwrap ⊢
        rw [ptr_of_lt (by omega : p + 8 < 2 ^ 32)] at hwrap ⊢
        generalize readU32 mem (ptr (p + 4)) = n at hwrap ⊢
        generalize fieldOf [mem p, mem (ptr (p + 1)), mem (ptr (p + 2)), mem (ptr (p + 3))] = field
          at hwrap ⊢
        by_cases hover : fin < ptr (p + 8 + n)
        · rw [if_pos hover]
          exact hheader
        · rw [if_neg hover] at hwrap ⊢
          -- the field fits into what is left
          have hend : p + 8 + n < 2 ^ 32 :=
            Trace.noWrap_first hwrap (p + 8, n) List.mem_cons_self
          rw [ptr_of_lt hend] at hover hwrap ⊢
          have hdata : p + 8 + n ≤ fin := Nat.not_lt.mp hover
          have hnext := Trace.noWrap_next rfl hwrap
          generalize typeOf mem parent field (p + 8) n = type at hnext ⊢
          apply Trace.inside_andThen
          · intro t ht
            rcases List.mem_append.mp ht with ht | ht
            · rcases List.mem_append.mp ht with ht | ht
              · exact hheader t ht
              · split at ht
                · exact guessTouched_between (by omega) (by omega) hmax t ht
                · exact absurd ht List.not_mem_nil
            · exact valueTouched_between (by omega) (by omega) hmax _ type t ht
          · intro _
            apply Trace.inside_andThen
            · have hinner := Trace.noWrap_first hnext
              split
              case isTrue hdict =>
                -- the data of a dictionary are a buffer of their own
                rw [if_pos hdict] at hinner
                exact dmapParse_between fieldOf hmax hsize rounds (p + 8) (p + 8 + n) field
                  (by omega) (by omega) (by omega) hinner
              case isFalse =>
                split
                · exact Trace.inside_nil _ _
                · exact Trace.inside_nil _ _
            · intro hret
              exact dmapParse_between fieldOf hmax hsize rounds (p + 8 + n) fin parent (by omega)
                hdata hfin (Trace.noWrap_next hret hnext)
      · rw [dmapParse, if_neg hround]
        exact Trace.inside_nil _ _

end Dmap

end SqueezeliteMuse
