/-
SqueezeliteMuse/HttpResource.lean

`get_path_from_uri`, `set_content_type_from_req` and `resource_filehandler` of
http_server_handlers.c.

The path of the URI is copied to a buffer, and the name asked for is a pointer into it.  The
loop that removes the trailing blanks begins on the NUL and ends there.  An extension is
compared with as many characters as it has itself in front of the NUL, which may lie in front
of the buffer, and so may the character in front of an empty name.  A resource is taken where
the name is part of its path.

Main result: `correct_iff`: which of the URIs that fit in the buffer are answered as they
should be.
-/
import SqueezeliteMuse.Lib.CString
import Mathlib.Data.List.DropRight
import Mathlib.Data.List.Infix

namespace SqueezeliteMuse

namespace HttpResource

open CString

export CString (ascii tolower cstr)

/-! ### The code -/

/-- The URI of a request. -/
structure Uri where
  bytes : List UInt8
  noNul : 0 ∉ bytes

/-- `FILE_PATH_MAX` -/
def filePathMax (espVfsPathMax : ℕ) : ℕ := espVfsPathMax + 128

/-- `dest[i]`; `none` outside the buffer. -/
def char (dest : List UInt8) (i : ℤ) : Option UInt8 := if 0 ≤ i then dest[i.toNat]? else none

/-- The string at `dest + i`; `none` if it is not all in the buffer. -/
def string (dest : List UInt8) (i : ℤ) : Option (List UInt8) :=
  if 0 ≤ i ∧ 0 ∈ dest.drop i.toNat then some (cstr (dest.drop i.toNat)) else none

/-- `pathlen` of `get_path_from_uri` -/
def pathlen (uri : List UInt8) : ℕ :=
  let toQuest :=
    match uri.idxOf? 63 with
    | some quest => min uri.length quest
    | none => uri.length
  match uri.idxOf? 35 with
  | some hash => min toQuest hash
  | none => toQuest

/-- `while(*sr== ' ') *sr-- = '\0';` -/
def stripFrom (dest : List UInt8) : ℕ → Option (List UInt8)
  | 0 => if char dest 0 = some 32 then none else (char dest 0).map fun _ => dest
  | sr + 1 =>
      if char dest (sr + 1 : ℕ) = some 32 then stripFrom (dest.set (sr + 1) 0) sr
      else (char dest (sr + 1 : ℕ)).map fun _ => dest

/-- `while(p && *(++p)!='\0')`, with what is left of the buffer: where the last slash is. -/
def slashes : List UInt8 → ℕ → ℕ → Option ℕ
  | [], _, _ => none
  | c :: rest, p, last =>
      if c = 0 then some last else slashes rest (p + 1) (if c = 47 then p else last)

/-- A pointer into the path buffer. -/
structure Filename where
  dest : List UInt8
  start : ℕ

/-- Where the file name begins. -/
def lastFs (dest : List UInt8) : Option ℕ := do
  let s ← string dest 0
  match s.idxOf? 47 with
  | none => some 0
  | some first =>
      let last ← slashes (dest.drop (first + 1)) (first + 1) first
      some (last + 1)

/-- `get_path_from_uri`: the inner `none` is the NULL it returns, the outer an access outside of
the buffer. -/
def getPathFromUri (uri : List UInt8) (destsize : ℕ) : Option (Option Filename) :=
  if destsize < pathlen uri + 1 then some none
  else do
    let dest ← strlcpy (List.replicate destsize 0) 0 uri (pathlen uri + 1)
    let dest ← stripFrom dest (pathlen uri)
    let start ← lastFs dest
    some (some ⟨dest, start⟩)

/-- `IS_FILE_EXT` -/
def isFileExt (file : Filename) (ext : List UInt8) : Option Bool := do
  let name ← string file.dest file.start
  let tail ← string file.dest (file.start + name.length - (ext.length + 1) + 1)
  some (decide (CaseEq tail ext))

/-- The extensions, and their types, in the order of the code. -/
def extensions : List (List UInt8 × String) :=
  [(ascii ".pdf", "application/pdf"), (ascii ".html", "text/html"), (ascii ".jpeg", "image/jpeg"),
    (ascii ".png", "image/png"), (ascii ".ico", "image/x-icon"), (ascii ".css", "text/css"),
    (ascii ".js", "text/javascript"), (ascii ".json", "application/json")]

/-- The branches of `set_content_type_from_file` for a name that is not empty. -/
def typeFrom (file : Filename) : List (List UInt8 × String) → Option String
  | [] => some "text/plain"
  | (ext, type) :: rest => do
      if ← isFileExt file ext then some type else typeFrom file rest

/-- `set_content_type_from_file`: the type that is set. -/
def setContentTypeFromFile (file : Filename) : Option String := do
  let name ← string file.dest file.start
  if name.length = 0 then some "text/html" else typeFrom file extensions

/-- `httpd_err_code_t`, as far as it is used -/
inductive ErrCode
  | internalServerError
  | badRequest
  | notFound
  deriving DecidableEq

/-- The arguments of `httpd_resp_send_err` -/
structure HttpErr where
  code : ErrCode
  text : String
  deriving DecidableEq

def tooLong : HttpErr := ⟨.internalServerError, "Filename too long"⟩

def forbidden : HttpErr := ⟨.badRequest, "Browsing files forbidden."⟩

def notFound : HttpErr := ⟨.notFound, "File does not exist"⟩

/-- `set_content_type_from_req` -/
def setContentTypeFromReq (espVfsPathMax : ℕ) (uri : List UInt8) :
    Option (Except HttpErr String) := do
  match ← getPathFromUri uri (filePathMax espVfsPathMax) with
  | none => some (.error tooLong)
  | some file =>
      let name ← string file.dest file.start
      let last ← char file.dest (file.start + name.length - 1)
      if last = 47 ∧ 1 < name.length then some (.error forbidden)
      else (setContentTypeFromFile file).map .ok

/-- `resource_lookups` -/
def resourceLookups : List (List UInt8) :=
  [ascii "/favicon-32x32.png", ascii "/index.html.gz", ascii "/js/index.0e064e.bundle.js.gz",
    ascii "/js/node-modules.0e064e.bundle.js.gz", ascii "/js/runtime.0e064e.bundle.js.gz", []]

/-- The loop of `resource_get_index`. -/
def indexFrom (fileName : List UInt8) : ℕ → List (List UInt8) → Option ℕ
  | _, [] => none
  | i, lookup :: rest =>
      if lookup = [] then none
      else if (strstr lookup fileName).isSome then some i
      else indexFrom fileName (i + 1) rest

/-- `resource_get_index` -/
def resourceGetIndex (fileName : List UInt8) : Option ℕ := indexFrom fileName 0 resourceLookups

/-- The resource that is sent, with its headers. -/
structure Sent where
  type : String
  gzip : Bool
  idx : ℕ
  deriving DecidableEq

/-- `resource_filehandler` -/
def resourceFilehandler (espVfsPathMax : ℕ) (uri : List UInt8) :
    Option (Except HttpErr Sent) := do
  match ← getPathFromUri uri (filePathMax espVfsPathMax) with
  | none => some (.error tooLong)
  | some file =>
      let name ← string file.dest file.start
      let last ← char file.dest (file.start + name.length - 1)
      if last = 47 then some (.error forbidden)
      else
        match resourceGetIndex name with
        | none => some (.error notFound)
        | some idx => do
            let type ← setContentTypeFromFile file
            let lookup ← resourceLookups[idx]?
            some (.ok ⟨type, (strstr lookup (ascii ".gz")).isSome, idx⟩)

/-! ### What they are for -/

/-- The URI without its query and its fragment. -/
def path (uri : List UInt8) : List UInt8 := uri.takeWhile fun c => c ≠ 63 && c ≠ 35

/-- What follows the last slash. -/
def nameOf (s : List UInt8) : List UInt8 := s.rtakeWhile fun c => c ≠ 47

/-- The name that a URI asks for. -/
def requested (uri : List UInt8) : List UInt8 := nameOf ((path uri).rdropWhile fun c => c = 32)

/-- The content type for a name. -/
def typeOf (name : List UInt8) : String :=
  match extensions.find? fun e => e.1 <:+ name.map tolower with
  | some e => e.2
  | none => "text/plain"

/-- A resource has this name, or this name and `.gz`. -/
def Named (name : List UInt8) (idx : ℕ) : Prop :=
  ∃ lookup, resourceLookups[idx]? = some lookup ∧ lookup ≠ [] ∧
    (nameOf lookup = name ∨ nameOf lookup = name ++ ascii ".gz")

/-- The path fits in the buffer. -/
def Fits (espVfsPathMax : ℕ) (uri : List UInt8) : Prop :=
  (path uri).length + 1 ≤ filePathMax espVfsPathMax

/-- The buffer is not left, the name is the one asked for, and the resource of this name is sent
with its type, or else an error. -/
structure Correct (espVfsPathMax : ℕ) (uri : List UInt8) : Prop where
  name : ∃ r, getPathFromUri uri (filePathMax espVfsPathMax) = some r ∧
    ∀ file ∈ r, string file.dest file.start = some (requested uri)
  type : (setContentTypeFromReq espVfsPathMax uri).isSome = true
  answer : ∃ a, resourceFilehandler espVfsPathMax uri = some a ∧
    ∀ idx type, (∃ gzip, a = .ok ⟨type, gzip, idx⟩) ↔
      Fits espVfsPathMax uri ∧ Named (requested uri) idx ∧ type = typeOf (requested uri)

/-- A path on which no shortcut of the code shows: it is not empty and does not end in a blank,
an extension fits in it, and its name is part of a resource's path only as the resource's
name. -/
structure Plain (p : List UInt8) : Prop where
  nonempty : p ≠ []
  noBlank : p.getLast? ≠ some 32
  long : nameOf p = [] ∨ 5 ≤ p.length ∨ CaseEq p (ascii ".pdf")
  whole : nameOf p ≠ [] → ∀ lookup ∈ resourceLookups, nameOf p <:+: lookup →
    ∃ idx, Named (nameOf p) idx

/-! ### The path in the buffer -/

variable {m : ℕ} {uri p rest : List UInt8}

theorem pathlen_cons (c : UInt8) (uri : List UInt8) :
    pathlen (c :: uri) = if c = 63 ∨ c = 35 then 0 else pathlen uri + 1 := by
  simp only [pathlen, List.idxOf?_cons, List.length_cons, beq_iff_eq]
  by_cases hquest : c = 63
  · subst hquest
    rcases uri.idxOf? 35 with - | hash <;> simp
  by_cases hhash : c = 35
  · subst hhash
    rcases uri.idxOf? 63 with - | quest <;> simp
  rw [if_neg hquest, if_neg hhash, if_neg (not_or.mpr ⟨hquest, hhash⟩)]
  rcases uri.idxOf? 63 with - | quest <;> rcases uri.idxOf? 35 with - | hash <;>
    simp only [Option.map_none, Option.map_some, Nat.add_min_add_right]

theorem pathlen_eq (uri : List UInt8) : pathlen uri = (path uri).length := by
  induction uri with
  | nil => rfl
  | cons c uri ih =>
      rw [pathlen_cons, path, List.takeWhile_cons]
      by_cases hend : c = 63 ∨ c = 35
      · rw [if_pos hend, if_neg (by simpa [or_iff_not_imp_left] using hend), List.length_nil]
      · rw [if_neg hend, if_pos (by simpa [not_or] using hend), List.length_cons, ih, path]

theorem take_pathlen (uri : List UInt8) : uri.take (pathlen uri) = path uri := by
  rw [pathlen_eq]
  exact (List.prefix_iff_eq_take.mp (List.takeWhile_prefix _)).symm

theorem noNul_path (hnul : 0 ∉ uri) : 0 ∉ path uri := fun h =>
  hnul ((List.takeWhile_prefix _).subset h)

theorem pathlen_le (uri : List UInt8) : pathlen uri ≤ uri.length := by
  rw [pathlen_eq]
  exact (List.takeWhile_prefix _).length_le

/-- What stands in the buffer from some place of the path on. -/
theorem string_path (hp : 0 ∉ p) {i : ℕ} (hi : i ≤ p.length) :
    string (p ++ 0 :: rest) i = some (p.drop i) := by
  have hdrop : (p ++ 0 :: rest).drop ((i : ℤ).toNat) = p.drop i ++ 0 :: rest := by
    rw [Int.toNat_natCast, List.drop_append_of_le_length hi]
  have hkeep : ∀ c ∈ p.drop i, decide (c ≠ 0) = true := fun c hc =>
    decide_eq_true fun hzero => hp (hzero ▸ List.mem_of_mem_drop hc)
  rw [string, hdrop, if_pos ⟨Int.natCast_nonneg i, by simp⟩, cstr,
    List.takeWhile_append_of_pos hkeep, List.takeWhile_cons_of_neg (by simp), List.append_nil]

theorem string_outside {i : ℤ} (hi : i < 0) (dest : List UInt8) : string dest i = none :=
  if_neg fun h => absurd h.1 (by omega)

theorem char_outside {i : ℤ} (hi : i < 0) (dest : List UInt8) : char dest i = none :=
  if_neg (by omega)

theorem char_path {i : ℕ} (hi : i < p.length) :
    char (p ++ 0 :: rest) i = some (p.get ⟨i, hi⟩) := by
  rw [char, if_pos (Int.natCast_nonneg i), Int.toNat_natCast, List.getElem?_append_left hi,
    List.getElem?_eq_getElem hi]
  rfl

theorem char_nul : char (p ++ 0 :: rest) p.length = some 0 := by
  rw [char, if_pos (Int.natCast_nonneg _), Int.toNat_natCast, List.getElem?_append_right le_rfl,
    Nat.sub_self]
  rfl

/-- The loop for the trailing blanks begins on the NUL. -/
theorem stripFrom_path : stripFrom (p ++ 0 :: rest) p.length = some (p ++ 0 :: rest) := by
  have hnul : char (p ++ 0 :: rest) p.length = some 0 := char_nul
  have hne : ¬ (some 0 : Option UInt8) = some 32 := by decide
  rcases hlen : p.length with - | n
  · rw [hlen] at hnul
    have hzero : char (p ++ 0 :: rest) 0 = some 0 := hnul
    rw [stripFrom, hzero, if_neg hne, Option.map_some]
  · rw [hlen] at hnul
    rw [stripFrom, hnul, if_neg hne, Option.map_some]

/-! ### The last slash -/

theorem nameOf_of_not_mem (h : 47 ∉ p) : nameOf p = p :=
  List.rtakeWhile_eq_self_iff.mpr fun _ hc => decide_eq_true fun heq => h (heq ▸ hc)

theorem not_mem_nameOf (p : List UInt8) : 47 ∉ nameOf p := fun h => by
  simpa using List.mem_rtakeWhile_imp h

theorem nameOf_append (a b : List UInt8) : nameOf (a ++ 47 :: b) = nameOf b := by
  induction b using List.reverseRecOn with
  | nil => rw [nameOf, nameOf, List.rtakeWhile_concat_neg _ _ _ (by simp), List.rtakeWhile_nil]
  | append_singleton b c ih =>
      rw [← List.cons_append, ← List.append_assoc, nameOf, nameOf, List.rtakeWhile_concat,
        List.rtakeWhile_concat]
      simp only [nameOf] at ih
      rw [ih]

/-- Either there is no slash, or the name stands behind one. -/
theorem nameOf_split (p : List UInt8) : 47 ∉ p ∨ ∃ a, p = a ++ 47 :: nameOf p := by
  by_cases h : 47 ∈ p
  · obtain ⟨a, b, hp, hb⟩ : ∃ a b, p = a ++ 47 :: b ∧ 47 ∉ b := by
      obtain ⟨b, a, hrev, hb⟩ := List.eq_append_cons_of_mem (List.mem_reverse.mpr h)
      refine ⟨a.reverse, b.reverse, ?_, by simpa using hb⟩
      rw [← List.reverse_reverse p, hrev]
      simp
    refine .inr ⟨a, ?_⟩
    conv_lhs => rw [hp]
    rw [hp, nameOf_append, nameOf_of_not_mem hb]
  · exact .inl h

theorem slashes_end (hp : 0 ∉ p) (hslash : 47 ∉ p) (i last : ℕ) :
    slashes (p ++ 0 :: rest) i last = some last := by
  induction p generalizing i with
  | nil => rfl
  | cons c p ih =>
      simp only [List.mem_cons, not_or] at hp hslash
      rw [List.cons_append, slashes, if_neg (Ne.symm hp.1), if_neg (Ne.symm hslash.1)]
      exact ih hp.2 hslash.2 (i + 1)

theorem slashes_append {a : List UInt8} (ha : 0 ∉ a) (t : List UInt8) (i last : ℕ) :
    slashes (a ++ 47 :: t) i last = slashes t (i + a.length + 1) (i + a.length) := by
  induction a generalizing i last with
  | nil => rfl
  | cons c a ih =>
      simp only [List.mem_cons, not_or] at ha
      rw [List.cons_append, slashes, if_neg (Ne.symm ha.1), ih ha.2, List.length_cons]
      congr 1 <;> omega

/-- The file name begins where the name of the path does. -/
theorem lastFs_path (hp : 0 ∉ p) :
    lastFs (p ++ 0 :: rest) = some (p.length - (nameOf p).length) := by
  have hstring : string (p ++ 0 :: rest) 0 = some p := string_path hp (Nat.zero_le _)
  simp only [lastFs, hstring, Option.bind_eq_bind, Option.bind_some]
  by_cases hslash : 47 ∈ p
  · obtain ⟨a, t, rfl, ha⟩ := List.eq_append_cons_of_mem hslash
    have hidx : (a ++ 47 :: t).idxOf? 47 = some a.length := by
      rw [List.idxOf?_eq_some_iff]
      refine ⟨by simp, by simp, fun j hj => ?_⟩
      rw [List.getElem_append_left hj]
      exact fun heq => ha (heq ▸ List.getElem_mem hj)
    have hdrop : (a ++ 47 :: t ++ 0 :: rest).drop (a.length + 1) = t ++ 0 :: rest := by
      rw [List.append_assoc, List.cons_append, List.drop_append]
      simp
    simp only [List.mem_append, List.mem_cons, not_or] at hp
    rw [hidx]
    simp only [hdrop, nameOf_append, List.length_append, List.length_cons]
    rcases nameOf_split t with ht | ⟨b, hb⟩
    · rw [slashes_end hp.2.2 ht, Option.bind_some, nameOf_of_not_mem ht]
      congr 1
      omega
    · have hb₀ : 0 ∉ b := fun h => hp.2.2 (hb ▸ List.mem_append_left _ h)
      have hn₀ : 0 ∉ nameOf t := fun h => hp.2.2 ((List.rtakeWhile_suffix _ _).subset h)
      have hlen := congrArg List.length hb
      rw [List.length_append, List.length_cons] at hlen
      conv_lhs => rw [hb]
      rw [List.append_assoc, List.cons_append, slashes_append hb₀,
        slashes_end hn₀ (not_mem_nameOf t), Option.bind_some]
      congr 1
      omega
  · rw [List.idxOf?_eq_none_iff.mpr hslash, nameOf_of_not_mem hslash, Nat.sub_self]

theorem drop_nameOf (p : List UInt8) : p.drop (p.length - (nameOf p).length) = nameOf p :=
  (List.suffix_iff_eq_drop.mp (List.rtakeWhile_suffix _ _)).symm

theorem length_nameOf_le (p : List UInt8) : (nameOf p).length ≤ p.length :=
  (List.rtakeWhile_suffix _ _).length_le

/-- The file name, as the buffer has it. -/
def fileOf (m : ℕ) (uri : List UInt8) : Filename :=
  ⟨path uri ++ 0 :: List.replicate (filePathMax m - ((path uri).length + 1)) 0,
    (path uri).length - (nameOf (path uri)).length⟩

theorem getPathFromUri_fits (hnul : 0 ∉ uri) (h : Fits m uri) :
    getPathFromUri uri (filePathMax m) = some (some (fileOf m uri)) := by
  have hle := pathlen_le uri
  have hcopy : strlcpy (List.replicate (filePathMax m) 0) 0 uri (pathlen uri + 1)
      = some (path uri ++ 0 :: List.replicate (filePathMax m - ((path uri).length + 1)) 0) := by
    rw [strlcpy, if_neg (Nat.succ_ne_zero _), Nat.add_sub_cancel, min_eq_right hle, take_pathlen,
      pathlen_eq, List.length_replicate, Nat.zero_add, List.drop_replicate, List.take_zero]
    exact if_pos h
  rw [getPathFromUri, if_neg (by rw [pathlen_eq]; exact not_lt.mpr h), hcopy]
  simp only [Option.bind_eq_bind, Option.bind_some, pathlen_eq, stripFrom_path,
    lastFs_path (noNul_path hnul)]
  rfl

theorem getPathFromUri_long (h : ¬ Fits m uri) :
    getPathFromUri uri (filePathMax m) = some none := by
  rw [getPathFromUri, if_pos (by rw [pathlen_eq]; exact not_le.mp h)]

theorem string_fileOf (hnul : 0 ∉ uri) :
    string (fileOf m uri).dest (fileOf m uri).start = some (nameOf (path uri)) := by
  have hstring := @string_path _ (List.replicate (filePathMax m - ((path uri).length + 1)) 0)
    (noNul_path hnul) _ (Nat.sub_le (path uri).length (nameOf (path uri)).length)
  rw [drop_nameOf] at hstring
  exact hstring

theorem start_add (m : ℕ) (uri : List UInt8) :
    ((fileOf m uri).start : ℤ) + (nameOf (path uri)).length = (path uri).length := by
  have hle := length_nameOf_le (path uri)
  simp only [fileOf]
  omega

/-- The last character of the file name is the last one of the path, if there is one. -/
theorem char_last (m : ℕ) (uri : List UInt8) :
    char (fileOf m uri).dest ((fileOf m uri).start + (nameOf (path uri)).length - 1)
      = (path uri).getLast? := by
  rw [start_add, List.getLast?_eq_getElem?]
  rcases Nat.eq_zero_or_pos (path uri).length with hzero | hpos
  · rw [char_outside (by omega), hzero, List.getElem?_eq_none (by omega)]
  · have hlt : (path uri).length - 1 < (path uri).length := by omega
    have hindex : ((path uri).length : ℤ) - 1 = ((path uri).length - 1 : ℕ) := by omega
    rw [hindex, fileOf, char_path hlt, List.getElem?_eq_getElem hlt, List.get_eq_getElem]

theorem getLast?_slash : p.getLast? = some 47 ↔ p ≠ [] ∧ nameOf p = [] := by
  rw [nameOf, List.rtakeWhile_eq_nil_iff]
  rcases p.eq_nil_or_concat with rfl | ⟨a, c, rfl⟩
  · simp
  · simp

/-! ### The content type -/

theorem isFileExt_fileOf (hnul : 0 ∉ uri) (ext : List UInt8) :
    isFileExt (fileOf m uri) ext =
      if ext.length ≤ (path uri).length then
        some (decide (CaseEq ((path uri).drop ((path uri).length - ext.length)) ext))
      else none := by
  have hindex : ((fileOf m uri).start : ℤ) + (nameOf (path uri)).length - (ext.length + 1) + 1
      = (path uri).length - ext.length := by
    rw [start_add]
    omega
  simp only [isFileExt, string_fileOf hnul, hindex, Option.bind_eq_bind, Option.bind_some]
  split
  case isTrue hle =>
    have hnat : ((path uri).length : ℤ) - ext.length = ((path uri).length - ext.length : ℕ) := by
      omega
    rw [hnat, fileOf, string_path (noNul_path hnul) (Nat.sub_le _ _), Option.bind_some]
  case isFalse hlt => rw [string_outside (by omega), Option.bind_none]

theorem isSome_typeFrom (hnul : 0 ∉ uri) {exts : List (List UInt8 × String)}
    (hlong : ∀ e ∈ exts, e.1.length ≤ (path uri).length) :
    (typeFrom (fileOf m uri) exts).isSome = true := by
  induction exts with
  | nil => rfl
  | cons e exts ih =>
      rw [typeFrom, isFileExt_fileOf hnul, if_pos (hlong e List.mem_cons_self)]
      simp only [Option.bind_eq_bind, Option.bind_some]
      split
      case isTrue => rfl
      case isFalse => exact ih fun e he => hlong e (List.mem_cons_of_mem _ he)

/-- The extension is looked for in the name, if the name is long enough. -/
theorem typeFrom_eq (hnul : 0 ∉ uri) (hlen : 5 ≤ (nameOf (path uri)).length)
    {exts : List (List UInt8 × String)}
    (hexts : ∀ e ∈ exts, e.1.length ≤ 5 ∧ e.1.map tolower = e.1) :
    typeFrom (fileOf m uri) exts = some (match exts.find? fun e =>
        e.1 <:+ (nameOf (path uri)).map tolower with
      | some e => e.2
      | none => "text/plain") := by
  induction exts with
  | nil => rfl
  | cons e exts ih =>
      obtain ⟨hshort, hlower⟩ := hexts e List.mem_cons_self
      have hle := length_nameOf_le (path uri)
      have htail : (path uri).drop ((path uri).length - e.1.length)
          = (nameOf (path uri)).drop ((nameOf (path uri)).length - e.1.length) := by
        conv_rhs => rw [← drop_nameOf (path uri), List.drop_drop, List.length_drop]
        congr 1
        omega
      have hcase : CaseEq ((nameOf (path uri)).drop ((nameOf (path uri)).length - e.1.length)) e.1
          ↔ e.1 <:+ (nameOf (path uri)).map tolower := by
        rw [CaseEq, hlower, List.suffix_iff_eq_drop, List.length_map, List.map_drop]
        exact eq_comm
      rw [typeFrom, isFileExt_fileOf hnul, if_pos (hshort.trans (hlen.trans hle)), htail]
      simp only [Option.bind_eq_bind, Option.bind_some, decide_eq_true_eq, hcase]
      split
      case isTrue hsuffix => rw [List.find?_cons_of_pos (by simpa using hsuffix)]
      case isFalse hsuffix =>
        rw [List.find?_cons_of_neg (by simpa using hsuffix)]
        exact ih fun e he => hexts e (List.mem_cons_of_mem _ he)

theorem extensions_short : ∀ e ∈ extensions, e.1.length ≤ 5 ∧ e.1.map tolower = e.1 := by decide

theorem isSome_setContentTypeFromFile (hnul : 0 ∉ uri) :
    (setContentTypeFromFile (fileOf m uri)).isSome = true ↔
      nameOf (path uri) = [] ∨ 5 ≤ (path uri).length ∨ CaseEq (path uri) (ascii ".pdf") := by
  simp only [setContentTypeFromFile, string_fileOf hnul, Option.bind_eq_bind, Option.bind_some]
  split
  case isTrue hempty => simp [List.length_eq_zero_iff.mp hempty]
  case isFalse hne =>
    simp only [List.length_eq_zero_iff] at hne
    simp only [hne, false_or]
    by_cases hlong : 5 ≤ (path uri).length
    · simp only [hlong, true_or, iff_true]
      exact isSome_typeFrom hnul fun e he => (extensions_short e he).1.trans hlong
    simp only [hlong, false_or]
    have hpdf : (ascii ".pdf").length = 4 := by decide
    have hhtml : ¬ (ascii ".html").length ≤ (path uri).length := by
      have hfive : (ascii ".html").length = 5 := by decide
      omega
    rw [extensions, typeFrom, isFileExt_fileOf hnul, hpdf]
    by_cases hfour : 4 ≤ (path uri).length
    · have hwhole : (path uri).drop ((path uri).length - 4) = path uri := by
        rw [show (path uri).length - 4 = 0 by omega, List.drop_zero]
      rw [if_pos hfour, hwhole]
      simp only [Option.bind_eq_bind, Option.bind_some, decide_eq_true_eq]
      split
      case isTrue heq => simp [heq]
      case isFalse hdiff =>
        rw [typeFrom, isFileExt_fileOf hnul, if_neg hhtml]
        simp [hdiff]
    · rw [if_neg hfour]
      refine ⟨fun h => absurd h (by simp), fun h => ?_⟩
      have hlen := congrArg List.length h
      rw [List.length_map, List.length_map, hpdf] at hlen
      omega

/-- No path is refused: a name that ends in a slash is empty. -/
theorem setContentTypeFromReq_fits (hnul : 0 ∉ uri) (hfits : Fits m uri) :
    setContentTypeFromReq m uri =
      (path uri).getLast?.bind fun _ => (setContentTypeFromFile (fileOf m uri)).map .ok := by
  simp only [setContentTypeFromReq, getPathFromUri_fits hnul hfits, string_fileOf hnul, char_last,
    Option.bind_eq_bind, Option.bind_some]
  rcases hlast : (path uri).getLast? with - | last
  · rfl
  · have hname : ¬ (last = 47 ∧ 1 < (nameOf (path uri)).length) := by
      rintro ⟨rfl, hlen⟩
      rw [(getLast?_slash.mp hlast).2] at hlen
      exact absurd hlen (by simp)
    rw [Option.bind_some, Option.bind_some, if_neg hname]

theorem isSome_setContentTypeFromReq (hnul : 0 ∉ uri) (hfits : Fits m uri) :
    (setContentTypeFromReq m uri).isSome = true ↔ path uri ≠ [] ∧
      (nameOf (path uri) = [] ∨ 5 ≤ (path uri).length ∨ CaseEq (path uri) (ascii ".pdf")) := by
  rw [setContentTypeFromReq_fits hnul hfits]
  rcases hlast : (path uri).getLast? with - | last
  · simp [List.getLast?_eq_none_iff.mp hlast]
  · have hne : path uri ≠ [] := fun h => by simp [h] at hlast
    rw [Option.bind_some, Option.isSome_map, isSome_setContentTypeFromFile hnul]
    exact (and_iff_right hne).symm

/-! ### The resources -/

theorem isSome_indexFrom (name : List UInt8) (i : ℕ) (lookups : List (List UInt8)) :
    (indexFrom name i lookups).isSome = true ↔
      ∃ lookup ∈ lookups.takeWhile (· ≠ []), name <:+: lookup := by
  induction lookups generalizing i with
  | nil => simp [indexFrom]
  | cons lookup lookups ih =>
      rw [indexFrom]
      by_cases hend : lookup = []
      · simp [hend]
      · rw [if_neg hend, List.takeWhile_cons_of_pos (by simpa using hend)]
        simp only [strstr_isSome, List.mem_cons, exists_eq_or_imp]
        split
        case isTrue hin => simp [hin]
        case isFalse hin => rw [ih (i + 1), or_iff_right hin]

theorem isSome_resourceGetIndex {name : List UInt8} (hname : name ≠ []) :
    (resourceGetIndex name).isSome = true ↔ ∃ lookup ∈ resourceLookups, name <:+: lookup := by
  have htable : resourceLookups = resourceLookups.takeWhile (· ≠ []) ++ [[]] := by decide
  rw [resourceGetIndex, isSome_indexFrom]
  refine ⟨fun ⟨l, hl, hin⟩ => ⟨l, (List.takeWhile_prefix _).subset hl, hin⟩, ?_⟩
  rintro ⟨l, hl, hin⟩
  rw [htable, List.mem_append, List.mem_singleton] at hl
  rcases hl with hl | rfl
  · exact ⟨l, hl, hin⟩
  · exact absurd (List.infix_nil.mp hin) hname

theorem index_table : ∀ i : Fin resourceLookups.length, resourceLookups.get i ≠ [] →
    resourceGetIndex (nameOf (resourceLookups.get i)) = some i.val ∧
      5 ≤ (nameOf (resourceLookups.get i)).length := by decide

theorem index_table_gz : ∀ i : Fin resourceLookups.length,
    ascii ".gz" <:+ nameOf (resourceLookups.get i) →
    resourceGetIndex ((nameOf (resourceLookups.get i)).rdrop 3) = some i.val ∧
      5 ≤ ((nameOf (resourceLookups.get i)).rdrop 3).length := by decide

/-- The resources' names: the search finds each with and without its `.gz`. -/
theorem index_of_named {name : List UInt8} {idx : ℕ} (h : Named name idx) :
    resourceGetIndex name = some idx ∧ 5 ≤ name.length ∧ idx < resourceLookups.length := by
  obtain ⟨lookup, hlookup, hne, hname⟩ := h
  obtain ⟨hidx, rfl⟩ := List.getElem?_eq_some_iff.mp hlookup
  rcases hname with rfl | hgzip
  · obtain ⟨hindex, hlen⟩ := index_table ⟨idx, hidx⟩ hne
    exact ⟨hindex, hlen, hidx⟩
  · obtain ⟨hindex, hlen⟩ := index_table_gz ⟨idx, hidx⟩ ⟨name, hgzip.symm⟩
    have hgz : (ascii ".gz").length = 3 := by decide
    have hdrop : (nameOf (resourceLookups.get ⟨idx, hidx⟩)).rdrop 3 = name := by
      rw [List.rdrop, List.get_eq_getElem, hgzip, List.length_append, hgz, Nat.add_sub_cancel,
        List.take_left]
    rw [hdrop] at hindex hlen
    exact ⟨hindex, hlen, hidx⟩

theorem Named.unique {name : List UInt8} {i j : ℕ} (hi : Named name i) (hj : Named name j) :
    i = j :=
  Option.some.inj ((index_of_named hi).1.symm.trans (index_of_named hj).1)

theorem not_named_nil (idx : ℕ) : ¬ Named [] idx := fun h =>
  absurd (index_of_named h).2.1 (by simp)

/-! ### The requests -/

/-- A name without trailing blanks. -/
theorem requested_eq (h : (path uri).getLast? ≠ some 32) : requested uri = nameOf (path uri) := by
  have hself : (path uri).rdropWhile (fun c => c = 32) = path uri :=
    List.rdropWhile_eq_self_iff.mpr fun hne hblank =>
      h (by rw [List.getLast?_eq_some_getLast hne, of_decide_eq_true hblank])
  rw [requested, hself]

theorem requested_ne (h : (path uri).getLast? = some 32) : requested uri ≠ nameOf (path uri) := by
  obtain ⟨a, ha⟩ := List.getLast?_eq_some_iff.mp h
  have hname : nameOf (path uri) = nameOf a ++ [32] := by
    rw [ha, nameOf, List.rtakeWhile_concat_pos _ _ _ (by decide), nameOf]
  intro heq
  rw [hname] at heq
  obtain ⟨b, hb⟩ := List.rtakeWhile_suffix (fun c : UInt8 => c ≠ 47)
    ((path uri).rdropWhile fun c => c = 32)
  change b ++ requested uri = _ at hb
  rw [heq, ← List.append_assoc] at hb
  have hne : (path uri).rdropWhile (fun c => c = 32) ≠ [] := by
    rw [← hb]
    simp
  refine List.rdropWhile_last_not _ _ hne ?_
  simp [← hb]

theorem resourceFilehandler_fits (hnul : 0 ∉ uri) (hfits : Fits m uri) :
    resourceFilehandler m uri = (path uri).getLast?.bind fun last =>
      if last = 47 then some (.error forbidden)
      else
        match resourceGetIndex (nameOf (path uri)) with
        | none => some (.error notFound)
        | some idx =>
            (setContentTypeFromFile (fileOf m uri)).bind fun type =>
              resourceLookups[idx]?.bind fun lookup =>
                some (.ok ⟨type, (strstr lookup (ascii ".gz")).isSome, idx⟩) := by
  simp only [resourceFilehandler, getPathFromUri_fits hnul hfits, string_fileOf hnul, char_last,
    Option.bind_eq_bind, Option.bind_some]

theorem error_not_sent (err : HttpErr) (type : String) (idx : ℕ) :
    ¬ ∃ gzip, (.error err : Except HttpErr Sent) = .ok ⟨type, gzip, idx⟩ := by
  rintro ⟨_, hok⟩
  cases hok

/-- A path that does not fit is refused. -/
theorem correct_of_long (h : ¬ Fits m uri) : Correct m uri where
  name := ⟨none, getPathFromUri_long h, fun _ hfile => absurd hfile (by simp)⟩
  type := by simp [setContentTypeFromReq, getPathFromUri_long h]
  answer := by
    refine ⟨.error tooLong, by simp [resourceFilehandler, getPathFromUri_long h], fun idx type => ?_⟩
    exact ⟨fun hok => absurd hok (error_not_sent _ _ _), fun hsent => absurd hsent.1 h⟩

theorem correct_of_plain (hnul : 0 ∉ uri) (hfits : Fits m uri) (hp : Plain (path uri)) :
    Correct m uri := by
  have hreq := requested_eq hp.noBlank
  refine ⟨⟨_, getPathFromUri_fits hnul hfits, ?_⟩,
    (isSome_setContentTypeFromReq hnul hfits).mpr ⟨hp.nonempty, hp.long⟩, ?_⟩
  · rintro file ⟨⟩
    rw [hreq, string_fileOf hnul]
  obtain ⟨last, hlast⟩ := Option.ne_none_iff_exists'.mp
    (mt List.getLast?_eq_none_iff.mp hp.nonempty)
  rw [resourceFilehandler_fits hnul hfits, hlast, hreq, Option.bind_some]
  by_cases hslash : last = 47
  · -- a path that ends in a slash has the empty name, which no resource has
    subst hslash
    refine ⟨.error forbidden, if_pos rfl, fun idx type =>
      ⟨fun hok => absurd hok (error_not_sent _ _ _), ?_⟩⟩
    rintro ⟨-, hnamed, -⟩
    rw [(getLast?_slash.mp hlast).2] at hnamed
    exact absurd hnamed (not_named_nil idx)
  rw [if_neg hslash]
  have hname : nameOf (path uri) ≠ [] := fun h =>
    hslash (Option.some.inj (hlast.symm.trans (getLast?_slash.mpr ⟨hp.nonempty, h⟩)))
  rcases hindex : resourceGetIndex (nameOf (path uri)) with - | idx
  · refine ⟨.error notFound, rfl, fun idx type =>
      ⟨fun hok => absurd hok (error_not_sent _ _ _), ?_⟩⟩
    rintro ⟨-, hnamed, -⟩
    rw [(index_of_named hnamed).1] at hindex
    exact absurd hindex (Option.some_ne_none _)
  · obtain ⟨lookup, hlookup, hin⟩ :=
      (isSome_resourceGetIndex hname).mp (Option.isSome_of_eq_some hindex)
    obtain ⟨j, hnamed⟩ := hp.whole hname lookup hlookup hin
    obtain ⟨hj, hlen, hlt⟩ := index_of_named hnamed
    obtain rfl : idx = j := Option.some.inj (hindex.symm.trans hj)
    have htype : setContentTypeFromFile (fileOf m uri) = some (typeOf (nameOf (path uri))) := by
      simp only [setContentTypeFromFile, string_fileOf hnul, Option.bind_eq_bind, Option.bind_some]
      rw [if_neg (by omega), typeFrom_eq hnul hlen extensions_short]
      rfl
    simp only [htype, Option.bind_some, List.getElem?_eq_getElem hlt]
    refine ⟨_, rfl, fun i type => ⟨?_, ?_⟩⟩
    · rintro ⟨gzip, hok⟩
      injection hok with hok
      injection hok with htype hgzip hidx
      exact ⟨hfits, hidx ▸ hnamed, htype.symm⟩
    · rintro ⟨-, hi, rfl⟩
      exact ⟨_, by rw [hi.unique hnamed]⟩

theorem plain_of_correct (hnul : 0 ∉ uri) (hfits : Fits m uri) (h : Correct m uri) :
    Plain (path uri) := by
  obtain ⟨hne, hlong⟩ := (isSome_setContentTypeFromReq hnul hfits).mp h.type
  have hname : requested uri = nameOf (path uri) := by
    obtain ⟨r, hr, hfile⟩ := h.name
    obtain rfl := Option.some.inj ((getPathFromUri_fits hnul hfits).symm.trans hr)
    exact (Option.some.inj ((string_fileOf hnul).symm.trans (hfile _ rfl))).symm
  refine ⟨hne, fun hblank => requested_ne hblank hname, hlong, fun hnil lookup hlookup hin => ?_⟩
  obtain ⟨last, hlast⟩ := Option.ne_none_iff_exists'.mp (mt List.getLast?_eq_none_iff.mp hne)
  have hslash : last ≠ 47 := fun heq => hnil (getLast?_slash.mp (heq ▸ hlast)).2
  obtain ⟨idx, hindex⟩ := Option.isSome_iff_exists.mp
    ((isSome_resourceGetIndex hnil).mpr ⟨lookup, hlookup, hin⟩)
  obtain ⟨a, ha, hanswer⟩ := h.answer
  rw [resourceFilehandler_fits hnul hfits, hlast, Option.bind_some, if_neg hslash, hindex] at ha
  simp only [Option.bind_eq_some_iff] at ha
  obtain ⟨type, -, found, -, hsent⟩ := ha
  have hnamed := ((hanswer idx type).mp ⟨_, (Option.some.inj hsent).symm⟩).2.1
  exact ⟨idx, hname ▸ hnamed⟩

theorem correct_iff (m : ℕ) (uri : Uri) :
    Correct m uri.bytes ↔ (Fits m uri.bytes → Plain (path uri.bytes)) := by
  constructor
  · exact fun h hfits => plain_of_correct uri.noNul hfits h
  · intro h
    by_cases hfits : Fits m uri.bytes
    · exact correct_of_plain uri.noNul hfits (h hfits)
    · exact correct_of_long hfits

/-- A part of a name gets the first resource that has it somewhere in its path. -/
theorem part_sent : ¬ ∀ m (uri : Uri), Correct m uri.bytes := by
  intro h
  obtain ⟨a, ha, hanswer⟩ := (h 15 ⟨ascii "/js/index", by decide⟩).answer
  have hsent : resourceFilehandler 15 (ascii "/js/index") = some (.ok ⟨"text/plain", true, 1⟩) := by
    decide +kernel
  obtain rfl := Option.some.inj (hsent.symm.trans ha)
  obtain ⟨-, ⟨lookup, hlookup, -, hname⟩, -⟩ := (hanswer 1 "text/plain").mp ⟨true, rfl⟩
  obtain rfl := Option.some.inj hlookup
  revert hname
  decide

end HttpResource

end SqueezeliteMuse
