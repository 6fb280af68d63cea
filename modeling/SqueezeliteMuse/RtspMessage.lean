/-
SqueezeliteMuse/RtspMessage.lean

The messages of the AirPlay control connection, as util.c reads and writes them.

`http_parse` takes the first line of a message for the method, the lines up to
an empty one for the headers, and what follows for the body.  `http_send` writes
a first line, the headers that `kd_dump` makes of a table, and an empty line.
A line that begins with a blank is to continue the header before it.  But the
test for it is made with the key of the header that comes next, which is NULL
there, so such a line is taken for a header of its own.  `read_line` leaves the
line end where a line has 255 characters, and the next line is then empty.

What arrives is a list of bytes, with what else `recv` and `poll` may give between
them.  `rkd` is the list of the entries before the key that is NULL.

Main result: `parsed_iff`: the keys and the values come back if and only if nothing
is continued, no line of 255 characters has a header behind it and no value begins with
what `isspace` has beside the blanks.
-/
import SqueezeliteMuse.Lib.CString

namespace SqueezeliteMuse

namespace Message

open CString

/-! ### Reading -/

/-- What comes next on a socket. -/
inductive Rx
  | byte (b : UInt8)
  /-- Nothing for the time that `poll` waits. -/
  | late
  /-- The other end has closed, or EAGAIN. -/
  | closed
  | failed
  deriving DecidableEq

/-- What `read_line` returns, what it stores, and what is left. -/
structure LineRead where
  count : ℤ
  line : List UInt8
  rest : List Rx

/-- `sizeof(line)` -/
def maxlen : ℕ := 256

/-- The loop of `read_line`, with `maxlen - i` rounds left. -/
def readLineFrom : ℕ → List UInt8 → List Rx → LineRead
  | 0, line, fd => ⟨line.length, line, fd⟩
  | _ + 1, line, [] => ⟨0, line, []⟩
  | _ + 1, line, .late :: fd => ⟨0, line, fd⟩
  | _ + 1, line, .closed :: fd => ⟨0, line, .closed :: fd⟩
  | _ + 1, line, .failed :: fd => ⟨-1, line, fd⟩
  | i + 1, line, .byte ch :: fd =>
      if ch = 10 then ⟨line.length, line, fd⟩
      else if ch = 13 then readLineFrom i line fd
      else if maxlen - 1 ≤ (line ++ [ch]).length then
        ⟨(line ++ [ch]).length, line ++ [ch], fd⟩
      else readLineFrom i (line ++ [ch]) fd

/-- `read_line` -/
def readLine (fd : List Rx) : LineRead := readLineFrom maxlen [] fd

/-- `ltrim` -/
def ltrim (s : List UInt8) : List UInt8 := s.dropWhile isspace

/-- A blank, as the folding of lines has it. -/
def isblank (c : UInt8) : Bool := c == 32 || c == 9

/-- `key_data_t` -/
abbrev KeyData := List UInt8 × List UInt8

/-- `rkd[i].key`, which is NULL behind the last entry -/
def keyAt (rkd : List KeyData) (i : ℕ) : Option (List UInt8) := rkd[i]?.map Prod.fst

/-- The header that has the length of the body. -/
def contentLength : List UInt8 := CString.ascii "Content-Length"

/-- A line of the headers: the table and the length after it, unless it is a bad header. -/
def headerLine (rkd : List KeyData) (len : ℤ) (line : List UInt8) : Option (List KeyData × ℤ) :=
  let i := rkd.length
  -- line folding
  if i ≠ 0 ∧ keyAt rkd i ≠ none ∧ (line.head?.any isblank) then
    some (rkd.modify i fun kd => (kd.1, kd.2 ++ line.dropWhile isblank), len)
  else
    match strstr line [58] with
    | none => none
    | some dp =>
        let key := line.take (line.length - dp.length)
        let data := ltrim (dp.drop 1)
        some (rkd ++ [(key, data)], if CaseEq key contentLength then atol data else len)

/-- The state of `http_parse` behind the headers, and whether they were all right. -/
structure Headers where
  ok : Bool
  rkd : List KeyData
  len : ℤ
  rest : List Rx

/-- The loop of `http_parse` over the headers; what is stored before a bad one is freed. -/
def headerLoop : ℕ → List KeyData → ℤ → List Rx → Headers
  | 0, rkd, len, fd => ⟨true, rkd, len, fd⟩
  | fuel + 1, rkd, len, fd =>
      let r := readLine fd
      if 0 < r.count then
        match headerLine rkd len (CString.cstr r.line) with
        | none => ⟨false, rkd, len, r.rest⟩
        | some (rkd, len) => headerLoop fuel rkd len r.rest
      else ⟨true, rkd, len, r.rest⟩

/-- The loop of `http_parse` that receives up to `n` bytes of the body. -/
def recvBody : ℕ → List Rx → List UInt8 × List Rx
  | n + 1, .byte b :: fd => (b :: (recvBody n fd).1, (recvBody n fd).2)
  | n + 1, .late :: fd => recvBody (n + 1) fd
  | _ + 1, .failed :: fd => ([], fd)
  | _, fd => ([], fd)

/-- How `http_parse` ends: it returns false; it writes the NUL behind a body for which there is no
place; or it returns true. -/
inductive Outcome
  | refused
  | astray
  | parsed
  deriving DecidableEq

/-- What `http_parse` has read. -/
structure Parsed where
  outcome : Outcome
  method : List UInt8
  headers : List KeyData
  len : ℤ
  body : List UInt8
  rest : List Rx

/-- `*len + 1` as `malloc` takes it -/
def bodySize (len : ℤ) : ℕ := ((len + 1) % 2 ^ 32).toNat

/-- `http_parse`, where `malloc` is the address of a block of a size, if there is one. -/
def httpParse (malloc : ℕ → Option ℕ) (sock : List Rx) : Parsed :=
  let first := readLine sock
  if first.count ≤ 0 then ⟨.refused, [], [], 0, [], first.rest⟩
  else
    -- `sscanf` returns 1, or EOF where there is no method
    let method := token (CString.cstr first.line)
    let h := headerLoop (first.rest.length + 1) [] 0 first.rest
    if !h.ok then ⟨.refused, method, [], h.len, [], h.rest⟩
    else if h.len = 0 then ⟨.parsed, method, h.rkd, 0, [], h.rest⟩
    else
      match malloc (bodySize h.len) with
      | none => ⟨.astray, method, h.rkd, h.len, [], h.rest⟩
      | some _ =>
          let r := recvBody h.len.toNat h.rest
          ⟨if h.len < 0 then .astray else .parsed, method, h.rkd, h.len, r.1, r.2⟩

/-! ### Writing -/

/-- The end of a line -/
def crlf : List UInt8 := [13, 10]

/-- `kd_dump` -/
def kdDump : List KeyData → List UInt8
  | [] => crlf
  | kd => kd.flatMap fun e => e.1 ++ [58, 32] ++ e.2 ++ crlf

/-- What `http_send` sends. -/
def httpSend (method : List UInt8) (rkd : List KeyData) : List UInt8 :=
  method ++ crlf ++ kdDump rkd ++ crlf

/-! ### Messages -/

/-- There is no NUL and no line end. -/
def Plain (s : List UInt8) : Prop := ∀ c ∈ s, c ≠ 0 ∧ c ≠ 10 ∧ c ≠ 13

instance (s : List UInt8) : Decidable (Plain s) := List.decidableBAll _ _

/-- A header: its key, its value, and the lines that continue the value. -/
structure Header where
  key : List UInt8
  value : List UInt8
  folded : List (List UInt8)
  key_plain : Plain key := by decide
  key_colon : 58 ∉ key := by decide
  key_start : key.head?.any isblank = false := by decide
  value_plain : Plain value := by decide
  value_start : value.head?.any isblank = false := by decide
  folded_plain : ∀ l ∈ folded, Plain l := by decide
  folded_start : ∀ l ∈ folded, l.head?.any isblank = true := by decide
  short : key.length + 2 + value.length < maxlen := by decide
  folded_short : ∀ l ∈ folded, l.length < maxlen := by decide

namespace Header

/-- The line that the header begins with. -/
def first (h : Header) : List UInt8 := h.key ++ [58, 32] ++ h.value

/-- Its lines. -/
def lines (h : Header) : List (List UInt8) := h.first :: h.folded

/-- The value with the lines that continue it. -/
def whole (h : Header) : List UInt8 := h.value ++ h.folded.flatMap (List.dropWhile isblank)

/-- The entry that it is to become. -/
def entry (h : Header) : KeyData := (h.key, h.whole)

/-- As `kd_dump` finds it, spread over its lines. -/
def spread (h : Header) : KeyData := (h.key, h.value ++ h.folded.flatMap (crlf ++ ·))

end Header

/-- A message.  `method[16]` has place for its first word. -/
structure Msg where
  method : List UInt8
  headers : List Header
  body : List UInt8
  method_plain : Plain method := by decide
  method_ne : method ≠ [] := by decide
  method_short : method.length < maxlen := by decide
  word_short : (token method).length < 16 := by decide
  few : headers.length ≤ 15 := by decide
  length : ∀ h ∈ headers, CaseEq h.key contentLength → atol h.whole = body.length := by decide

/-- What is sent. -/
def Msg.text (m : Msg) : List UInt8 := httpSend m.method (m.headers.map Header.spread) ++ m.body

/-- `http_parse` gets it back from the text, whatever comes after it. -/
def Msg.ComesBack (m : Msg) (malloc : ℕ → Option ℕ) (more : List Rx) : Prop :=
  let p := httpParse malloc (m.text.map .byte ++ more)
  p.outcome = .parsed ∧ p.headers = m.headers.map Header.entry

/-- Nothing is continued, nothing is behind a line of 255 characters, and no value begins with what
`isspace` has beside the blanks.  What would continue a line of 255 characters is not read. -/
def Kept : List Header → Prop
  | [] => True
  | h :: hs =>
      ltrim h.value = h.value ∧
        if h.first.length = maxlen - 1 then hs = [] ∧ ∀ l ∈ h.folded, l.all isblank = true
        else h.folded = [] ∧ Kept hs

instance Kept.decidable : ∀ hs, Decidable (Kept hs)
  | [] => .isTrue trivial
  | h :: hs =>
      have := Kept.decidable hs
      inferInstanceAs (Decidable (ltrim h.value = h.value ∧
        if h.first.length = maxlen - 1 then hs = [] ∧ ∀ l ∈ h.folded, l.all isblank = true
        else h.folded = [] ∧ Kept hs))

/-! ### Lines -/

/-- A line as it arrives. -/
def sent (l : List UInt8) : List Rx := (l ++ crlf).map .byte

/-- The rest of a line for which there is place. -/
theorem readLineFrom_sent {l : List UInt8} (hl : Plain l) (rest : List Rx) :
    ∀ (acc : List UInt8) (i : ℕ), acc.length + l.length < maxlen - 1 → l.length + 2 ≤ i →
      readLineFrom i acc (sent l ++ rest) = ⟨((acc ++ l).length : ℕ), acc ++ l, rest⟩ := by
  induction l with
  | nil =>
      intro acc i _ hi
      obtain ⟨i, rfl⟩ := Nat.exists_eq_add_of_le' hi
      rw [List.append_nil]
      rfl
  | cons ch l ih =>
      intro acc i hlen hi
      obtain ⟨i, rfl⟩ := Nat.exists_eq_add_of_le' hi
      obtain ⟨-, hlf, hcr⟩ := hl ch List.mem_cons_self
      have hplain : Plain l := fun c hc => hl c (List.mem_cons_of_mem ch hc)
      have hplace : ¬ maxlen - 1 ≤ (acc ++ [ch]).length := by
        rw [List.length_append, List.length_singleton]
        rw [List.length_cons] at hlen
        omega
      have hrest := ih hplain (acc ++ [ch]) (i + l.length + 2) (by simp at hlen ⊢; omega) (by omega)
      rw [List.append_assoc, List.singleton_append] at hrest
      show readLineFrom (i + l.length + 2 + 1) acc (.byte ch :: (sent l ++ rest)) = _
      rw [readLineFrom, if_neg hlf, if_neg hcr, if_neg hplace, hrest]

/-- The rest of a line that fills the buffer: its end is left. -/
theorem readLineFrom_full {l : List UInt8} (hl : Plain l) (hne : l ≠ []) (rest : List Rx) :
    ∀ (acc : List UInt8) (i : ℕ), acc.length + l.length = maxlen - 1 → l.length ≤ i →
      readLineFrom i acc (sent l ++ rest) =
        ⟨((acc ++ l).length : ℕ), acc ++ l, sent [] ++ rest⟩ := by
  induction l with
  | nil => exact absurd rfl hne
  | cons ch l ih =>
      intro acc i hlen hi
      obtain ⟨i, rfl⟩ := Nat.exists_eq_add_of_le' hi
      obtain ⟨-, hlf, hcr⟩ := hl ch List.mem_cons_self
      have hplain : Plain l := fun c hc => hl c (List.mem_cons_of_mem ch hc)
      show readLineFrom (i + l.length + 1) acc (.byte ch :: (sent l ++ rest)) = _
      by_cases hnil : l = []
      · have hplace : maxlen - 1 ≤ (acc ++ [ch]).length := by
          rw [hnil] at hlen
          exact Nat.le_of_eq (by simp at hlen ⊢; omega)
        rw [readLineFrom, if_neg hlf, if_neg hcr, if_pos hplace, hnil]
      · have hpos := List.length_pos_iff.mpr hnil
        have hplace : ¬ maxlen - 1 ≤ (acc ++ [ch]).length := by
          rw [List.length_append, List.length_singleton]
          rw [List.length_cons] at hlen
          omega
        have hrest := ih hplain hnil (acc ++ [ch]) (i + l.length) (by simp at hlen ⊢; omega)
          (by omega)
        rw [List.append_assoc, List.singleton_append] at hrest
        rw [readLineFrom, if_neg hlf, if_neg hcr, if_neg hplace, hrest]

variable {l : List UInt8} {rest : List Rx}

/-- A line for which there is place. -/
theorem readLine_sent (rest : List Rx) (hl : Plain l) (hlen : l.length < maxlen - 1) :
    readLine (sent l ++ rest) = ⟨l.length, l, rest⟩ := by
  have h := readLineFrom_sent hl rest [] maxlen (by simpa using hlen) (by
    rw [maxlen] at hlen ⊢
    omega)
  rw [List.nil_append] at h
  exact h

/-- A line that fills the buffer. -/
theorem readLine_full (rest : List Rx) (hl : Plain l) (hlen : l.length = maxlen - 1) :
    readLine (sent l ++ rest) = ⟨l.length, l, sent [] ++ rest⟩ := by
  have hne : l ≠ [] := by
    rintro rfl
    exact absurd hlen (by decide)
  have h := readLineFrom_full hl hne rest [] maxlen (by simpa using hlen) (by
    rw [maxlen] at hlen ⊢
    omega)
  rw [List.nil_append] at h
  exact h

theorem readLine_empty : readLine (sent [] ++ rest) = ⟨0, [], rest⟩ := rfl

/-! ### The headers of a text -/

/-- A header line by itself. -/
def entryOf (line : List UInt8) : Option KeyData :=
  (strstr line [58]).map fun dp =>
    (line.take (line.length - dp.length), ltrim (dp.drop 1))

/-- `*len` after a header -/
def lenAfter (len : ℤ) (e : KeyData) : ℤ := if CaseEq e.1 contentLength then atol e.2 else len

/-- No line is ever folded. -/
theorem headerLine_eq (rkd : List KeyData) (len : ℤ) (line : List UInt8) :
    headerLine rkd len line = (entryOf line).map fun e => (rkd ++ [e], lenAfter len e) := by
  have hkey : keyAt rkd rkd.length = none := by
    rw [keyAt, List.getElem?_eq_none (Nat.le_refl _), Option.map_none]
  have hfold : ¬ (rkd.length ≠ 0 ∧ keyAt rkd rkd.length ≠ none ∧ (line.head?.any isblank) = true) :=
    fun h => h.2.1 hkey
  rw [headerLine, entryOf]
  simp only [if_neg hfold]
  cases strstr line [58] with
  | none => rfl
  | some dp => rfl

/-- What is stored for lines: for those up to one that fills the buffer, unless one of them is no
header. -/
def entriesOf : List (List UInt8) → Option (List KeyData)
  | [] => some []
  | l :: ls =>
      (entryOf l).bind fun e =>
        if l.length = maxlen - 1 then some [e] else (entriesOf ls).map (e :: ·)

/-- What a line is between two line ends. -/
structure LineOk (l : List UInt8) : Prop where
  plain : Plain l
  ne : l ≠ []
  short : l.length < maxlen

variable {fuel : ℕ} {rkd : List KeyData} {len : ℤ} {fd : List Rx} {ls : List (List UInt8)}

theorem LineOk.cstr_eq (h : LineOk l) : CString.cstr l = l :=
  cstr_eq_self fun hzero => (h.plain 0 hzero).1 rfl

/-- A round of the loop, for a line that is read. -/
theorem headerLoop_line (h : LineOk l) (hread : readLine fd = ⟨l.length, l, rest⟩) :
    headerLoop (fuel + 1) rkd len fd =
      match entryOf l with
      | none => ⟨false, rkd, len, rest⟩
      | some e => headerLoop fuel (rkd ++ [e]) (lenAfter len e) rest := by
  have hpos : (0 : ℤ) < l.length := Int.natCast_pos.mpr (List.length_pos_iff.mpr h.ne)
  rw [headerLoop, hread]
  simp only [if_pos hpos, h.cstr_eq, headerLine_eq]
  cases entryOf l with
  | none => rfl
  | some e => rfl

/-- The round that finds an empty line. -/
theorem headerLoop_empty :
    headerLoop (fuel + 1) rkd len (sent [] ++ rest) = ⟨true, rkd, len, rest⟩ := by
  rw [headerLoop, readLine_empty]
  rfl

/-- The loop over lines that come with an empty one behind. -/
theorem headerLoop_lines (rest : List Rx) : ∀ (ls : List (List UInt8)) (fuel : ℕ)
    (rkd : List KeyData) (len : ℤ), (∀ l ∈ ls, LineOk l) → ls.length < fuel →
      match entriesOf ls with
      | none => (headerLoop fuel rkd len (ls.flatMap sent ++ sent [] ++ rest)).ok = false
      | some es =>
          ∃ left, headerLoop fuel rkd len (ls.flatMap sent ++ sent [] ++ rest) =
            ⟨true, rkd ++ es, es.foldl lenAfter len, left⟩
  | _, 0, _, _, _, hfuel => absurd hfuel (Nat.not_lt_zero _)
  | [], fuel + 1, rkd, len, _, _ => by
      rw [entriesOf]
      exact ⟨rest, by rw [List.append_nil]; exact headerLoop_empty⟩
  | l :: ls, fuel + 1, rkd, len, hls, hfuel => by
      have hl := hls l List.mem_cons_self
      have hshort := hl.short
      rw [List.flatMap_cons, List.append_assoc, List.append_assoc, entriesOf]
      by_cases hfull : l.length = maxlen - 1
      · rw [headerLoop_line hl (readLine_full _ hl.plain hfull)]
        cases entryOf l with
        | none => rfl
        | some e =>
            rw [Option.bind_some, if_pos hfull]
            -- the end of the line is taken for the empty one
            obtain ⟨fuel, rfl⟩ := Nat.exists_eq_add_of_le' (Nat.le_of_lt_succ hfuel)
            exact ⟨_, headerLoop_empty⟩
      · have hplace : l.length < maxlen - 1 := by omega
        rw [headerLoop_line hl (readLine_sent _ hl.plain hplace)]
        cases entryOf l with
        | none => rfl
        | some e =>
            have ih := headerLoop_lines rest ls fuel (rkd ++ [e]) (lenAfter len e)
              (fun l' hl' => hls l' (List.mem_cons_of_mem l hl')) (Nat.lt_of_succ_lt_succ hfuel)
            rw [Option.bind_some, if_neg hfull, ← List.append_assoc]
            cases hes : entriesOf ls with
            | none =>
                rw [hes] at ih
                exact ih
            | some es =>
                rw [hes] at ih
                obtain ⟨left, hleft⟩ := ih
                rw [List.append_assoc rkd, List.singleton_append] at hleft
                exact ⟨left, hleft⟩

/-! ### Headers that come back -/

namespace Header

variable (h : Header) {hs : List Header}

theorem length_first : h.first.length = h.key.length + 2 + h.value.length := by
  rw [first, List.length_append, List.length_append]
  rfl

/-- The first line makes an entry. -/
theorem entryOf_first : entryOf h.first = some (h.key, ltrim h.value) := by
  have hsplit : h.first = h.key ++ 58 :: 32 :: h.value := by
    rw [first, List.append_assoc]
    rfl
  have htrim : ltrim (32 :: h.value) = ltrim h.value := by
    rw [ltrim, List.dropWhile_cons_of_pos (by rfl), ltrim]
  have hlen : (h.key ++ 58 :: 32 :: h.value).length - (58 :: 32 :: h.value).length =
      h.key.length := by
    rw [List.length_append, Nat.add_sub_cancel]
  rw [hsplit, entryOf, strstr_char h.key_colon, Option.map_some, hlen, List.take_left,
    List.drop_succ_cons, List.drop_zero, htrim]

/-- A line of blanks makes none. -/
theorem entryOf_blank {l : List UInt8} (hl : l.all isblank = true) : entryOf l = none := by
  have hcolon : 58 ∉ l := fun hmem => absurd (List.all_eq_true.mp hl 58 hmem) (by decide)
  rw [entryOf, strstr_char_none hcolon, Option.map_none]

/-- All of its lines are lines. -/
theorem lineOk {l : List UInt8} (hl : l ∈ h.lines) : LineOk l := by
  rcases List.mem_cons.mp hl with rfl | hfold
  · constructor
    · intro c hc
      rw [first, List.mem_append, List.mem_append] at hc
      rcases hc with (hkey | hsep) | hvalue
      · exact h.key_plain c hkey
      · rcases List.mem_cons.mp hsep with rfl | hsep
        · decide
        · rw [List.mem_singleton.mp hsep]
          decide
      · exact h.value_plain c hvalue
    · rw [← List.length_pos_iff, h.length_first]
      omega
    · rw [h.length_first]
      exact h.short
  · refine ⟨h.folded_plain l hfold, ?_, h.folded_short l hfold⟩
    rintro rfl
    exact absurd (h.folded_start [] hfold) (by decide)

/-- What the lines behind the first one add is nothing if and only if they are blank. -/
theorem folded_nil_iff (ls : List (List UInt8)) :
    ls.flatMap (List.dropWhile isblank) = [] ↔ ∀ l ∈ ls, l.all isblank = true := by
  rw [List.flatMap_eq_nil_iff]
  constructor
  · intro hnil l hl
    rw [List.all_eq_true]
    exact List.dropWhile_eq_nil_iff.mp (hnil l hl)
  · intro hall l hl
    exact List.dropWhile_eq_nil_iff.mpr (List.all_eq_true.mp (hall l hl))

/-- The value comes back if nothing is trimmed, and nothing was to be added. -/
theorem trimmed_iff :
    ltrim h.value = h.whole ↔
      ltrim h.value = h.value ∧ ∀ l ∈ h.folded, l.all isblank = true := by
  rw [← folded_nil_iff, whole]
  constructor
  · intro heq
    have hle : (ltrim h.value).length ≤ h.value.length := List.length_dropWhile_le isspace h.value
    have hlen := congrArg List.length heq
    rw [List.length_append] at hlen
    have hnil := List.length_eq_zero_iff.mp (by omega :
      (h.folded.flatMap (List.dropWhile isblank)).length = 0)
    rw [hnil, List.append_nil] at heq
    exact ⟨heq, hnil⟩
  · rintro ⟨htrim, hnil⟩
    rw [htrim, hnil, List.append_nil]

end Header

/-- The entries of the lines are those of the headers. -/
theorem entriesOf_iff (hs : List Header) :
    entriesOf (hs.flatMap Header.lines) = some (hs.map Header.entry) ↔ Kept hs := by
  induction hs with
  | nil => exact ⟨fun _ => trivial, fun _ => rfl⟩
  | cons h hs ih =>
      rw [List.flatMap_cons, Header.lines, List.cons_append, entriesOf, h.entryOf_first,
        Option.bind_some, Kept, List.map_cons, Header.entry]
      by_cases hfull : h.first.length = maxlen - 1
      · rw [if_pos hfull, if_pos hfull]
        constructor
        · intro heq
          obtain ⟨hentry, hnone⟩ := List.cons.inj (Option.some.inj heq)
          obtain ⟨htrim, hblank⟩ := h.trimmed_iff.mp (congrArg Prod.snd hentry)
          exact ⟨htrim, List.map_eq_nil_iff.mp hnone.symm, hblank⟩
        · rintro ⟨htrim, rfl, hblank⟩
          rw [h.trimmed_iff.mpr ⟨htrim, hblank⟩, List.map_nil]
      · rw [if_neg hfull, if_neg hfull]
        constructor
        · intro heq
          obtain ⟨es, hes, heq⟩ := Option.map_eq_some_iff.mp heq
          obtain ⟨hentry, rfl⟩ := List.cons.inj heq
          obtain ⟨htrim, hblank⟩ := h.trimmed_iff.mp (congrArg Prod.snd hentry)
          have hnil : h.folded = [] := by
            cases hf : h.folded with
            | nil => rfl
            | cons l ls =>
                -- a line of blanks is a bad header
                have hl : entryOf l = none :=
                  Header.entryOf_blank (hblank l (hf ▸ List.mem_cons_self))
                rw [hf, List.cons_append, entriesOf, hl, Option.bind_none] at hes
                cases hes
          rw [hnil, List.nil_append] at hes
          exact ⟨htrim, hnil, ih.mp hes⟩
        · rintro ⟨htrim, hnil, hkept⟩
          have hblank : ∀ l ∈ h.folded, l.all isblank = true := by
            rw [hnil]
            exact fun l hl => absurd hl List.not_mem_nil
          rw [h.trimmed_iff.mpr ⟨htrim, hblank⟩, hnil, List.nil_append, ih.mpr hkept,
            Option.map_some]

/-! ### Messages that come back -/

/-- The lines of the headers, as they are sent. -/
theorem kdDump_sent (h : Header) :
    (h.spread.1 ++ [58, 32] ++ h.spread.2 ++ crlf).map Rx.byte = h.lines.flatMap sent := by
  have hfold (s : List UInt8) : ∀ ls : List (List UInt8),
      (s ++ ls.flatMap (crlf ++ ·) ++ crlf).map Rx.byte = (s :: ls).flatMap sent := by
    intro ls
    induction ls generalizing s with
    | nil =>
        rw [List.flatMap_nil, List.append_nil, List.flatMap_singleton]
        rfl
    | cons l ls ih =>
        rw [List.flatMap_cons, List.flatMap_cons, ← ih l, sent, ← List.map_append]
        simp only [List.append_assoc]
  rw [Header.spread, Header.lines, ← hfold, Header.first]
  simp only [List.append_assoc]

namespace Msg

variable (m : Msg) {malloc : ℕ → Option ℕ} (more : List Rx)

/-- Without headers there is a line end more. -/
def tail (m : Msg) : List Rx :=
  if m.headers = [] then sent [] ++ m.body.map .byte else m.body.map .byte

theorem text_sent :
    m.text.map Rx.byte ++ more =
      sent m.method ++ (m.headers.flatMap fun h => h.lines.flatMap sent) ++ sent [] ++
        (m.tail ++ more) := by
  have hdump : (kdDump (m.headers.map Header.spread) ++ crlf ++ m.body).map Rx.byte =
      (m.headers.flatMap fun h => h.lines.flatMap sent) ++ sent [] ++ m.tail := by
    rw [tail]
    cases hm : m.headers with
    | nil =>
        rw [if_pos rfl, List.map_nil, kdDump, List.flatMap_nil, List.map_append, List.map_append]
        rfl
    | cons h hs =>
        have hdump : kdDump ((h :: hs).map Header.spread) =
            ((h :: hs).map Header.spread).flatMap fun e => e.1 ++ [58, 32] ++ e.2 ++ crlf := rfl
        rw [if_neg (List.cons_ne_nil h hs), hdump, List.flatMap_map, List.map_append,
          List.map_append, List.map_flatMap]
        simp only [kdDump_sent]
        rfl
  have htext : m.text =
      (m.method ++ crlf) ++ (kdDump (m.headers.map Header.spread) ++ crlf ++ m.body) := by
    rw [text, httpSend]
    simp only [List.append_assoc]
  rw [htext, List.map_append, hdump, ← sent]
  simp only [List.append_assoc]

/-- The length that is read is the one of the body, or none. -/
theorem len_mem (es : List KeyData) (n : ℤ)
    (h : ∀ e ∈ es, CaseEq e.1 contentLength → atol e.2 = n) (len : ℤ) (hlen : len = 0 ∨ len = n) :
    es.foldl lenAfter len = 0 ∨ es.foldl lenAfter len = n := by
  induction es generalizing len with
  | nil => exact hlen
  | cons e es ih =>
      apply ih (fun e' he' => h e' (List.mem_cons_of_mem e he'))
      rw [lenAfter]
      by_cases hkey : CaseEq e.1 contentLength
      · rw [if_pos hkey]
        exact .inr (h e List.mem_cons_self hkey)
      · rw [if_neg hkey]
        exact hlen

/-- The lines behind the first one. -/
def headerLines (m : Msg) : List (List UInt8) := m.headers.flatMap Header.lines

theorem headerLines_ok : ∀ l ∈ m.headerLines, LineOk l := by
  intro l hl
  obtain ⟨h, -, hmem⟩ := List.mem_flatMap.mp hl
  exact h.lineOk hmem

theorem length_le_flatMap_sent (ls : List (List UInt8)) : ls.length ≤ (ls.flatMap sent).length := by
  induction ls with
  | nil => exact Nat.le_refl 0
  | cons l ls ih =>
      rw [List.flatMap_cons, List.length_append, List.length_cons, sent, List.length_map,
        List.length_append]
      have hcrlf : crlf.length = 2 := rfl
      omega

variable {sock left : List Rx} {es : List KeyData} {n : ℤ}

theorem first_read (hl : LineOk l) : ¬ (l.length : ℤ) ≤ 0 :=
  Int.not_le.mpr (Int.natCast_pos.mpr (List.length_pos_iff.mpr hl.ne))

/-- Where the first line is read and the headers are right, they are what is stored. -/
theorem httpParse_headers (hl : LineOk l) (hread : readLine sock = ⟨l.length, l, fd⟩)
    (hloop : headerLoop (fd.length + 1) [] 0 fd = ⟨true, es, n, left⟩) :
    (httpParse malloc sock).headers = es := by
  rw [httpParse, hread]
  simp only [if_neg (first_read hl), hloop]
  by_cases hzero : n = 0
  · simp [hzero]
  · cases hblock : malloc (bodySize n) with
    | none => simp [hzero, hblock]
    | some a => simp [hzero, hblock]

/-- It gets through if there is no body, or a place for it. -/
theorem httpParse_parsed (hl : LineOk l) (hread : readLine sock = ⟨l.length, l, fd⟩)
    (hloop : headerLoop (fd.length + 1) [] 0 fd = ⟨true, es, n, left⟩)
    (hplace : n = 0 ∨ 0 ≤ n ∧ malloc (bodySize n) ≠ none) :
    (httpParse malloc sock).outcome = .parsed := by
  rw [httpParse, hread]
  simp only [if_neg (first_read hl), hloop]
  by_cases hzero : n = 0
  · simp [hzero]
  · obtain ⟨hn, hblock⟩ := hplace.resolve_left hzero
    obtain ⟨a, ha⟩ := Option.ne_none_iff_exists'.mp hblock
    simp [hzero, ha, Int.not_lt.mpr hn]

theorem httpParse_refused (hl : LineOk l) (hread : readLine sock = ⟨l.length, l, fd⟩)
    (hloop : (headerLoop (fd.length + 1) [] 0 fd).ok = false) :
    (httpParse malloc sock).outcome = .refused := by
  rw [httpParse, hread]
  simp only [if_neg (first_read hl), hloop, Bool.not_false, if_true]

theorem method_ok : LineOk m.method := ⟨m.method_plain, m.method_ne, m.method_short⟩

theorem text_lines :
    m.text.map Rx.byte ++ more =
      sent m.method ++ (m.headerLines.flatMap sent ++ sent [] ++ (m.tail ++ more)) := by
  rw [text_sent, headerLines, List.flatMap_assoc]
  simp only [List.append_assoc]

/-- With a first line that fills the buffer, no header is read. -/
theorem comesBack_full (hfull : m.method.length = maxlen - 1) :
    m.ComesBack malloc more ↔ m.headers = [] := by
  have hread := readLine_full (m.headerLines.flatMap sent ++ sent [] ++ (m.tail ++ more))
    m.method_plain hfull
  rw [← text_lines] at hread
  have hparsed : (httpParse malloc (m.text.map .byte ++ more)).outcome = .parsed :=
    httpParse_parsed m.method_ok hread headerLoop_empty (.inl rfl)
  have hnone : (httpParse malloc (m.text.map .byte ++ more)).headers = [] :=
    httpParse_headers m.method_ok hread headerLoop_empty
  rw [ComesBack]
  simp only [hparsed, hnone, true_and]
  exact eq_comm.trans List.map_eq_nil_iff

/-- Otherwise the headers are read from their lines. -/
theorem comesBack_lines (hshort : m.method.length < maxlen - 1)
    (hmem : malloc (bodySize m.body.length) ≠ none) :
    m.ComesBack malloc more ↔
      entriesOf m.headerLines = some (m.headers.map Header.entry) := by
  have hread := readLine_sent (m.headerLines.flatMap sent ++ sent [] ++ (m.tail ++ more))
    m.method_plain hshort
  rw [← text_lines] at hread
  have hfuel : m.headerLines.length <
      (m.headerLines.flatMap sent ++ sent [] ++ (m.tail ++ more)).length + 1 := by
    have hle := length_le_flatMap_sent m.headerLines
    rw [List.length_append, List.length_append]
    omega
  have hloop := headerLoop_lines (m.tail ++ more) m.headerLines _ [] 0 m.headerLines_ok hfuel
  rw [ComesBack]
  cases hes : entriesOf m.headerLines with
  | none =>
      rw [hes] at hloop
      have hrefused : (httpParse malloc (m.text.map .byte ++ more)).outcome = .refused :=
        httpParse_refused m.method_ok hread hloop
      simp [hrefused]
  | some es =>
      rw [hes] at hloop
      obtain ⟨left, hleft⟩ := hloop
      rw [List.nil_append] at hleft
      have hheaders : (httpParse malloc (m.text.map .byte ++ more)).headers = es :=
        httpParse_headers m.method_ok hread hleft
      simp only [hheaders, Option.some.injEq]
      constructor
      · exact fun h => h.2
      · intro heq
        have hlength : ∀ e ∈ es, CaseEq e.1 contentLength → atol e.2 = m.body.length := by
          intro e he hkey
          rw [heq] at he
          obtain ⟨h, hmem, rfl⟩ := List.mem_map.mp he
          exact m.length h hmem hkey
        have hplace : es.foldl lenAfter 0 = 0 ∨
            0 ≤ es.foldl lenAfter 0 ∧ malloc (bodySize (es.foldl lenAfter 0)) ≠ none := by
          rcases len_mem es m.body.length hlength 0 (.inl rfl) with hn | hn
          · exact .inl hn
          · rw [hn]
            exact .inr ⟨Int.natCast_nonneg _, hmem⟩
        exact ⟨httpParse_parsed m.method_ok hread hleft hplace, heq⟩

end Msg

/-- A message comes back if and only if nothing is continued, nothing is behind a line of 255
characters, and nothing is trimmed. -/
theorem parsed_iff (m : Msg) (malloc : ℕ → Option ℕ) (more : List Rx)
    (hmem : malloc (bodySize m.body.length) ≠ none) :
    m.ComesBack malloc more ↔
      Kept m.headers ∧ (m.method.length = maxlen - 1 → m.headers = []) := by
  by_cases hfull : m.method.length = maxlen - 1
  · rw [m.comesBack_full more hfull]
    constructor
    · intro hnil
      rw [hnil]
      exact ⟨trivial, fun _ => rfl⟩
    · exact fun h => h.2 hfull
  · have hshort := m.method_short
    rw [m.comesBack_lines more (by omega) hmem, Msg.headerLines, entriesOf_iff]
    exact ⟨fun h => ⟨h, fun hf => absurd hf hfull⟩, fun h => h.1⟩

/-- An answer with a CSeq and a body of one byte. -/
theorem parsed_answer :
    Msg.ComesBack
      { method := CString.ascii "RTSP/1.0 200 OK"
        headers := [
          { key := CString.ascii "CSeq", value := CString.ascii "7", folded := [] },
          { key := contentLength, value := CString.ascii "1", folded := [] }]
        body := [65] } (fun _ => some 0x3f800000) [] :=
  (parsed_iff _ _ [] (by decide)).mpr (by decide)

/-- "A: b" and, on the next line, " c". -/
theorem not_parsed :
    ¬ ∀ (m : Msg) (malloc : ℕ → Option ℕ) (more : List Rx),
      malloc (bodySize m.body.length) ≠ none → m.ComesBack malloc more := by
  intro h
  have hback := h
    { method := CString.ascii "R"
      headers := [
        { key := CString.ascii "A", value := CString.ascii "b", folded := [CString.ascii " c"] }]
      body := [] }
    (fun _ => some 0x3f800000) [] (by decide)
  revert hback
  rw [Msg.ComesBack]
  decide

end Message

end SqueezeliteMuse
