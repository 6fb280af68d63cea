/-
SqueezeliteMuse/Mp4Safe.lean

`read_mp4_header` of alac.c and helix-aac.c, on any bytes.

A round of the loop is for a box; here it is listed what it touches: what it reads of the data, from
`readp` on, and what it reads or writes of each table (the stash of stsc, `chunkinfo`, `block_size`,
`rates`), with the size of the table.  `sscanf` reads a text up to its 0.

Main result: `headersSafe_iff`: with what boxes the parsers are safe.  None of the lengths and counts
is checked: a box of length 0 is passed again and again, a box is read as far as its entries say, and
`first_chunk` leads behind the table.
-/
import SqueezeliteMuse.StreamEnd
import SqueezeliteMuse.StscExpand
import SqueezeliteMuse.Lib.Loop
import SqueezeliteMuse.Lib.Extent

namespace SqueezeliteMuse

open Extent

/-! ### What is touched -/

/-- What a round touches: of the data, and of tables, each list with the size of its table. -/
structure Touched where
  reads : List (ℕ × ℕ)
  tables : List (List (ℕ × ℕ) × ℕ)

namespace Touched

def nothing : Touched := ⟨[], []⟩

/-- All is in the data, of which there are so many bytes, or in its table. -/
def Inside (t : Touched) (bytes : ℕ) : Prop :=
  AllWithin bytes t.reads ∧ ∀ table ∈ t.tables, AllWithin table.2 table.1

theorem nothing_inside (bytes : ℕ) : nothing.Inside bytes :=
  ⟨allWithin_nil, fun _ h => absurd h List.not_mem_nil⟩

end Touched

/-- A codec, with what its own boxes touch, and when they touch only what is there. -/
structure CodecTouch (κ : Type) where
  codec : Mp4Codec κ
  /-- the box with the configuration, of so many bytes -/
  config : (ℕ → UInt8) → ℕ → Touched
  /-- stsz -/
  sizes : (ℕ → UInt8) → Touched
  /-- the configuration is an error -/
  fails : (ℕ → UInt8) → ℕ → Bool
  configFine : (ℕ → UInt8) → ℕ → ℕ → Bool
  sizesFine : (ℕ → UInt8) → ℕ → Bool
  setup_none : ∀ m len codec', codec.setup m len codec' = none ↔ fails m len = true
  config_iff : ∀ m bytes len, (config m len).Inside bytes ↔ configFine m bytes len = true
  sizes_iff : ∀ m bytes, (sizes m).Inside bytes ↔ sizesFine m bytes = true

/-- The entries of `chunkinfo` that get their samples, as in `fillChunks`. -/
def fillWrites (m : ℕ → UInt8) (entries : ℕ) : ℕ → ℕ → ℕ → List (ℕ × ℕ)
  | 0, _, _ => []
  | rest + 1, p, last =>
      let first := unpackN m p
      (if last ≠ 0 then [(last - 1, u32Sub first 1 - (last - 1))] else []) ++
        (if rest = 0 then [(u32Sub first 1, entries - u32Sub first 1)] else []) ++
        fillWrites m entries rest (p + 12) first

/-- What is stored of stsc, as memory. -/
def stashed (bytes : List UInt8) : ℕ → UInt8 := fun i => bytes.getD i 0

/-- What `chunkTable` touches, with `chunkinfo` of so many entries. -/
def tableTouched (m : ℕ → UInt8) (stsc : Option (List UInt8)) (allocated : ℕ) : Touched where
  reads := (12, 4) :: records 4 4 (unpackN m 12) 16
  tables :=
    match stsc with
    | none => [([(0, unpackN m 12 + 1)], allocated)]
    | some bytes =>
        [((0, unpackN m 12 + 1) ::
            fillWrites (stashed bytes) (unpackN m 12) (unpackN (stashed bytes) 0) 4 0, allocated),
          ((0, 4) :: records 8 12 (unpackN (stashed bytes) 0) 4, bytes.length)]

/-- The length of the text at `p`, up to its 0 or the end of the block. -/
def textLength (m : ℕ → UInt8) (p n : ℕ) : ℕ := (List.range n).findIdx fun i => m (p + i) = 0

/-- What `parseGapless` reads; `sscanf` reads a text up to its end. -/
def gaplessReads (m : ℕ → UInt8) (n len : ℕ) : List (ℕ × ℕ) :=
  let e := gaplessMean m len
  let d := gaplessName m e
  (12, 4) :: (if isText m 12 (ascii ['m', 'e', 'a', 'n']) then [(8, 4)] else []) ++
    ((e.1 + 4, 4) :: if isText m (e.1 + 4) (ascii ['n', 'a', 'm', 'e']) then
      (e.1, 4) :: if unpackN m e.1 < e.2 then [(e.1 + 12, 8)] else [] else []) ++
    ((d.1 + 4, 4) :: if isText m (d.1 + 4) (ascii ['d', 'a', 't', 'a']) && 16 + 48 < d.2 then
      [(d.1 + 16, textLength m (d.1 + 16) (n - (d.1 + 16)) + 1)] else [])

/-- What `parseBox` touches. -/
def parseTouched {κ : Type} (c : CodecTouch κ) (m : ℕ → UInt8) (n len : ℕ) (p : Mp4 κ) : Touched :=
  if boxOf m = c.codec.config then c.config m len
  else
    match boxOf m with
    | .stsz => c.sizes m
    | .stts => ⟨(12, 4) :: records 8 8 (unpackN m 12) 16, []⟩
    | .stsc =>
        if p.chunkinfo.isSome = false ∧ c.codec.malloc (u32Sub len 12) = true then
          ⟨[(12, u32Sub len 12)], [([(0, u32Sub len 12)], u32Sub len 12)]⟩
        else .nothing
    | .stco =>
        if p.play ≠ p.trak then .nothing
        else if c.codec.malloc (8 * (unpackN m 12 + 1) % 2 ^ 32) then
          tableTouched m p.stsc (8 * (unpackN m 12 + 1) % 2 ^ 32 / 8)
        else ⟨[(12, 4)], []⟩
    | .dashes => ⟨gaplessReads m n len, []⟩
    | _ => .nothing

/-! ### The loop -/

/-- A round of the loop: the bytes, the buffer, the parser. -/
structure HeaderRound (κ : Type) where
  bytes : ℕ
  b : Buffer
  p : Mp4 κ

namespace HeaderRound

variable {κ : Type}

/-- `len` -/
def len (r : HeaderRound κ) : ℕ := unpackN r.b.peek 0

/-- `type` -/
def box (r : HeaderRound κ) : Box := boxOf r.b.peek

/-- From a round to the next, or the end. -/
def step (c : Mp4Codec κ) (r : HeaderRound κ) : (Found × Buffer × Mp4 κ) ⊕ HeaderRound κ :=
  if r.bytes < 8 then .inl (.more, r.b, r.p)
  else
    match boxStep c r.bytes r.b r.p with
    | .done found b p => .inl (found, b, p)
    | .next bytes b p => .inr ⟨bytes, b, p⟩

/-- What a round touches. -/
def touched (c : CodecTouch κ) (r : HeaderRound κ) : Touched :=
  if r.bytes < 8 then .nothing
  else
    let t := if r.bytes > r.len then
        parseTouched c r.b.peek (r.b.wrap - r.b.readp) r.len (r.p.count r.box)
      else .nothing
    { t with reads := (0, 8) :: t.reads }

/-- The first round. -/
def first (b : Buffer) (p : Mp4 κ) : HeaderRound κ := ⟨min (bufUsed b) (bufContRead b), b, p⟩

end HeaderRound

/-- A call of `read_mp4_header` returns, reads the data only, and touches tables where they are. -/
structure HeaderCallSafe {κ : Type} (c : CodecTouch κ) (b : Buffer) (p : Mp4 κ) : Prop where
  returns : ∃ fuel result,
    headerLoop c.codec fuel (min (bufUsed b) (bufContRead b)) b p = some result
  inside : ∀ fuel, ∀ r ∈ Loop.visited (HeaderRound.step c.codec) fuel (.first b p),
    (r.touched c).Inside r.bytes

/-! ### What is safe -/

/-- A box of which nothing is kept is an error. -/
def boxFails {κ : Type} (c : CodecTouch κ) (m : ℕ → UInt8) (len : ℕ) (p : Mp4 κ) : Bool :=
  if boxOf m = c.codec.config then c.fails m len
  else
    match boxOf m with
    | .stsc => p.chunkinfo.isNone && !c.codec.malloc (u32Sub len 12)
    | .stco => p.play = p.trak && !c.codec.malloc (8 * (unpackN m 12 + 1) % 2 ^ 32)
    | _ => false

/-- The runs lead from chunk to chunk in a table of so many and its end mark, or back. -/
def RunsFine (entries : ℕ) (runs : List (ℕ × ℕ)) : Prop :=
  ∀ k < runs.length, ∀ r ∈ runs[k]?, ∀ q ∈ runs[k + 1]?,
    r.1 = 0 ∨ u32Sub q.1 1 ≤ r.1 - 1 ∨ u32Sub q.1 1 ≤ entries + 1

instance (entries : ℕ) (runs : List (ℕ × ℕ)) : Decidable (RunsFine entries runs) :=
  Nat.decidableBallLT _ _

/-- What is stored of stsc has the entries that it says, and its runs are fine. -/
def StashFine (entries : ℕ) (bytes : List UInt8) : Prop :=
  4 ≤ bytes.length ∧ 12 * unpackN (stashed bytes) 0 ≤ bytes.length ∧
    RunsFine entries (readRuns (stashed bytes) (unpackN (stashed bytes) 0) 4)

instance (entries : ℕ) (bytes : List UInt8) : Decidable (StashFine entries bytes) :=
  instDecidableAnd

/-- The entries of ---- are in the data, and the text ends there. -/
def GaplessFine (m : ℕ → UInt8) (n bytes len : ℕ) : Prop :=
  let e := gaplessMean m len
  let d := gaplessName m e
  16 ≤ bytes ∧ e.1 + 8 ≤ bytes ∧
    (isText m (e.1 + 4) (ascii ['n', 'a', 'm', 'e']) = true → unpackN m e.1 < e.2 →
      e.1 + 20 ≤ bytes) ∧ d.1 + 8 ≤ bytes ∧
    (isText m (d.1 + 4) (ascii ['d', 'a', 't', 'a']) = true → 16 + 48 < d.2 →
      d.1 + 16 + textLength m (d.1 + 16) (n - (d.1 + 16)) < bytes)

instance (m : ℕ → UInt8) (n bytes len : ℕ) : Decidable (GaplessFine m n bytes len) :=
  instDecidableAnd

/-- A box, of which something is kept, is safe with so many bytes of data. -/
def BoxFine {κ : Type} (c : CodecTouch κ) (m : ℕ → UInt8) (n bytes len : ℕ) (p : Mp4 κ) : Prop :=
  if boxOf m = c.codec.config then c.configFine m bytes len = true
  else
    match boxOf m with
    | .stsz => c.sizesFine m bytes = true
    | .stts => 16 + 8 * unpackN m 12 ≤ bytes
    | .stsc =>
        p.chunkinfo.isSome = true ∨ c.codec.malloc (u32Sub len 12) = false ∨
          12 + u32Sub len 12 ≤ bytes
    | .stco =>
        p.play ≠ p.trak ∨ 16 ≤ bytes ∧
          (c.codec.malloc (8 * (unpackN m 12 + 1) % 2 ^ 32) = false ∨
            16 + 4 * unpackN m 12 ≤ bytes ∧ unpackN m 12 + 1 < 2 ^ 29 ∧
              ∀ bytes ∈ p.stsc, StashFine (unpackN m 12) bytes)
    | .dashes => GaplessFine m n bytes len
    | _ => True

/-- A round that comes again and again. -/
def HeaderRound.Endless {κ : Type} (c : CodecTouch κ) (r : HeaderRound κ) : Prop :=
  8 ≤ r.bytes ∧ r.box ≠ .mdat ∧ boxConsume r.box r.len = 0 ∧
    boxFails c r.b.peek r.len r.p = false

/-- A round that is safe: it is not endless, and its box is safe if it is parsed. -/
def HeaderRound.Fine {κ : Type} (c : CodecTouch κ) (r : HeaderRound κ) : Prop :=
  8 ≤ r.bytes → ¬ r.Endless c ∧ (r.len < r.bytes →
    BoxFine c r.b.peek (r.b.wrap - r.b.readp) r.bytes r.len (r.p.count r.box))

instance {κ : Type} (c : CodecTouch κ) (m : ℕ → UInt8) (n bytes len : ℕ) (p : Mp4 κ) :
    Decidable (BoxFine c m n bytes len p) := by
  unfold BoxFine
  split
  · infer_instance
  · split <;> infer_instance

instance HeaderRound.decidableEndless {κ : Type} (c : CodecTouch κ) (r : HeaderRound κ) :
    Decidable (r.Endless c) :=
  instDecidableAnd

instance {κ : Type} (c : CodecTouch κ) (r : HeaderRound κ) : Decidable (r.Fine c) :=
  inferInstanceAs (Decidable (8 ≤ r.bytes → ¬ r.Endless c ∧ (r.len < r.bytes →
    BoxFine c r.b.peek (r.b.wrap - r.b.readp) r.bytes r.len (r.p.count r.box))))

section Boxes

variable {κ : Type} {c : CodecTouch κ} {m : ℕ → UInt8} {n bytes len entries p last : ℕ}
  {stash : List UInt8}

theorem inside_reads {rs : List (ℕ × ℕ)} :
    (Touched.mk rs []).Inside bytes ↔ AllWithin bytes rs :=
  ⟨And.left, fun h => ⟨h, fun _ h => absurd h List.not_mem_nil⟩⟩

theorem inside_iff {rs : List (ℕ × ℕ)} {tables : List (List (ℕ × ℕ) × ℕ)}
    {table : List (ℕ × ℕ) × ℕ} : (Touched.mk rs (table :: tables)).Inside bytes ↔
      AllWithin table.2 table.1 ∧ (Touched.mk rs tables).Inside bytes := by
  unfold Touched.Inside
  rw [List.forall_mem_cons]
  tauto

/-- A count at 12, and so many entries behind it. -/
theorem counted_iff {size : ℕ} (hsize : 0 < size) :
    AllWithin bytes ((12, 4) :: records size size n 16) ↔ 16 + size * n ≤ bytes := by
  rw [allWithin_cons, within_iff (by decide), allWithin_records hsize]
  cases n with
  | zero =>
    rw [Nat.mul_zero]
    exact ⟨And.left, fun h => ⟨h, .inl rfl⟩⟩
  | succ n =>
    have hlast : 16 + size * (n + 1 - 1) + size = 16 + size * (n + 1) := by
      rw [Nat.mul_succ]
      show 16 + size * n + size = _
      omega
    rw [hlast]
    constructor
    · rintro ⟨-, hzero | hle⟩
      · cases hzero
      · exact hle
    · exact fun hle => ⟨by omega, .inr hle⟩

/-- The runs that are behind one that begins at `last`. -/
theorem fillWrites_within (rest : ℕ) : AllWithin (entries + 1) (fillWrites m entries rest p last) ↔
    RunsFine entries ((last, 0) :: readRuns m rest p) := by
  induction rest generalizing p last with
  | zero =>
    refine ⟨fun _ k _ r hr q hq => ?_, fun _ => allWithin_nil⟩
    cases hq
  | succ rest ih =>
    have hlast : AllWithin (entries + 1)
        (if rest = 0 then [(u32Sub (unpackN m p) 1, entries - u32Sub (unpackN m p) 1)]
          else []) := by
      split
      · rw [allWithin_singleton]
        by_cases hle : u32Sub (unpackN m p) 1 ≤ entries
        · right
          show u32Sub (unpackN m p) 1 + (entries - u32Sub (unpackN m p) 1) ≤ entries + 1
          omega
        · left
          show entries - u32Sub (unpackN m p) 1 = 0
          omega
      · exact allWithin_nil
    have hrun : AllWithin (entries + 1)
        (if last ≠ 0 then [(last - 1, u32Sub (unpackN m p) 1 - (last - 1))] else []) ↔
        last = 0 ∨ u32Sub (unpackN m p) 1 ≤ last - 1 ∨ u32Sub (unpackN m p) 1 ≤ entries + 1 := by
      split
      · rw [allWithin_singleton]
        unfold Within
        dsimp only
        omega
      · exact ⟨fun _ => .inl (by omega), fun _ => allWithin_nil⟩
    rw [fillWrites, allWithin_append, allWithin_append, ih, hrun, readRuns]
    constructor
    · rintro ⟨⟨hfirst, -⟩, hrest⟩ k hk r hr q hq
      cases k with
      | zero =>
        cases hr
        cases hq
        exact hfirst
      | succ k =>
        cases k with
        | zero =>
          cases hr
          exact hrest 0 (Nat.zero_lt_succ _) _ rfl q hq
        | succ k => exact hrest (k + 1) (Nat.lt_of_succ_lt_succ hk) r hr q hq
    · intro h
      have hfirst := h 0 (Nat.zero_lt_succ _) (last, 0) rfl (unpackN m p, unpackN m (p + 4)) rfl
      refine ⟨⟨hfirst, hlast⟩, fun k hk r hr q hq => ?_⟩
      cases k with
      | zero =>
        cases hr
        exact h 1 (Nat.succ_lt_succ hk) _ rfl q hq
      | succ k => exact h (k + 2) (Nat.succ_lt_succ hk) r hr q hq

theorem runsFine_start (runs : List (ℕ × ℕ)) :
    RunsFine entries ((0, 0) :: runs) ↔ RunsFine entries runs := by
  constructor
  · intro h k hk r hr q hq
    exact h (k + 1) (Nat.succ_lt_succ hk) r hr q hq
  · intro h k hk r hr q hq
    cases k with
    | zero =>
      cases hr
      exact .inl rfl
    | succ k => exact h k (Nat.lt_of_succ_lt_succ hk) r hr q hq

/-- The table is where it was allocated, if its size was not cut off. -/
theorem allocated_iff : entries + 1 ≤ 8 * (entries + 1) % 2 ^ 32 / 8 ↔ entries + 1 < 2 ^ 29 := by
  omega

theorem stash_iff : AllWithin stash.length ((0, 4) :: records 8 12 n 4) ↔
    4 ≤ stash.length ∧ 12 * n ≤ stash.length := by
  rw [allWithin_cons, within_iff (by decide), allWithin_records (by decide)]
  omega

theorem tableTouched_iff (stsc : Option (List UInt8)) :
    (tableTouched m stsc (8 * (unpackN m 12 + 1) % 2 ^ 32 / 8)).Inside bytes ↔
      16 + 4 * unpackN m 12 ≤ bytes ∧ unpackN m 12 + 1 < 2 ^ 29 ∧
        ∀ stash ∈ stsc, StashFine (unpackN m 12) stash := by
  have hentries : Within (8 * (unpackN m 12 + 1) % 2 ^ 32 / 8) (0, unpackN m 12 + 1) ↔
      unpackN m 12 + 1 < 2 ^ 29 := by
    rw [within_iff (Nat.zero_lt_succ _), Nat.zero_add, allocated_iff]
  cases stsc with
  | none =>
    unfold tableTouched
    rw [inside_iff, inside_reads, counted_iff (by decide), allWithin_singleton, hentries]
    constructor
    · exact fun ⟨htable, hreads⟩ => ⟨hreads, htable, fun _ h => (nomatch h)⟩
    · exact fun ⟨hreads, htable, _⟩ => ⟨htable, hreads⟩
  | some stash =>
    unfold tableTouched
    rw [inside_iff, inside_iff, inside_reads, counted_iff (by decide), allWithin_cons, hentries,
      stash_iff]
    have hall : unpackN m 12 + 1 < 2 ^ 29 →
        8 * (unpackN m 12 + 1) % 2 ^ 32 / 8 = unpackN m 12 + 1 := by omega
    constructor
    · rintro ⟨⟨htable, hwrites⟩, ⟨hfour, hcount⟩, hreads⟩
      rw [hall htable, fillWrites_within, runsFine_start] at hwrites
      refine ⟨hreads, htable, fun _ h => ?_⟩
      cases h
      exact ⟨hfour, hcount, hwrites⟩
    · rintro ⟨hreads, htable, hstash⟩
      obtain ⟨hfour, hcount, hruns⟩ := hstash stash rfl
      rw [hall htable, fillWrites_within, runsFine_start]
      exact ⟨⟨htable, hruns⟩, ⟨hfour, hcount⟩, hreads⟩

/-- The entries of ---- begin behind its head. -/
theorem gaplessMean_ge (m : ℕ → UInt8) (len : ℕ) : 8 ≤ (gaplessMean m len).1 := by
  unfold gaplessMean
  split
  · exact Nat.le_add_right ..
  · exact Nat.le_refl _

theorem gaplessReads_iff : AllWithin bytes (gaplessReads m n len) ↔ GaplessFine m n bytes len := by
  have he := gaplessMean_ge m len
  unfold gaplessReads GaplessFine
  dsimp only
  generalize gaplessMean m len = e at he ⊢
  generalize gaplessName m e = d
  have hmean : 16 ≤ bytes → AllWithin bytes
      (if isText m 12 (ascii ['m', 'e', 'a', 'n']) then [(8, 4)] else []) := by
    intro h16
    split
    · exact allWithin_singleton.mpr (.inr (by omega))
    · exact allWithin_nil
  have hname : e.1 + 8 ≤ bytes → (AllWithin bytes
      (if isText m (e.1 + 4) (ascii ['n', 'a', 'm', 'e']) then
        (e.1, 4) :: if unpackN m e.1 < e.2 then [(e.1 + 12, 8)] else [] else []) ↔
      (isText m (e.1 + 4) (ascii ['n', 'a', 'm', 'e']) = true → unpackN m e.1 < e.2 →
        e.1 + 20 ≤ bytes)) := by
    intro h8
    split
    · rename_i htext
      rw [allWithin_cons, within_iff (by decide)]
      split
      · rename_i hsize
        rw [allWithin_singleton, within_iff (by decide)]
        exact ⟨fun h _ _ => h.2, fun h => ⟨by omega, h htext hsize⟩⟩
      · rename_i hsize
        exact ⟨fun _ _ h => absurd h hsize, fun _ => ⟨by omega, allWithin_nil⟩⟩
    · rename_i htext
      exact ⟨fun _ h => absurd h htext, fun _ => allWithin_nil⟩
  have hdata : AllWithin bytes
      (if isText m (d.1 + 4) (ascii ['d', 'a', 't', 'a']) && 16 + 48 < d.2 then
        [(d.1 + 16, textLength m (d.1 + 16) (n - (d.1 + 16)) + 1)] else []) ↔
      (isText m (d.1 + 4) (ascii ['d', 'a', 't', 'a']) = true → 16 + 48 < d.2 →
        d.1 + 16 + textLength m (d.1 + 16) (n - (d.1 + 16)) < bytes) := by
    split
    · rename_i hboth
      rw [Bool.and_eq_true, decide_eq_true_eq] at hboth
      rw [allWithin_singleton, within_iff (Nat.zero_lt_succ _)]
      exact ⟨fun h _ _ => h, fun h => h hboth.1 hboth.2⟩
    · rename_i hnot
      rw [Bool.and_eq_true, decide_eq_true_eq] at hnot
      exact ⟨fun _ htext hsize => absurd ⟨htext, hsize⟩ hnot, fun _ => allWithin_nil⟩
  rw [allWithin_append, allWithin_append, allWithin_cons, allWithin_cons, allWithin_cons, hdata,
    within_iff (by decide), within_iff (by decide), within_iff (by decide)]
  constructor
  · rintro ⟨⟨⟨h16, -⟩, h8, hn⟩, hd, ht⟩
    exact ⟨h16, h8, (hname h8).mp hn, hd, ht⟩
  · rintro ⟨h16, h8, hn, hd, ht⟩
    exact ⟨⟨⟨h16, hmean h16⟩, h8, (hname h8).mpr hn⟩, hd, ht⟩

/-- What a box touches is there for exactly these boxes. -/
theorem parseTouched_iff (p : Mp4 κ) (hlen : len < bytes) (hlt : len < 2 ^ 32) :
    (parseTouched c m n len p).Inside bytes ↔ BoxFine c m n bytes len p := by
  unfold parseTouched BoxFine
  by_cases hconfig : boxOf m = c.codec.config
  · rw [if_pos hconfig, if_pos hconfig]
    exact c.config_iff m bytes len
  rw [if_neg hconfig, if_neg hconfig]
  split
  · exact c.sizes_iff m bytes
  · exact inside_reads.trans (counted_iff (by decide))
  · -- stsc
    have hzero : u32Sub len 12 = 0 → 12 + u32Sub len 12 ≤ bytes := by
      unfold u32Sub
      omega
    by_cases hstash : p.chunkinfo.isSome = false ∧ c.codec.malloc (u32Sub len 12) = true
    · rw [if_pos hstash, inside_iff, inside_reads, allWithin_singleton, allWithin_singleton]
      constructor
      · rintro ⟨-, hnone | hle⟩
        · exact .inr (.inr (hzero hnone))
        · exact .inr (.inr hle)
      · rintro (hsome | hfails | hle)
        · exact absurd (hsome.symm.trans hstash.1) (by decide)
        · exact absurd (hfails.symm.trans hstash.2) (by decide)
        · exact ⟨.inr (by omega), .inr hle⟩
    · rw [if_neg hstash]
      refine ⟨fun _ => ?_, fun _ => Touched.nothing_inside bytes⟩
      by_contra hnot
      rw [not_or, not_or] at hnot
      exact hstash ⟨eq_false_of_ne_true hnot.1, eq_true_of_ne_false hnot.2.1⟩
  · -- stco
    by_cases hplay : p.play ≠ p.trak
    · rw [if_pos hplay]
      exact ⟨fun _ => .inl hplay, fun _ => Touched.nothing_inside bytes⟩
    rw [if_neg hplay]
    by_cases hmalloc : c.codec.malloc (8 * (unpackN m 12 + 1) % 2 ^ 32) = true
    · rw [if_pos hmalloc, tableTouched_iff]
      constructor
      · exact fun h => .inr ⟨by omega, .inr h⟩
      · rintro (hother | ⟨-, hfails | h⟩)
        · exact absurd hother hplay
        · exact absurd (hfails.symm.trans hmalloc) (by decide)
        · exact h
    · rw [if_neg hmalloc, inside_reads, allWithin_singleton, within_iff (by decide)]
      constructor
      · exact fun h => .inr ⟨h, .inl (eq_false_of_ne_true hmalloc)⟩
      · rintro (hother | ⟨h16, -⟩)
        · exact absurd hother hplay
        · exact h16
  · exact inside_reads.trans gaplessReads_iff
  · exact ⟨fun _ => trivial, fun _ => Touched.nothing_inside bytes⟩

end Boxes

/-! ### alac -/

section AlacBoxes

variable (create : List UInt8 → AlacInfo) (malloc : ℕ → Bool)

/-- What is touched of stsz: `block_size` is written without a look at what `malloc` returned. -/
def alacSizesTouched (m : ℕ → UInt8) : Touched :=
  if unpackN m 12 = 0 then
    { reads := (12, 4) :: (16, 4) :: records 4 4 (unpackN m 16) 20
      tables := [([(0, unpackN m 16 + 1)],
        if malloc (4 * (unpackN m 16 + 1) % 2 ^ 32) then 4 * (unpackN m 16 + 1) % 2 ^ 32 / 4
        else 0)] }
  else ⟨[(12, 4)], []⟩

/-- The sizes are all there, and `block_size` holds them. -/
def alacSizesFine (m : ℕ → UInt8) (bytes : ℕ) : Bool :=
  16 ≤ bytes && (unpackN m 12 ≠ 0 || 20 + 4 * unpackN m 16 ≤ bytes &&
    unpackN m 16 + 1 < 2 ^ 30 && malloc (4 * (unpackN m 16 + 1) % 2 ^ 32))

theorem alacSizes_iff (m : ℕ → UInt8) (bytes : ℕ) :
    (alacSizesTouched malloc m).Inside bytes ↔ alacSizesFine malloc m bytes = true := by
  unfold alacSizesTouched alacSizesFine
  by_cases hzero : unpackN m 12 = 0
  · rw [if_pos hzero, inside_iff, inside_reads, allWithin_singleton,
      within_iff (Nat.zero_lt_succ _), allWithin_cons, allWithin_cons, within_iff (by decide),
      within_iff (by decide), allWithin_records (by decide)]
    have hnone : ¬ unpackN m 12 ≠ 0 := not_not.mpr hzero
    simp only [hnone, Bool.and_eq_true, Bool.or_eq_true, decide_eq_true_eq, false_or]
    cases malloc (4 * (unpackN m 16 + 1) % 2 ^ 32) with
    | false =>
      simp only [Bool.false_eq_true, if_false, and_false, iff_false]
      rintro ⟨hle, -⟩
      omega
    | true =>
      simp only [if_true, and_true]
      omega
  · rw [if_neg hzero, inside_reads, allWithin_singleton, within_iff (by decide)]
    simp [hzero]

/-- The parser of alac.c.  What `alac_create_decoder` is given counts as read. -/
def alacTouch : CodecTouch Alac where
  codec := alacCodec create malloc
  config _ len := ⟨[(36, u32Sub len 36)], []⟩
  sizes := alacSizesTouched malloc
  fails m len := !malloc (((create ((List.range (u32Sub len 36)).map fun i =>
    m (36 + i))).blockSize + 256) % 2 ^ 32)
  configFine _ bytes len := u32Sub len 36 = 0 || 36 + u32Sub len 36 ≤ bytes
  sizesFine := alacSizesFine malloc
  setup_none m len l := by
    show alacSetup create malloc m len l = none ↔ _
    unfold alacSetup
    dsimp only
    split
    · rename_i hsome
      rw [hsome]
      simp
    · rename_i hnone
      rw [eq_false_of_ne_true hnone]
      simp
  config_iff m bytes len := by
    rw [inside_reads, allWithin_singleton, Bool.or_eq_true, decide_eq_true_eq, decide_eq_true_eq]
    rfl
  sizes_iff := alacSizes_iff malloc

end AlacBoxes

/-! ### helix-aac -/

section HelixBoxes

variable (m : ℕ → UInt8)

/-- Where the first length in esds is done with. -/
def esdsFirst : ℕ := if m 12 = 0x03 then (mp4DescLength m 4 13 0).2 + 4 else 16

/-- Where the tag of the configuration is. -/
def esdsTag : ℕ := (mp4DescLength m 4 (esdsFirst m) 0).2 + 13

/-- Where the configuration is, behind its length. -/
def esdsConfig : ℕ := (mp4DescLength m 4 (esdsTag m + 1) 0).2

/-- `AOT` -/
def esdsType : ℕ := (m (esdsConfig m)).toNat / 8

/-- The index of the rate. -/
def esdsRate : ℕ := (m (esdsConfig m)).toNat % 8 * 2 + (m (esdsConfig m + 1)).toNat / 128

/-- The configuration has a byte for the extended rate. -/
def esdsLong : Bool := 2 < (mp4DescLength m 4 (esdsTag m + 1) 0).1

/-- There is an extended rate, if the configuration is that long. -/
def esdsExtended : Bool :=
  (m (esdsConfig m + 2)).toNat * 8 + (m (esdsConfig m + 3)).toNat / 32 = 0x2b7 &&
    (m (esdsConfig m + 3)).toNat % 32 = 0x05

/-- What is touched of a configuration, with its rates. -/
def esdsConfigTouched : Touched :=
  if esdsType m = 5 ∨ esdsType m = 29 then
    ⟨[(esdsConfig m, 2), (esdsConfig m + 1, 2)],
      [([(esdsRate m, 1), ((m (esdsConfig m + 1)).toNat % 4 * 2 +
        (m (esdsConfig m + 2)).toNat / 128, 1)], rates.length)]⟩
  else if esdsLong m then
    if esdsExtended m then
      ⟨[(esdsConfig m, 2), (esdsConfig m + 2, 2), (esdsConfig m + 4, 1)],
        [((esdsRate m, 1) :: (if 128 ≤ (m (esdsConfig m + 4)).toNat then
          [((m (esdsConfig m + 4)).toNat % 128 / 8, 1)] else []), rates.length)]⟩
    else ⟨[(esdsConfig m, 2), (esdsConfig m + 2, 2)], [([(esdsRate m, 1)], rates.length)]⟩
  else ⟨[(esdsConfig m, 2)], [([(esdsRate m, 1)], rates.length)]⟩

/-- What is touched of esds. -/
def esdsTouched : Touched :=
  let head := (12, 1) :: (if m 12 = 0x03 then [(13, (mp4DescLength m 4 13 0).2 - 13)] else []) ++
    [(esdsFirst m, esdsTag m - 13 - esdsFirst m), (esdsTag m, 1)]
  if m (esdsTag m) ≠ 0x05 then ⟨head, []⟩
  else
    ⟨head ++ (esdsTag m + 1, esdsConfig m - (esdsTag m + 1)) :: (esdsConfigTouched m).reads,
      (esdsConfigTouched m).tables⟩

/-- Behind the last byte that is read of a configuration. -/
def esdsConfigEnd : ℕ :=
  if esdsType m = 5 ∨ esdsType m = 29 then esdsConfig m + 3
  else if esdsLong m then if esdsExtended m then esdsConfig m + 5 else esdsConfig m + 4
  else esdsConfig m + 2

/-- All of esds is in the data, and its rates are known. -/
def esdsFine (bytes : ℕ) : Bool :=
  if m (esdsTag m) ≠ 0x05 then esdsTag m < bytes
  else
    esdsConfigEnd m ≤ bytes && esdsRate m < rates.length &&
      (esdsType m = 5 || esdsType m = 29 || !esdsLong m || !esdsExtended m ||
        (m (esdsConfig m + 4)).toNat < 128 ||
        (m (esdsConfig m + 4)).toNat % 128 / 8 < rates.length)

theorem mp4DescLength_gt (n p length : ℕ) : p < (mp4DescLength m (n + 1) p length).2 := by
  induction n generalizing p length with
  | zero =>
    unfold mp4DescLength
    split
    · exact Nat.lt_succ_self _
    · exact Nat.lt_succ_self _
  | succ n ih =>
    rw [mp4DescLength]
    split
    · exact Nat.lt_trans (Nat.lt_succ_self _) (ih _ _)
    · exact Nat.lt_succ_self _

/-- The places in esds come one behind the other. -/
theorem esds_places : 13 ≤ esdsFirst m ∧ esdsFirst m + 13 < esdsTag m ∧
    esdsTag m + 1 < esdsConfig m := by
  have hfirst : 13 < (mp4DescLength m 4 13 0).2 := mp4DescLength_gt m 3 13 0
  have htag : esdsFirst m < (mp4DescLength m 4 (esdsFirst m) 0).2 := mp4DescLength_gt m 3 _ 0
  have hconfig : esdsTag m + 1 < esdsConfig m := mp4DescLength_gt m 3 (esdsTag m + 1) 0
  refine ⟨?_, ?_, hconfig⟩
  · unfold esdsFirst
    split <;> omega
  · unfold esdsTag
    omega

theorem inside_append {rs rs' : List (ℕ × ℕ)} {tables : List (List (ℕ × ℕ) × ℕ)} {bytes : ℕ} :
    (Touched.mk (rs ++ rs') tables).Inside bytes ↔
      AllWithin bytes rs ∧ (Touched.mk rs' tables).Inside bytes := by
  unfold Touched.Inside
  rw [allWithin_append, and_assoc]

theorem inside_cons {r : ℕ × ℕ} {rs : List (ℕ × ℕ)} {tables : List (List (ℕ × ℕ) × ℕ)} {bytes : ℕ} :
    (Touched.mk (r :: rs) tables).Inside bytes ↔
      Within bytes r ∧ (Touched.mk rs tables).Inside bytes := by
  unfold Touched.Inside
  rw [allWithin_cons, and_assoc]

theorem esdsConfig_iff (bytes : ℕ) : (esdsConfigTouched m).Inside bytes ↔
    esdsConfigEnd m ≤ bytes ∧ esdsRate m < rates.length ∧
      (esdsType m = 5 ∨ esdsType m = 29 ∨ esdsLong m = false ∨ esdsExtended m = false ∨
        (m (esdsConfig m + 4)).toNat < 128 ∨
        (m (esdsConfig m + 4)).toNat % 128 / 8 < rates.length) := by
  have hlength : rates.length = 13 := rfl
  have hindex : (m (esdsConfig m + 1)).toNat % 4 * 2 + (m (esdsConfig m + 2)).toNat / 128 < 13 := by
    have hlt := (m (esdsConfig m + 2)).toNat_lt
    omega
  unfold esdsConfigTouched esdsConfigEnd
  rw [hlength]
  by_cases htype : esdsType m = 5 ∨ esdsType m = 29
  · have hany : esdsType m = 5 ∨ esdsType m = 29 ∨ esdsLong m = false ∨ esdsExtended m = false ∨
        (m (esdsConfig m + 4)).toNat < 128 ∨ (m (esdsConfig m + 4)).toNat % 128 / 8 < 13 :=
      htype.imp_right .inl
    rw [if_pos htype, if_pos htype, inside_iff, inside_reads, allWithin_cons, allWithin_singleton,
      allWithin_cons, allWithin_singleton, within_iff Nat.one_pos, within_iff Nat.one_pos,
      within_iff Nat.two_pos, within_iff Nat.two_pos, eq_true hany, and_true]
    dsimp only
    omega
  have hnot := not_or.mp htype
  rw [if_neg htype, if_neg htype, eq_false hnot.1, eq_false hnot.2, false_or, false_or]
  cases esdsLong m with
  | false =>
    have hany : false = false ∨ esdsExtended m = false ∨ (m (esdsConfig m + 4)).toNat < 128 ∨
        (m (esdsConfig m + 4)).toNat % 128 / 8 < 13 := .inl rfl
    rw [eq_true hany, and_true, if_neg (by decide), if_neg (by decide), inside_iff, inside_reads,
      allWithin_singleton, allWithin_singleton, within_iff Nat.one_pos, within_iff Nat.two_pos]
    dsimp only
    omega
  | true =>
    rw [if_pos rfl, if_pos rfl, eq_false (by decide : ¬ true = false), false_or]
    cases esdsExtended m with
    | false =>
      have hany : false = false ∨ (m (esdsConfig m + 4)).toNat < 128 ∨
          (m (esdsConfig m + 4)).toNat % 128 / 8 < 13 := .inl rfl
      rw [eq_true hany, and_true, if_neg (by decide), if_neg (by decide), inside_iff, inside_reads,
        allWithin_singleton, allWithin_cons, allWithin_singleton, within_iff Nat.one_pos,
        within_iff Nat.two_pos, within_iff Nat.two_pos]
      dsimp only
      omega
    | true =>
      rw [if_pos rfl, if_pos rfl, eq_false (by decide : ¬ true = false), false_or, inside_iff,
        inside_reads, allWithin_cons, allWithin_cons, allWithin_cons, allWithin_singleton,
        within_iff Nat.one_pos, within_iff Nat.two_pos, within_iff Nat.two_pos,
        within_iff Nat.one_pos]
      by_cases hset : 128 ≤ (m (esdsConfig m + 4)).toNat
      · rw [if_pos hset, allWithin_singleton, within_iff Nat.one_pos]
        dsimp only
        omega
      · have hnil : AllWithin 13 [] := allWithin_nil
        have hany : (m (esdsConfig m + 4)).toNat < 128 ∨
            (m (esdsConfig m + 4)).toNat % 128 / 8 < 13 := .inl (by omega)
        rw [if_neg hset, eq_true hnil, eq_true hany, and_true, and_true]
        dsimp only
        omega

theorem esds_iff (bytes : ℕ) : (esdsTouched m).Inside bytes ↔ esdsFine m bytes = true := by
  obtain ⟨hfirst, htag, hconfig⟩ := esds_places m
  -- what comes before the tag is there if the tag is
  have hhead : AllWithin bytes ((12, 1) ::
      (if m 12 = 0x03 then [(13, (mp4DescLength m 4 13 0).2 - 13)] else []) ++
      [(esdsFirst m, esdsTag m - 13 - esdsFirst m), (esdsTag m, 1)]) ↔ esdsTag m < bytes := by
    rw [List.cons_append, allWithin_cons, allWithin_append, allWithin_cons, allWithin_singleton,
      within_iff Nat.one_pos, within_iff Nat.one_pos]
    constructor
    · rintro ⟨-, -, -, hle⟩
      exact hle
    · intro hle
      refine ⟨by omega, ?_, .inr ?_, hle⟩
      · split
        · rename_i hthree
          have hafter : esdsFirst m = (mp4DescLength m 4 13 0).2 + 4 := if_pos hthree
          have hgt : 13 < (mp4DescLength m 4 13 0).2 := mp4DescLength_gt m 3 13 0
          refine allWithin_singleton.mpr (.inr ?_)
          dsimp only
          omega
        · exact allWithin_nil
      · dsimp only
        omega
  have hend : esdsConfig m + 2 ≤ esdsConfigEnd m := by
    unfold esdsConfigEnd
    split
    · omega
    · split
      · split <;> omega
      · omega
  unfold esdsTouched esdsFine
  dsimp only
  by_cases hother : m (esdsTag m) ≠ 0x05
  · rw [if_pos hother, if_pos hother, inside_reads, hhead, decide_eq_true_eq]
  · rw [if_neg hother, if_neg hother, inside_append, inside_cons, hhead]
    have hsplit : (Touched.mk (esdsConfigTouched m).reads (esdsConfigTouched m).tables) =
        esdsConfigTouched m := rfl
    rw [hsplit, esdsConfig_iff]
    simp only [Bool.and_eq_true, Bool.or_eq_true, decide_eq_true_eq, Bool.not_eq_true', or_assoc,
      and_assoc]
    constructor
    · rintro ⟨-, -, hconfig⟩
      exact hconfig
    · rintro ⟨hle, hrate⟩
      refine ⟨by omega, .inr ?_, hle, hrate⟩
      dsimp only
      omega

end HelixBoxes

/-- The parser of helix-aac.c. -/
def helixTouch (malloc : ℕ → Bool) : CodecTouch Helix where
  codec := helixCodec malloc
  config m _ := esdsTouched m
  sizes _ := .nothing
  fails m _ := m (esdsTag m) ≠ 0x05
  configFine m bytes _ := esdsFine m bytes
  sizesFine _ _ := true
  setup_none m len a := by
    show helixSetup m len a = none ↔ _
    unfold helixSetup
    show (if m (esdsTag m) ≠ 0x05 then none else _) = none ↔ _
    split
    · rename_i hother
      simp [hother]
    · rename_i hfive
      simp [hfive]
  config_iff m bytes _ := esds_iff m bytes
  sizes_iff m bytes := ⟨fun _ => rfl, fun _ => Touched.nothing_inside bytes⟩

/-! ### The rounds of a call -/

section Rounds

variable {κ : Type} {c : CodecTouch κ} {m : ℕ → UInt8} {n len : ℕ} {b : Buffer} {p p' : Mp4 κ}
  {r r' : HeaderRound κ}

theorem headerLoop_eq (c : Mp4Codec κ) (fuel bytes : ℕ) (b : Buffer) (p : Mp4 κ) :
    headerLoop c fuel bytes b p = Loop.run (HeaderRound.step c) fuel ⟨bytes, b, p⟩ := by
  induction fuel generalizing bytes b p with
  | zero => rfl
  | succ fuel ih =>
    rw [headerLoop, Loop.run, HeaderRound.step]
    by_cases hfew : bytes < 8
    · rw [if_pos hfew, if_pos hfew]
    · rw [if_neg hfew, if_neg hfew]
      dsimp only
      cases boxStep c bytes b p with
      | done found b' p' => rfl
      | next bytes' b' p' => exact ih bytes' b' p'

/-- An error is an error whatever was kept of the box. -/
theorem parseBox_none : parseBox c.codec m n len p = none ↔ boxFails c m len p = true := by
  unfold parseBox boxFails
  by_cases hconfig : boxOf m = c.codec.config
  · rw [if_pos hconfig, if_pos hconfig, Option.map_eq_none_iff]
    exact c.setup_none m len p.codec
  rw [if_neg hconfig, if_neg hconfig]
  cases boxOf m with
  | stsz =>
    dsimp only
    cases c.codec.sizes <;> simp
  | stsc =>
    dsimp only
    cases p.chunkinfo with
    | none => cases c.codec.malloc (u32Sub len 12) <;> simp
    | some table => simp
  | stco =>
    dsimp only
    by_cases hplay : p.play = p.trak
    · cases c.codec.malloc (8 * (unpackN m 12 + 1) % 2 ^ 32) <;> simp [hplay]
    · simp [hplay]
  | _ => simp

theorem boxFails_count : boxFails c m len (p.count (boxOf m)) = boxFails c m len p := by
  unfold boxFails
  split
  · rfl
  · cases boxOf m <;> rfl

/-- A box that was no error is none the next time. -/
theorem boxFails_again (h : parseBox c.codec m n len p = some p') (k : ℕ) :
    boxFails c m len { p' with pos := k } = false := by
  have hsome : boxFails c m len p ≠ true := by
    rw [Ne, ← parseBox_none (n := n), h]
    exact Option.some_ne_none p'
  unfold boxFails parseBox at *
  by_cases hconfig : boxOf m = c.codec.config
  · rw [if_pos hconfig] at hsome ⊢
    exact eq_false_of_ne_true hsome
  rw [if_neg hconfig] at hsome h ⊢
  revert hsome h
  cases boxOf m with
  | stsc =>
    dsimp only
    intro h hsome
    split at h
    · rename_i hinfo
      cases h
      cases hchunks : p.chunkinfo with
      | none =>
        rw [hchunks] at hinfo
        cases hinfo
      | some table => rfl
    · split at h
      · rename_i hmalloc
        cases h
        rw [hmalloc]
        exact Bool.and_false _
      · cases h
  | stco =>
    dsimp only
    intro h hsome
    split at h
    · rename_i hplay
      cases h
      rw [decide_eq_false hplay]
      exact Bool.false_and _
    · split at h
      · rename_i hmalloc
        cases h
        rw [hmalloc]
        exact Bool.and_false _
      · cases h
  | _ => exact fun _ _ => rfl

/-- What is kept of the box of a round. -/
def HeaderRound.kept (c : Mp4Codec κ) (r : HeaderRound κ) : Option (Mp4 κ) :=
  if r.bytes > r.len then
    parseBox c r.b.peek (r.b.wrap - r.b.readp) r.len (r.p.count r.box)
  else some (r.p.count r.box)

theorem step_eq (c : Mp4Codec κ) (r : HeaderRound κ) : r.step c =
    if r.bytes < 8 then .inl (.more, r.b, r.p)
    else
      match (match r.kept c with
        | none => HeaderStep.done .failed r.b (r.p.count r.box)
        | some p =>
            if r.box = Box.mdat then mediaStep c r.bytes r.b p
            else passBox c r.bytes r.b p r.box r.len) with
      | .done found b p => .inl (found, b, p)
      | .next bytes b p => .inr ⟨bytes, b, p⟩ := rfl

/-- A round that goes on passes its box. -/
theorem step_inr {c : Mp4Codec κ} (h : r.step c = .inr r') : 8 ≤ r.bytes ∧ r.box ≠ .mdat ∧
    boxConsume r.box r.len ≤ r.bytes ∧ ∃ p', r.kept c = some p' ∧
      r' = ⟨r.bytes - boxConsume r.box r.len, bufIncReadp r.b (boxConsume r.box r.len),
        { p' with pos := (p'.pos + boxConsume r.box r.len) % 2 ^ 32 }⟩ := by
  rw [step_eq] at h
  split at h
  · cases h
  rename_i h8
  refine ⟨by omega, ?_⟩
  cases hkept : r.kept c with
  | none =>
    rw [hkept] at h
    cases h
  | some p' =>
    rw [hkept] at h
    dsimp only at h
    by_cases hmdat : r.box = .mdat
    · rw [if_pos hmdat] at h
      split at h
      · cases h
      · rename_i hnext
        exact absurd hnext mediaStep_ne_next
    · rw [if_neg hmdat] at h
      refine ⟨hmdat, ?_⟩
      unfold passBox at h
      by_cases hall : r.bytes ≥ boxConsume r.box r.len
      · rw [if_pos hall] at h
        cases h
        exact ⟨hall, p', rfl, rfl⟩
      · rw [if_neg hall] at h
        split at h
        · cases h
        · rename_i hnext
          split at hnext
          · cases hnext
          · split at hnext <;> cases hnext

/-- A round that passes its box goes on. -/
theorem step_passes {c : Mp4Codec κ} (h8 : 8 ≤ r.bytes) (hmdat : r.box ≠ .mdat)
    (hall : boxConsume r.box r.len ≤ r.bytes) (hkept : r.kept c = some p') :
    r.step c = .inr ⟨r.bytes - boxConsume r.box r.len,
      bufIncReadp r.b (boxConsume r.box r.len),
      { p' with pos := (p'.pos + boxConsume r.box r.len) % 2 ^ 32 }⟩ := by
  rw [step_eq, if_neg (by omega), hkept]
  dsimp only
  rw [if_neg hmdat]
  unfold passBox
  rw [if_pos hall]

/-- Nothing is passed of a box without a length only. -/
theorem len_of_consume (h : boxConsume r.box r.len = 0) : r.len = 0 := by
  revert h
  cases r.box <;> simp [boxConsume]

theorem bufIncReadp_zero (h : b.Wf) : bufIncReadp b 0 = b := by
  have hlt := h.readp_lt
  unfold bufIncReadp
  rw [Nat.add_zero, if_neg (by omega)]

/-- Something is kept of a box that is no error. -/
theorem kept_some (hlen : r.len < r.bytes) :
    (∃ p', r.kept c.codec = some p') ↔ boxFails c r.b.peek r.len r.p = false := by
  have hparse : r.kept c.codec =
      parseBox c.codec r.b.peek (r.b.wrap - r.b.readp) r.len (r.p.count r.box) := if_pos hlen
  have hfails : parseBox c.codec r.b.peek (r.b.wrap - r.b.readp) r.len
      (r.p.count (boxOf r.b.peek)) = none ↔ _ := parseBox_none
  rw [boxFails_count] at hfails
  rw [hparse, ← Option.isSome_iff_exists, ← Bool.not_eq_true, ← hfails, Option.isSome_iff_ne_none]
  rfl

/-- An endless round comes again. -/
theorem HeaderRound.Endless.again (hwf : r.b.Wf) (h : r.Endless c) :
    ∃ r', r.step c.codec = .inr r' ∧ r'.b = r.b ∧ r'.Endless c := by
  obtain ⟨h8, hmdat, hzero, hfails⟩ := h
  have hlen := len_of_consume hzero
  obtain ⟨p', hkept⟩ := (kept_some (by omega)).mpr hfails
  have hstep := step_passes h8 hmdat (by omega) hkept
  have hparse : parseBox c.codec r.b.peek (r.b.wrap - r.b.readp) r.len (r.p.count r.box) =
      some p' := by
    rw [← hkept]
    exact (if_pos (by omega)).symm
  rw [hzero, bufIncReadp_zero hwf] at hstep
  refine ⟨_, hstep, rfl, h8, hmdat, hzero, ?_⟩
  exact boxFails_again hparse _

/-- A round that is not endless leaves less. -/
theorem step_falls (hends : ¬ r.Endless c) (h : r.step c.codec = .inr r') :
    r'.bytes < r.bytes := by
  obtain ⟨h8, hmdat, hall, p', hkept, rfl⟩ := step_inr h
  have hpos : boxConsume r.box r.len ≠ 0 := by
    intro hzero
    have hlen := len_of_consume hzero
    exact hends ⟨h8, hmdat, hzero, (kept_some (by omega)).mp ⟨p', hkept⟩⟩
  show r.bytes - boxConsume r.box r.len < r.bytes
  omega

/-- The buffer stays as it is in all rounds. -/
theorem visited_wf {c : Mp4Codec κ} (h : b.Wf) (fuel : ℕ)
    (hr : r ∈ Loop.visited (HeaderRound.step c) fuel (.first b p)) : r.b.Wf := by
  have hkeep : ∀ t t' : HeaderRound κ, t.b.Wf ∧ t.bytes ≤ bufContRead t.b →
      t.step c = .inr t' → t'.b.Wf ∧ t'.bytes ≤ bufContRead t'.b := by
    rintro t t' ⟨hwf, hle⟩ hstep
    obtain ⟨-, -, hall, p', -, rfl⟩ := step_inr hstep
    have hused := hwf.contRead_le_used
    have hrest := contRead_bufIncReadp (n := boxConsume t.box t.len) hwf
    refine ⟨(keeps_bufIncReadp hwf (by omega)).wf, ?_⟩
    dsimp only
    omega
  exact (Loop.visited_keeps hkeep fuel ⟨h, Nat.min_le_right ..⟩ r hr).1

end Rounds

/-- All rounds of a call are safe. -/
def HeaderCallFine {κ : Type} (c : CodecTouch κ) (b : Buffer) (p : Mp4 κ) : Prop :=
  ∀ r ∈ Loop.visited (HeaderRound.step c.codec) (min (bufUsed b) (bufContRead b) + 1) (.first b p),
    r.Fine c

instance {κ : Type} (c : CodecTouch κ) (b : Buffer) (p : Mp4 κ) : Decidable (HeaderCallFine c b p) :=
  List.decidableBAll _ _

section Safe

variable {κ : Type} {c : CodecTouch κ} {b : Buffer} {p : Mp4 κ} {r : HeaderRound κ}

/-- A round touches what is there if its box is safe. -/
theorem touched_iff : (r.touched c).Inside r.bytes ↔ (8 ≤ r.bytes → r.len < r.bytes →
    BoxFine c r.b.peek (r.b.wrap - r.b.readp) r.bytes r.len (r.p.count r.box)) := by
  have hlt : r.len < 2 ^ 32 := Octets.be_lt ..
  unfold HeaderRound.touched
  by_cases hfew : r.bytes < 8
  · rw [if_pos hfew]
    exact ⟨fun _ h8 => absurd hfew (by omega), fun _ => Touched.nothing_inside _⟩
  rw [if_neg hfew]
  dsimp only
  rw [inside_cons, within_iff (by decide)]
  by_cases hlen : r.len < r.bytes
  · rw [if_pos hlen, ← parseTouched_iff _ hlen hlt]
    exact ⟨fun h _ _ => h.2, fun h => ⟨by omega, h (by omega) hlen⟩⟩
  · rw [if_neg hlen]
    exact ⟨fun _ _ h => absurd h hlen, fun _ => ⟨by omega, Touched.nothing_inside _⟩⟩

/-- A call is safe on exactly the bytes whose boxes are. -/
theorem callSafe_iff (h : b.Wf) : HeaderCallSafe c b p ↔ HeaderCallFine c b p := by
  constructor
  · rintro ⟨⟨fuel, result, hreturns⟩, hinside⟩ r hr h8
    refine ⟨fun hendless => ?_, touched_iff.mp (hinside _ r hr) h8⟩
    have htrap : ∀ t : HeaderRound κ, t.b.Wf ∧ t.Endless c →
        ∃ t', t.step c.codec = .inr t' ∧ t'.b.Wf ∧ t'.Endless c := by
      rintro t ⟨hwf, ht⟩
      obtain ⟨t', hstep, hb, ht'⟩ := ht.again hwf
      exact ⟨t', hstep, hb ▸ hwf, ht'⟩
    have hnone := Loop.run_stuck htrap _ hr ⟨visited_wf h _ hr, hendless⟩ fuel
    rw [headerLoop_eq] at hreturns
    cases hnone.symm.trans hreturns
  · intro hfine
    have hfalls : ∀ t ∈ Loop.visited (HeaderRound.step c.codec)
        (min (bufUsed b) (bufContRead b) + 1) (.first b p), ∀ t', t.step c.codec = .inr t' →
        t'.bytes < t.bytes := by
      intro t ht t' hstep
      exact step_falls (hfine t ht (step_inr hstep).1).1 hstep
    obtain ⟨result, hrun⟩ := Loop.run_of_falls HeaderRound.bytes _ hfalls (Nat.lt_succ_self _)
    refine ⟨⟨_, result, (headerLoop_eq ..).trans hrun⟩, fun fuel r hr => ?_⟩
    have hr' := Loop.visited_of_run _ hrun fuel r hr
    exact touched_iff.mpr fun h8 => (hfine r hr' h8).2

/-- The calls of `read_mp4_header` that return, read the data only and touch tables where they are:
those of which all boxes are safe. -/
theorem headersSafe_iff (create : List UInt8 → AlacInfo) (malloc : ℕ → Bool) (b : Buffer)
    (h : b.Wf) :
    (∀ l : Mp4 Alac, HeaderCallSafe (alacTouch create malloc) b l ↔
        HeaderCallFine (alacTouch create malloc) b l) ∧
      ∀ a : Mp4 Helix, HeaderCallSafe (helixTouch malloc) b a ↔ HeaderCallFine (helixTouch malloc) b a :=
  ⟨fun _ => callSafe_iff h, fun _ => callSafe_iff h⟩

end Safe

/-! ### Some boxes -/

section Example

/-- These bytes in a ring of so many. -/
def boxesIn (size : ℕ) (bytes : List UInt8) : Buffer :=
  bufIncWritep (bufStore (bufInit ⟨0, fun _ => 0⟩ size) bytes) bytes.length

theorem wf_boxesIn {size : ℕ} {bytes : List UInt8} (h : bytes.length < size) :
    (boxesIn size bytes).Wf := by
  have hwrite : (boxesIn size bytes).writep = bytes.length := by
    show (if 0 + bytes.length ≥ 0 + size then _ else 0 + bytes.length) = _
    rw [if_neg (by omega), Nat.zero_add]
  refine ⟨Nat.le_refl _, ?_, Nat.zero_le _, ?_, rfl, Nat.le_refl _, Nat.le_refl _⟩
  · show 0 < 0 + size
    omega
  · rw [hwrite]
    show bytes.length < 0 + size
    omega

/-- A box: its length, its name, and what is in it. -/
def boxBytes (len : UInt8) (name : List Char) (bytes : List UInt8) : List UInt8 :=
  [0, 0, 0, len] ++ ascii name ++ bytes

/-- stsc with two runs, of which the second begins at this chunk, and stco with one chunk. -/
def tableBoxes (first : UInt8) : List UInt8 :=
  boxBytes 40 ['s', 't', 's', 'c'] ([0, 0, 0, 0, 0, 0, 0, 2, 0, 0, 0, 1, 0, 0, 0, 5, 0, 0, 0, 1] ++
    [0, 0, 0, first, 0, 0, 0, 5, 0, 0, 0, 1]) ++
  boxBytes 20 ['s', 't', 'c', 'o'] [0, 0, 0, 0, 0, 0, 0, 1, 0, 0, 1, 0] ++ [0, 0]

/-- Boxes that are in order. -/
theorem headersSafe_table :
    HeaderCallSafe (alacTouch (fun _ => ⟨16, 44100, 2, 4096⟩) fun _ => true)
      (boxesIn 100 (tableBoxes 2)) alacOpen :=
  ((headersSafe_iff (fun _ => ⟨16, 44100, 2, 4096⟩) (fun _ => true) (boxesIn 100 (tableBoxes 2))
    (wf_boxesIn (by decide))).1 alacOpen).mpr (by decide)

/-- A box without a length is passed for ever, stts with 256 entries is read behind the data, and a
second run that begins at chunk 100 of one is written behind `chunkinfo`. -/
theorem headers_unsafe_boxes :
    ¬ HeaderCallSafe (alacTouch (fun _ => ⟨16, 44100, 2, 4096⟩) fun _ => true)
        (boxesIn 100 (boxBytes 0 ['f', 'r', 'e', 'e'] [])) alacOpen ∧
      ¬ HeaderCallSafe (helixTouch fun _ => true)
        (boxesIn 100 (boxBytes 16 ['s', 't', 't', 's'] [0, 0, 0, 0, 0, 0, 1, 0] ++ [0]))
        (Mp4.zero ⟨0, 0, 0, 0⟩) ∧
      ¬ HeaderCallSafe (alacTouch (fun _ => ⟨16, 44100, 2, 4096⟩) fun _ => true)
        (boxesIn 100 (tableBoxes 100)) alacOpen := by
  refine ⟨fun h => ?_, fun h => ?_, fun h => ?_⟩
  · exact absurd ((callSafe_iff (wf_boxesIn (by decide))).mp h) (by decide)
  · exact absurd ((callSafe_iff (wf_boxesIn (by decide))).mp h) (by decide)
  · exact absurd ((callSafe_iff (wf_boxesIn (by decide))).mp h) (by decide)

end Example

end SqueezeliteMuse
