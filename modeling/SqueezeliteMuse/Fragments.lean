/-
SqueezeliteMuse/Fragments.lean

The buffers of displayer.c, under the packets that fill them.

A scroll and an artwork come in fragments, each with its offset.  `grfs_handler` compares the size
of a fragment with what is left behind the last scroll (`scroll.size` stays what it was when a new
scroll starts), and not its offset; `grfg_handler` and `grfe_handler` copy what the packet has;
and `grfa_handler` copies to any offset of a block that may be too short, or freed.  So there is a
condition on each packet (`Fits`), which says when it does no harm.

For each handler there is a list of the bytes that it touches, of the display the columns.  What
`GDS_DrawJPEG` reads of a picture is up to the decoder, and taken to be all of it.

Main result: `pictures_kept`: as long as the packets fit, all that is touched is inside its buffer,
and fragments that come one after the other from offset 0 on are stored as they came, the artwork
being drawn when it is complete.
-/
import Mathlib.Algebra.Order.Ring.Int
import Mathlib.Data.List.GetD
import SqueezeliteMuse.Lib.Runs
import SqueezeliteMuse.Leftovers

namespace SqueezeliteMuse

namespace Fragments

open Octets Runs

/-! ### What the handlers touch -/

inductive Buffer
  /-- `scroller.scroll.frame` -/
  | scroll
  /-- `scroller.back.frame` -/
  | back
  /-- `scroller.frame` -/
  | frame
  /-- `visu.back.frame` -/
  | visuBack
  /-- the columns of the display -/
  | display
  /-- `artwork.data` -/
  | artwork
  deriving DecidableEq

/-- Some bytes of a buffer, read or written. -/
structure Touch where
  buffer : Buffer
  start : ℤ
  count : ℕ

/-- `displayer.width * displayer.height / 8` -/
def screenBytes (p : Player) : ℕ := p.screen.width * p.screen.height / 8

/-- How long a buffer is. -/
def room (p : Player) (allocated : ℕ) : Buffer → ℕ
  | .scroll => p.scroller.scrollMax
  | .back => screenBytes p
  | .frame => screenBytes p
  | .visuBack => screenBytes p
  | .display => p.screen.width
  | .artwork => allocated

/-- The columns of a bitmap. -/
def drawn (p : Player) (width : ℤ) : ℕ :=
  (if width = 0 then (p.screen.width : ℤ) else width).toNat

/-- What `grfe_handler` touches. -/
def grfeTouches (p : Player) (data : ℕ → UInt8) (len : ℕ) : List Touch :=
  if p.taken = true ∨ p.owned = false then []
  else
    let width := int32 (p.columns len)
    (if p.visu.mode &&& VISU_ESP32 = 0 then
      [⟨.visuBack, 0, screenBytes p⟩, ⟨.visuBack, 0, u32 ((width * p.screen.height).tdiv 8)⟩,
        ⟨.visuBack, 0, 1⟩] ++
        if (p.visuBack data width).backFrame 0 = 0 then
          [⟨.visuBack, 0, u32 (width - 1)⟩, ⟨.visuBack, 1, u32 (width - 1)⟩]
        else []
    else []) ++ [⟨.display, 0, drawn p width⟩]

/-- `grfs_handler` copies the fragment. -/
def Accepted (p : Player) (data : ℕ → UInt8) (len : ℕ) : Prop :=
  u32 (p.scroller.scrollSize + u32 (len - 22)) < p.scroller.scrollMax ∧
    (be data 20 2 = 0 ∨ p.scroller.overflow = false)

instance (p : Player) (data : ℕ → UInt8) (len : ℕ) : Decidable (Accepted p data len) :=
  inferInstanceAs (Decidable (_ ∧ _))

/-- What `grfs_handler` touches. -/
def grfsTouches (p : Player) (data : ℕ → UInt8) (len : ℕ) : List Touch :=
  if Accepted p data len then [⟨.scroll, be data 20 2, u32 (len - 22)⟩] else []

/-- What `grfg_handler` touches. -/
def grfgTouches (p : Player) (data : ℕ → UInt8) (len : ℕ) : List Touch :=
  if p.taken then []
  else
    let height : ℤ := p.screen.height
    let back := u32 (p.columns len * height) / 8
    let scrollable := u32 (be data 6 2 * height) / 8
    [⟨.back, 0, u32 (len - 8)⟩, ⟨.back, 0, back⟩, ⟨.frame, 0, back⟩,
      ⟨.scroll, (p.scroller.scrolled * height).tdiv 8, scrollable⟩, ⟨.frame, 0, scrollable⟩] ++
      if p.owned then
        [⟨.frame, 0, p.bitmapSize (int32 (p.columns len))⟩,
          ⟨.display, 0, drawn p (int32 (p.columns len))⟩]
      else []

/-- What `grfa_handler` touches. -/
def grfaTouches (p : Player) (data : ℕ → UInt8) (len : ℕ) : List Touch :=
  let offset := int32 (be data 12 4)
  let length := int32 (be data 4 4)
  if length < 32 then []
  else
    ⟨.artwork, offset, u32 (len - 16)⟩ ::
      if ((p.grfaHandler data len).1.artwork.size : ℤ) = length then
        [⟨.artwork, 0, length.toNat⟩]
      else []

/-! ### Runs -/

inductive Kind
  | grfe | grfs | grfg | grfa
  deriving DecidableEq

/-- A packet, and whether there is memory for an artwork then. -/
structure Packet where
  kind : Kind
  data : ℕ → UInt8
  len : ℕ
  memory : Bool

/-- The player, the bytes that are allocated at `artwork.data` (0 for a NULL), and what came of
the last scroll and of the last artwork, if its fragments came one after the other. -/
structure Session where
  player : Player
  allocated : ℕ
  scroll : Option (List UInt8)
  art : Option (List UInt8)

inductive Obs
  /-- some bytes of a buffer of so many -/
  | touch (size : ℕ) (t : Touch)
  /-- a fragment of an artwork: what came of it by then, how long it is to be, and the picture
  that is drawn -/
  | artwork (sent : Option (List UInt8)) (length : ℤ) (picture : Option (List UInt8))

/-- One fragment more. -/
def grown (sent : Option (List UInt8)) (offset : ℤ) (bs : List UInt8) : Option (List UInt8) :=
  if offset = 0 then some bs
  else sent.bind fun xs => if offset = xs.length then some (xs ++ bs) else none

/-- The picture that is drawn. -/
def pictureOf (calls : List Call) : Option (List UInt8) :=
  calls.findSome? fun c =>
    match c with
    | .drawJPEG data _ _ _ => some data
    | _ => none

/-- What has come of the scroll with this fragment. -/
def scrollSent (s : Session) (data : ℕ → UInt8) (len : ℕ) : Option (List UInt8) :=
  if 22 ≤ len then grown s.scroll (be data 20 2) (bytesAt data 22 (len - 22)) else none

/-- What has come of the artwork with this fragment. -/
def artSent (s : Session) (data : ℕ → UInt8) (len : ℕ) : Option (List UInt8) :=
  if 16 ≤ len then grown s.art (int32 (be data 12 4)) (bytesAt data 16 (len - 16)) else none

/-- The block at `artwork.data` that a fragment is copied to. -/
def artBlock (s : Session) (data : ℕ → UInt8) (memory : Bool) : ℕ :=
  if int32 (be data 12 4) = 0 then if memory then (int32 (be data 4 4)).toNat else 0
  else s.allocated

def seen (p : Player) (allocated : ℕ) (ts : List Touch) : List Obs :=
  ts.map fun t => .touch (room p allocated t.buffer) t

/-- `grfa_handler`, with the block it allocates and frees. -/
def artStep (s : Session) (data : ℕ → UInt8) (len : ℕ) (memory : Bool) : Session × List Obs :=
  let p := s.player
  let length := int32 (be data 4 4)
  let effect := p.grfaHandler data len
  if length < 32 then ({ s with player := effect.1 }, [])
  else
    let block := artBlock s data memory
    let sent := artSent s data len
    let picture := pictureOf effect.2
    ({ s with
        player := effect.1
        allocated := if picture.isSome then 0 else block
        art := if picture.isSome then none else sent },
      seen p block (grfaTouches p data len) ++ [.artwork sent length picture])

def machine : Machine Session Packet Obs where
  step s e :=
    let p := s.player
    match e.kind with
    | .grfe =>
        ({ s with player := (p.grfeHandler e.data e.len).1 },
          seen p s.allocated (grfeTouches p e.data e.len))
    | .grfs =>
        ({ s with
            player := (p.grfsHandler e.data e.len).1
            scroll := scrollSent s e.data e.len },
          seen p s.allocated (grfsTouches p e.data e.len))
    | .grfg =>
        ({ s with player := (p.grfgHandler e.data e.len).1 },
          seen p s.allocated (grfgTouches p e.data e.len))
    | .grfa => artStep s e.data e.len e.memory

/-! ### What is required -/

/-- Some bytes that are inside a buffer, if there are any. -/
def Inside (size : ℕ) (t : Touch) : Prop := t.count = 0 ∨ 0 ≤ t.start ∧ t.start + t.count ≤ size

/-- What is touched is inside its buffer, and an artwork is drawn as it came, when all of it has
come and not before. -/
def Good : Obs → Prop
  | .touch size t => Inside size t
  | .artwork sent length picture =>
      ∀ xs, sent = some xs → picture = if (xs.length : ℤ) = length then some xs else none

/-- Some bytes from the start of a buffer on. -/
def Stored (f : Ram) (xs : List UInt8) : Prop := ∀ i (h : i < xs.length), f (i : ℤ) = xs[i]

/-- The scroll and the artwork are stored as they came, and their sizes are theirs. -/
structure Pictures (s : Session) : Prop where
  scroll : ∀ xs, s.scroll = some xs →
    Stored s.player.scroller.scrollFrame xs ∧ s.player.scroller.scrollSize = xs.length
  art : ∀ xs, s.art = some xs →
    Stored s.player.artwork.data xs ∧ s.player.artwork.size = xs.length

/-! ### When it is so -/

/-- A frame is not wider than the display; and where it becomes the background of a visualizer, it
has one column at least. -/
def GrfeFits (p : Player) (len : ℕ) : Prop :=
  p.taken = true ∨ p.owned = false ∨
    8 ≤ len ∧ p.columns len ≤ p.screen.width ∧
      (p.visu.mode &&& VISU_ESP32 = 0 → 1 ≤ p.columns len ∧ p.columns len ≤ screenBytes p)

/-- A fragment of a scroll that is copied is inside its buffer; and one that is the first, or comes
right after the last, is copied: it is shorter than what is left behind the last scroll. -/
def GrfsFits (s : Session) (data : ℕ → UInt8) (len : ℕ) : Prop :=
  (Accepted s.player data len →
      22 ≤ len ∧ be data 20 2 + (len - 22) ≤ s.player.scroller.scrollMax) ∧
    (scrollSent s data len ≠ none → Accepted s.player data len)

/-- A background is not larger than the display, nor is its part that is scrolled, and there are as
many columns of the scroll. -/
def GrfgFits (p : Player) (data : ℕ → UInt8) (len : ℕ) : Prop :=
  p.taken = true ∨
    8 ≤ len ∧ len - 8 ≤ screenBytes p ∧
      be data 6 2 * p.screen.height / 8 ≤ screenBytes p ∧
      (be data 6 2 * p.screen.height / 8 = 0 ∨
        0 ≤ (p.scroller.scrolled * p.screen.height).tdiv 8 ∧
          (p.scroller.scrolled * p.screen.height).tdiv 8 +
            (be data 6 2 * p.screen.height / 8 : ℕ) ≤ p.scroller.scrollMax)

/-- A fragment of an artwork is inside the block that is there, and one that completes it is as
long as the block at most. -/
def GrfaFits (s : Session) (data : ℕ → UInt8) (len : ℕ) (memory : Bool) : Prop :=
  int32 (be data 4 4) < 32 ∨
    16 ≤ len ∧
      (len = 16 ∨ 0 ≤ int32 (be data 12 4) ∧
        int32 (be data 12 4) + (len - 16 : ℕ) ≤ artBlock s data memory) ∧
      (((s.player.grfaHandler data len).1.artwork.size : ℤ) = int32 (be data 4 4) →
        int32 (be data 4 4) ≤ artBlock s data memory)

/-- The packets that do no harm. -/
def Fits (s : Session) (e : Packet) : Prop :=
  match e.kind with
  | .grfe => GrfeFits s.player e.len
  | .grfs => GrfsFits s e.data e.len
  | .grfg => GrfgFits s.player e.data e.len
  | .grfa => GrfaFits s e.data e.len e.memory

instance (p : Player) (len : ℕ) : Decidable (GrfeFits p len) :=
  inferInstanceAs (Decidable (_ ∨ _ ∨ _ ∧ _ ∧ (_ → _ ∧ _)))

instance (s : Session) (data : ℕ → UInt8) (len : ℕ) : Decidable (GrfsFits s data len) :=
  inferInstanceAs (Decidable ((_ → _ ∧ _) ∧ (_ → _)))

instance (p : Player) (data : ℕ → UInt8) (len : ℕ) : Decidable (GrfgFits p data len) :=
  inferInstanceAs (Decidable (_ ∨ _ ∧ _ ∧ _ ∧ (_ ∨ _ ∧ _)))

instance (s : Session) (data : ℕ → UInt8) (len : ℕ) (memory : Bool) :
    Decidable (GrfaFits s data len memory) :=
  inferInstanceAs (Decidable (_ ∨ _ ∧ (_ ∨ _ ∧ _) ∧ (_ → _)))

instance : ∀ (s : Session) (e : Packet), Decidable (Fits s e)
  | s, ⟨.grfe, _, len, _⟩ => inferInstanceAs (Decidable (GrfeFits s.player len))
  | s, ⟨.grfs, data, len, _⟩ => inferInstanceAs (Decidable (GrfsFits s data len))
  | s, ⟨.grfg, data, len, _⟩ => inferInstanceAs (Decidable (GrfgFits s.player data len))
  | s, ⟨.grfa, data, len, memory⟩ => inferInstanceAs (Decidable (GrfaFits s data len memory))

/-- What `sb_displayer_init` makes of a display whose width has 16 bits. -/
structure Made (p : Player) : Prop where
  width : p.screen.width < 2 ^ 16
  scrollMax : p.scroller.scrollMax = screenBytes p * (15 + 1)

/-- Nothing has come yet. -/
def session (p : Player) : Session := ⟨p, 0, none, none⟩

/-! ### Stored pictures -/

section Stores

variable {f : Ram} {xs bs ys : List UInt8} {sent : Option (List UInt8)} {offset : ℤ}

theorem stored_nil (f : Ram) : Stored f [] := fun _ h => absurd h (Nat.not_lt_zero _)

/-- A fragment that is copied right behind the others. -/
theorem Stored.copy (h : Stored f xs) (bs : List UInt8) :
    Stored (f.copy xs.length bs) (xs ++ bs) := by
  intro i hi
  rw [Ram.copy]
  by_cases hlt : i < xs.length
  · rw [if_neg (by omega), h i hlt, List.getElem_append_left hlt]
  · have hin : i - xs.length < bs.length := by
      rw [List.length_append] at hi
      omega
    have hpos : ((i : ℤ) - (xs.length : ℤ)).toNat = i - xs.length := by omega
    rw [if_pos (by omega), hpos, List.getD_eq_getElem _ _ hin,
      List.getElem_append_right (by omega)]

theorem Stored.map_range (h : Stored f xs) : ((List.range xs.length).map fun i => f i) = xs := by
  simp only [List.pure_def, List.bind_eq_flatMap, List.map_flatMap, List.map_cons, List.map_nil]
  rw [← List.map_eq_flatMap]
  apply List.ext_getElem
  · rw [List.length_map, List.length_range]
  · intro i hi _
    rw [List.length_map, List.length_range] at hi
    rw [List.getElem_map, List.getElem_range, h i hi]

/-- What has come with a fragment: it is the first one, or right behind the others. -/
theorem grown_cases (h : grown sent offset bs = some ys) :
    ∃ xs : List UInt8, (offset = 0 ∧ xs = [] ∨ offset ≠ 0 ∧ sent = some xs) ∧
      offset = xs.length ∧ ys = xs ++ bs := by
  unfold grown at h
  split at h
  case isTrue h0 => exact ⟨[], .inl ⟨h0, rfl⟩, h0, (Option.some.inj h).symm⟩
  case isFalse h0 =>
    obtain ⟨xs, hsent, hxs⟩ := Option.bind_eq_some_iff.mp h
    split at hxs
    case isTrue hoff => exact ⟨xs, .inr ⟨h0, hsent⟩, hoff, (Option.some.inj hxs).symm⟩
    case isFalse => exact absurd hxs.symm (Option.some_ne_none _)

theorem length_bytesAt (data : ℕ → UInt8) (off n : ℕ) : (bytesAt data off n).length = n := by
  rw [bytesAt, List.length_map, List.length_range]

end Stores

/-! ### Touches -/

section Touches

variable {p : Player} {data : ℕ → UInt8} {len : ℕ} {size : ℕ}

theorem u32_sub {n : ℕ} (h : n ≤ len) (hlt : len - n < 2 ^ 32) : u32 (len - n) = len - n := by
  rw [u32]
  omega

theorem u32_natCast {n : ℕ} (h : n < 2 ^ 32) : u32 n = n := by
  rw [u32]
  omega

theorem inside_zero {b : Buffer} {n : ℕ} (h : n ≤ size) : Inside size ⟨b, 0, n⟩ :=
  .inr ⟨le_rfl, by simpa using h⟩

/-- A screen of a display whose width has 16 bits. -/
theorem screenBytes_lt (hp : Made p) : screenBytes p < 2 ^ 18 := by
  have hheight : p.screen.height ≤ 32 := by
    rw [p.screen.height_eq]
    exact min_le_right _ _
  have hmul : p.screen.width * p.screen.height ≤ (2 ^ 16 - 1) * 32 :=
    Nat.mul_le_mul (by have := hp.width; omega) hheight
  rw [screenBytes]
  omega

theorem mul_height_lt {n : ℕ} (hn : n < 2 ^ 16) : n * p.screen.height < 2 ^ 22 := by
  have hheight : p.screen.height ≤ 32 := by
    rw [p.screen.height_eq]
    exact min_le_right _ _
  have hmul : n * p.screen.height ≤ (2 ^ 16 - 1) * 32 := Nat.mul_le_mul (by omega) hheight
  omega

/-- All that is touched is inside its buffer. -/
def AllInside (p : Player) (allocated : ℕ) (ts : List Touch) : Prop :=
  ∀ t ∈ ts, Inside (room p allocated t.buffer) t

theorem good_seen {allocated : ℕ} {ts : List Touch} (h : AllInside p allocated ts) :
    ∀ o ∈ seen p allocated ts, Good o := by
  intro o ho
  obtain ⟨t, ht, rfl⟩ := List.mem_map.mp ho
  exact h t ht

theorem allInside_append {allocated : ℕ} {ts ts' : List Touch} (h : AllInside p allocated ts)
    (h' : AllInside p allocated ts') : AllInside p allocated (ts ++ ts') := by
  intro t ht
  rcases List.mem_append.mp ht with ht | ht
  · exact h t ht
  · exact h' t ht

theorem allInside_nil (p : Player) (allocated : ℕ) : AllInside p allocated [] :=
  fun _ h => absurd h List.not_mem_nil

theorem allInside_cons {allocated : ℕ} {t : Touch} {ts : List Touch}
    (h : Inside (room p allocated t.buffer) t) (h' : AllInside p allocated ts) :
    AllInside p allocated (t :: ts) := by
  intro t' ht
  rcases List.mem_cons.mp ht with rfl | ht
  · exact h
  · exact h' t' ht

theorem inside_grfe (hp : Made p) (h : GrfeFits p len) (allocated : ℕ) :
    AllInside p allocated (grfeTouches p data len) := by
  rw [grfeTouches]
  split
  case isTrue => exact allInside_nil _ _
  case isFalse hnot =>
    obtain ⟨htaken, howned⟩ := not_or.mp hnot
    obtain ⟨hlen, hcols, hback⟩ := (h.resolve_left htaken).resolve_left howned
    have hwidth := hp.width
    have hint : int32 (p.columns len) = p.columns len := by
      rw [int32, if_pos (by omega)]
    dsimp only
    rw [hint]
    apply allInside_append
    · split
      case isTrue hmode =>
        obtain ⟨hone, hfull⟩ := hback hmode
        have hsmall := screenBytes_lt hp
        have hcopy : u32 (((p.columns len : ℤ) * p.screen.height).tdiv 8) ≤ screenBytes p := by
          have hmul : p.columns len * p.screen.height ≤ p.screen.width * p.screen.height :=
            Nat.mul_le_mul_right _ hcols
          have hlt := mul_height_lt (p := p) (n := p.columns len) (by omega)
          rw [← Nat.cast_mul, Int.tdiv_eq_ediv_of_nonneg (Int.natCast_nonneg _), screenBytes]
          rw [u32]
          omega
        have hcompare : u32 ((p.columns len : ℤ) - 1) = p.columns len - 1 := by
          rw [u32]
          omega
        rw [hcompare]
        apply allInside_append
        · exact allInside_cons (inside_zero le_rfl) (allInside_cons (inside_zero hcopy)
            (allInside_cons (inside_zero (by show 1 ≤ screenBytes p; omega))
              (allInside_nil _ _)))
        · split
          · refine allInside_cons (inside_zero ?_) (allInside_cons (.inr ⟨Int.one_nonneg, ?_⟩)
              (allInside_nil _ _))
            · show p.columns len - 1 ≤ screenBytes p
              omega
            · show (1 : ℤ) + (p.columns len - 1 : ℕ) ≤ (screenBytes p : ℕ)
              omega
          · exact allInside_nil _ _
      case isFalse => exact allInside_nil _ _
    · refine allInside_cons (inside_zero ?_) (allInside_nil _ _)
      show drawn p (p.columns len) ≤ p.screen.width
      rw [drawn]
      split <;> omega

theorem inside_grfs {s : Session} (h : GrfsFits s data len) (hp : Made s.player)
    (allocated : ℕ) : AllInside s.player allocated (grfsTouches s.player data len) := by
  rw [grfsTouches]
  split
  case isTrue hacc =>
    obtain ⟨hlen, hin⟩ := h.1 hacc
    have hsmall := screenBytes_lt hp
    have hmax := hp.scrollMax
    have hsize : u32 ((len : ℤ) - 22) = len - 22 := u32_sub hlen (by omega)
    refine allInside_cons (.inr ⟨Int.natCast_nonneg _, ?_⟩) (allInside_nil _ _)
    show ((be data 20 2 : ℕ) : ℤ) + (u32 ((len : ℤ) - 22) : ℕ) ≤ (s.player.scroller.scrollMax : ℕ)
    rw [hsize]
    omega
  case isFalse => exact allInside_nil _ _

theorem inside_grfg (hp : Made p) (h : GrfgFits p data len) (allocated : ℕ) :
    AllInside p allocated (grfgTouches p data len) := by
  rw [grfgTouches]
  split
  case isTrue => exact allInside_nil _ _
  case isFalse htaken =>
    obtain ⟨hlen, hfull, hscroll, hread⟩ := h.resolve_left htaken
    have hsmall := screenBytes_lt hp
    have hpos := p.screen.height_pos
    have hsize : u32 ((len : ℤ) - 8) = len - 8 := u32_sub hlen (by omega)
    have hbits : u32 (((len - 8 : ℕ) : ℤ) * 8) = (len - 8) * 8 := by
      rw [u32]
      omega
    have hcols : p.columns len = (len - 8) * 8 / p.screen.height := by
      rw [Player.columns, hsize, hbits]
    have hcopied : p.columns len * p.screen.height ≤ (len - 8) * 8 := by
      rw [hcols]
      exact Nat.div_mul_le_self _ _
    have hwidth : p.columns len ≤ p.screen.width := by
      rw [hcols]
      apply Nat.div_le_of_le_mul
      rw [Nat.mul_comm p.screen.height]
      have hbytes : screenBytes p * 8 ≤ p.screen.width * p.screen.height :=
        Nat.div_mul_le_self _ _
      omega
    have hint : int32 (p.columns len) = p.columns len := by
      have hw := hp.width
      rw [int32, if_pos (by omega)]
    have hback : u32 ((p.columns len : ℤ) * p.screen.height) / 8 ≤ screenBytes p := by
      have hlt : p.columns len * p.screen.height < 2 ^ 32 := by omega
      rw [← Nat.cast_mul, u32_natCast hlt]
      exact Nat.div_le_of_le_mul (by omega)
    have hmul := mul_height_lt (p := p) (be_lt data 6 2)
    have hpart : u32 (((be data 6 2 : ℕ) : ℤ) * p.screen.height) / 8 =
        be data 6 2 * p.screen.height / 8 := by
      rw [← Nat.cast_mul, u32_natCast (by omega)]
    dsimp only
    rw [hsize, hpart, hint]
    apply allInside_append
    · refine allInside_cons (inside_zero hfull) (allInside_cons (inside_zero hback)
        (allInside_cons (inside_zero hback) (allInside_cons hread
          (allInside_cons (inside_zero hscroll) (allInside_nil _ _)))))
    · split
      case isTrue =>
        refine allInside_cons (inside_zero ?_) (allInside_cons (inside_zero ?_)
          (allInside_nil _ _))
        · have hle : drawn p (p.columns len) ≤ p.screen.width := by
            rw [drawn]
            split <;> omega
          calc p.bitmapSize (p.columns len)
              = drawn p (p.columns len) * (p.screen.height / 8) := rfl
            _ ≤ p.screen.width * (p.screen.height / 8) := Nat.mul_le_mul_right _ hle
            _ ≤ screenBytes p := Nat.mul_div_le_mul_div_assoc _ _ _
        · show drawn p (p.columns len) ≤ p.screen.width
          rw [drawn]
          split <;> omega
      case isFalse => exact allInside_nil _ _

theorem int32_lt (n : ℕ) (h : n < 2 ^ 32) : int32 n < 2 ^ 31 := by
  rw [int32]
  split <;> omega

theorem inside_grfa {s : Session} {memory : Bool} (h : GrfaFits s data len memory)
    (hblock : artBlock s data memory < 2 ^ 31) :
    AllInside s.player (artBlock s data memory) (grfaTouches s.player data len) := by
  rw [grfaTouches]
  split
  case isTrue => exact allInside_nil _ _
  case isFalse hlength =>
    obtain ⟨hlen, hcopy, hdrawn⟩ := h.resolve_left hlength
    refine allInside_cons ?_ ?_
    · rcases hcopy with rfl | ⟨hpos, hin⟩
      · exact .inl rfl
      · have hsize : u32 ((len : ℤ) - 16) = len - 16 := u32_sub hlen (by omega)
        rw [hsize]
        exact .inr ⟨hpos, hin⟩
    · split
      case isTrue hall =>
        refine allInside_cons (inside_zero ?_) (allInside_nil _ _)
        have hle := hdrawn hall
        show (int32 (be data 4 4)).toNat ≤ artBlock s data memory
        omega
      case isFalse => exact allInside_nil _ _

end Touches

/-! ### Steps -/

section Steps

variable {s : Session} {data : ℕ → UInt8} {len : ℕ} {memory : Bool}

/-- What the packets keep. -/
structure Inv (s : Session) : Prop where
  made : Made s.player
  scroll : ∀ xs, s.scroll = some xs →
    Stored s.player.scroller.scrollFrame xs ∧ s.player.scroller.scrollSize = xs.length ∧
      s.player.scroller.overflow = false
  art : ∀ xs, s.art = some xs →
    Stored s.player.artwork.data xs ∧ s.player.artwork.size = xs.length ∧ xs.length ≤ s.allocated
  allocated : s.allocated < 2 ^ 31

theorem Inv.pictures (h : Inv s) : Pictures s :=
  ⟨fun xs hxs => ⟨(h.scroll xs hxs).1, (h.scroll xs hxs).2.1⟩,
    fun xs hxs => ⟨(h.art xs hxs).1, (h.art xs hxs).2.1⟩⟩

/-- The part of the player that the invariant is about. -/
def stores (p : Player) : Screen × ℕ × Ram × ℕ × Bool × Ram × ℕ :=
  (p.screen, p.scroller.scrollMax, p.scroller.scrollFrame, p.scroller.scrollSize,
    p.scroller.overflow, p.artwork.data, p.artwork.size)

/-- A packet that leaves this part as it is. -/
theorem Inv.of_stores (h : Inv s) {p : Player} (hp : stores p = stores s.player) :
    Inv { s with player := p } := by
  simp only [stores, Prod.mk.injEq] at hp
  obtain ⟨hscreen, hmax, hframe, hsize, hoverflow, hdata, hart⟩ := hp
  refine ⟨⟨?_, ?_⟩, ?_, ?_, h.allocated⟩
  · show p.screen.width < 2 ^ 16
    rw [hscreen]
    exact h.made.width
  · show p.scroller.scrollMax = p.screen.width * p.screen.height / 8 * (15 + 1)
    rw [hmax, hscreen]
    exact h.made.scrollMax
  · show ∀ xs, s.scroll = some xs → Stored p.scroller.scrollFrame xs ∧ _
    rw [hframe, hsize, hoverflow]
    exact h.scroll
  · show ∀ xs, s.art = some xs → Stored p.artwork.data xs ∧ _
    rw [hdata, hart]
    exact h.art

theorem stores_grfe (p : Player) (data : ℕ → UInt8) (len : ℕ) :
    stores (p.grfeHandler data len).1 = stores p := by
  rw [Player.grfeHandler]
  split
  · rfl
  · split <;> rfl

theorem stores_grfg (p : Player) (data : ℕ → UInt8) (len : ℕ) :
    stores (p.grfgHandler data len).1 = stores p := by
  rw [Player.grfgHandler]
  split <;> rfl

/-- The scroller when a fragment is looked at. -/
def atFragment (p : Player) (data : ℕ → UInt8) : Scroller :=
  if be data 20 2 = 0 then p.scrollSet data else p.scroller

theorem atFragment_kept (p : Player) (data : ℕ → UInt8) :
    (atFragment p data).scrollMax = p.scroller.scrollMax ∧
      (atFragment p data).scrollFrame = p.scroller.scrollFrame ∧
      (atFragment p data).scrollSize = p.scroller.scrollSize := by
  unfold atFragment
  split <;> exact ⟨rfl, rfl, rfl⟩

theorem atFragment_overflow (p : Player) (data : ℕ → UInt8) :
    (atFragment p data).overflow = false ↔ be data 20 2 = 0 ∨ p.scroller.overflow = false := by
  unfold atFragment
  split
  case isTrue h0 => exact iff_of_true rfl (.inl h0)
  case isFalse h0 => exact (or_iff_right h0).symm

theorem accepted_iff (p : Player) :
    Accepted p data len ↔
      u32 ((atFragment p data).scrollSize + u32 (len - 22)) < (atFragment p data).scrollMax ∧
        (atFragment p data).overflow = false := by
  obtain ⟨hmax, -, hsize⟩ := atFragment_kept p data
  rw [atFragment_overflow, hmax, hsize]
  rfl

/-- A fragment of a scroll that is copied. -/
theorem grfs_accepted {p : Player} (hacc : Accepted p data len) :
    (p.grfsHandler data len).1 = { p with scroller := { atFragment p data with
      scrollFrame :=
        (atFragment p data).scrollFrame.copy (be data 20 2) (bytesAt data 22 (u32 (len - 22)))
      scrollSize := u32 (be data 20 2 + u32 (len - 22)) } } := by
  have hnow := (accepted_iff p).mp hacc
  unfold atFragment at hnow
  rw [Player.grfsHandler]
  dsimp only
  rw [if_pos hnow]
  rfl

/-- One that is not. -/
theorem grfs_refused {p : Player} (hacc : ¬ Accepted p data len) :
    ∃ sc : Scroller, (p.grfsHandler data len).1 = { p with scroller := sc } ∧
      sc.scrollMax = p.scroller.scrollMax := by
  have hnow := mt (accepted_iff p).mpr hacc
  unfold atFragment at hnow
  rw [Player.grfsHandler]
  rw [if_neg hnow]
  split
  · exact ⟨atFragment p data, rfl, (atFragment_kept p data).1⟩
  · exact ⟨_, rfl, (atFragment_kept p data).1⟩

/-- A fragment of a scroll is copied, or there is no scroll that is complete. -/
theorem inv_grfs (h : Inv s) (hfits : GrfsFits s data len) :
    Inv { s with
      player := (s.player.grfsHandler data len).1
      scroll := scrollSent s data len } := by
  by_cases hacc : Accepted s.player data len
  · obtain ⟨hlen, hin⟩ := hfits.1 hacc
    obtain ⟨hmax, hframe, -⟩ := atFragment_kept s.player data
    have hover := ((accepted_iff s.player).mp hacc).2
    have hsmall := screenBytes_lt h.made
    have hscroll := h.made.scrollMax
    have hcount : u32 ((len : ℤ) - 22) = len - 22 := u32_sub hlen (by omega)
    rw [grfs_accepted hacc, hcount, hframe]
    refine ⟨⟨h.made.width, hmax.trans h.made.scrollMax⟩, fun ys hys => ?_, h.art, h.allocated⟩
    dsimp only at hys ⊢
    rw [scrollSent, if_pos hlen] at hys
    obtain ⟨xs, hxs, hoff, rfl⟩ := grown_cases hys
    have hstored : Stored s.player.scroller.scrollFrame xs := by
      rcases hxs with ⟨-, rfl⟩ | ⟨-, hsome⟩
      · exact stored_nil _
      · exact (h.scroll xs hsome).1
    have hoff' : be data 20 2 = xs.length := by omega
    refine ⟨?_, ?_, hover⟩
    · rw [hoff]
      exact hstored.copy _
    · rw [List.length_append, length_bytesAt, hoff', u32]
      omega
  · obtain ⟨sc, heq, hmax⟩ := grfs_refused hacc
    rw [heq]
    refine ⟨⟨h.made.width, hmax.trans h.made.scrollMax⟩, fun ys hys => ?_, h.art, h.allocated⟩
    dsimp only at hys
    refine absurd (hfits.2 ?_) hacc
    rw [hys]
    exact Option.some_ne_none ys

/-- What a fragment of an artwork is added to. -/
def atArtwork (p : Player) (data : ℕ → UInt8) : Artwork :=
  if int32 (be data 12 4) = 0 then p.artworkFirst data else p.artwork

theorem grfa_fragment (p : Player) (len : ℕ) (hlength : ¬ int32 (be data 4 4) < 32) :
    (p.grfaHandler data len).1 = { p with artwork := { atArtwork p data with
        enable := true
        data := (atArtwork p data).data.copy (int32 (be data 12 4))
          (bytesAt data 16 (u32 (len - 16)))
        size := u32 ((atArtwork p data).size + u32 (len - 16)) } } ∧
      pictureOf (p.grfaHandler data len).2 =
        if ((p.grfaHandler data len).1.artwork.size : ℤ) = int32 (be data 4 4) then
          some ((List.range (p.grfaHandler data len).1.artwork.size).map
            fun i => (p.grfaHandler data len).1.artwork.data i)
        else none := by
  have heq : (p.grfaHandler data len).1 = { p with artwork := { atArtwork p data with
      enable := true
      data := (atArtwork p data).data.copy (int32 (be data 12 4))
        (bytesAt data 16 (u32 (len - 16)))
      size := u32 ((atArtwork p data).size + u32 (len - 16)) } } := by
    rw [Player.grfaHandler]
    dsimp only
    rw [if_neg hlength]
    rfl
  refine ⟨heq, ?_⟩
  rw [heq]
  have hcalls : (p.grfaHandler data len).2 =
      (if int32 (be data 12 4) = 0 ∧ p.artwork.size ≠ 0 then
          [.clearWindow p.artwork.x p.artwork.y] else []) ++
        if ((u32 ((atArtwork p data).size + u32 (len - 16)) : ℕ) : ℤ) = int32 (be data 4 4) then
          [.clearWindow (atArtwork p data).x (atArtwork p data).y,
            .drawJPEG ((List.range (u32 ((atArtwork p data).size + u32 (len - 16)))).map fun i =>
              (atArtwork p data).data.copy (int32 (be data 12 4))
                (bytesAt data 16 (u32 (len - 16))) i)
              (atArtwork p data).x (atArtwork p data).y
              ((atArtwork p data).y < p.screen.height)]
        else [] := by
    rw [Player.grfaHandler]
    dsimp only
    rw [if_neg hlength]
    rfl
  have hclear : pictureOf (if int32 (be data 12 4) = 0 ∧ p.artwork.size ≠ 0 then
      [.clearWindow p.artwork.x p.artwork.y] else []) = none := by
    split <;> rfl
  rw [hcalls, pictureOf, List.findSome?_append]
  rw [pictureOf] at hclear
  rw [hclear, Option.none_or]
  dsimp only
  split <;> rfl

theorem stores_config (p : Player) (hlength : int32 (be data 4 4) < 32) :
    stores (p.grfaHandler data len).1 = stores p := by
  rw [Player.grfaHandler]
  dsimp only
  rw [if_pos hlength, Player.artworkConfig]
  dsimp only [stores]
  split <;> rfl

theorem artBlock_lt (h : Inv s) (data : ℕ → UInt8) (memory : Bool) :
    artBlock s data memory < 2 ^ 31 := by
  have hlength := int32_lt (be data 4 4) (be_lt data 4 4)
  have hallocated := h.allocated
  rw [artBlock]
  split
  · split <;> omega
  · exact hallocated

/-- What has come of an artwork is stored in its block. -/
theorem art_stored (h : Inv s) (hlength : ¬ int32 (be data 4 4) < 32)
    (hfits : GrfaFits s data len memory) {ys : List UInt8} (hys : artSent s data len = some ys) :
    Stored (s.player.grfaHandler data len).1.artwork.data ys ∧
      (s.player.grfaHandler data len).1.artwork.size = ys.length ∧
      ys.length ≤ artBlock s data memory := by
  obtain ⟨hlen, hcopy, -⟩ := hfits.resolve_left hlength
  have hblock := artBlock_lt h data memory
  rw [artSent, if_pos hlen] at hys
  obtain ⟨xs, hxs, hoff, rfl⟩ := grown_cases hys
  obtain ⟨hstored, hsize, hroom⟩ : Stored (atArtwork s.player data).data xs ∧
      (atArtwork s.player data).size = xs.length ∧ xs.length ≤ artBlock s data memory := by
    rcases hxs with ⟨h0, rfl⟩ | ⟨h0, hsome⟩
    · rw [atArtwork, if_pos h0]
      exact ⟨stored_nil _, rfl, Nat.zero_le _⟩
    · rw [atArtwork, if_neg h0, artBlock, if_neg h0]
      exact h.art xs hsome
  have hsum : xs.length + (len - 16) ≤ artBlock s data memory := by omega
  have hcount : u32 ((len : ℤ) - 16) = len - 16 := u32_sub hlen (by omega)
  rw [(grfa_fragment s.player len hlength).1, hcount, hoff, hsize]
  refine ⟨hstored.copy _, ?_, ?_⟩
  · rw [List.length_append, length_bytesAt]
    dsimp only
    rw [u32]
    omega
  · rw [List.length_append, length_bytesAt]
    exact hsum

/-- An artwork is stored fragment by fragment, and drawn when it is complete. -/
theorem step_grfa (h : Inv s) (hfits : GrfaFits s data len memory) :
    Inv (artStep s data len memory).1 ∧ ∀ o ∈ (artStep s data len memory).2, Good o := by
  by_cases hlength : int32 (be data 4 4) < 32
  · rw [artStep]
    dsimp only
    rw [if_pos hlength]
    exact ⟨h.of_stores (stores_config s.player hlength), fun o ho => absurd ho List.not_mem_nil⟩
  · obtain ⟨hplayer, hpicture⟩ := grfa_fragment s.player len hlength
    have hstored : ∀ ys, artSent s data len = some ys →
        Stored (s.player.grfaHandler data len).1.artwork.data ys ∧
          (s.player.grfaHandler data len).1.artwork.size = ys.length ∧
          ys.length ≤ artBlock s data memory := fun _ => art_stored h hlength hfits
    have hblock := artBlock_lt h data memory
    rw [artStep]
    dsimp only
    rw [if_neg hlength]
    constructor
    · refine ⟨?_, ?_, fun ys hys => ?_, ?_⟩
      · dsimp only
        rw [hplayer]
        exact ⟨h.made.width, h.made.scrollMax⟩
      · dsimp only
        rw [hplayer]
        exact h.scroll
      · dsimp only at hys ⊢
        split at hys
        case isTrue => exact absurd hys.symm (Option.some_ne_none _)
        case isFalse hnone =>
          rw [if_neg hnone]
          exact hstored ys hys
      · dsimp only
        split
        · decide
        · exact hblock
    · intro o ho
      rcases List.mem_append.mp ho with ho | ho
      · exact good_seen (inside_grfa hfits hblock) o ho
      · rw [List.mem_singleton.mp ho]
        intro ys hys
        obtain ⟨hdata, hsize, -⟩ := hstored ys hys
        rw [hpicture, hsize]
        rw [hdata.map_range]

end Steps

/-- A packet that does no harm. -/
theorem step_good {s : Session} {e : Packet} (h : Inv s) (hfits : Fits s e) :
    Inv (machine.step s e).1 ∧ ∀ o ∈ (machine.step s e).2, Good o := by
  obtain ⟨kind, data, len, memory⟩ := e
  cases kind with
  | grfe =>
      exact ⟨h.of_stores (stores_grfe s.player data len),
        good_seen (inside_grfe h.made hfits s.allocated)⟩
  | grfs => exact ⟨inv_grfs h hfits, good_seen (inside_grfs hfits h.made s.allocated)⟩
  | grfg =>
      exact ⟨h.of_stores (stores_grfg s.player data len),
        good_seen (inside_grfg h.made hfits s.allocated)⟩
  | grfa => exact step_grfa h hfits

theorem inv_session {p : Player} (hp : Made p) : Inv (session p) where
  made := hp
  scroll _ h := absurd h.symm (Option.some_ne_none _)
  art _ h := absurd h.symm (Option.some_ne_none _)
  allocated := by
    show 0 < 2 ^ 31
    decide

/-- As long as the packets fit, all that is touched is inside its buffer, and the scroll and the
artwork are stored as they came. -/
theorem pictures_kept (p : Player) (es : List Packet) (hp : Made p)
    (hfits : machine.Along Fits (session p) es) :
    (∀ o ∈ (machine.run (session p) es).2, Good o) ∧ Pictures (machine.run (session p) es).1 := by
  have hstep : ∀ s e, Inv s → Fits s e → Inv (machine.step s e).1 :=
    fun s e h hf => (step_good h hf).1
  have halong := machine.along_of_invariant (Q := fun s e => Inv s ∧ Fits s e) hstep
    (fun s e h hf => ⟨h, hf⟩) (inv_session hp) hfits
  exact ⟨machine.run_emits (fun s e h => (step_good h.1 h.2).2) halong,
    (machine.run_invariant hstep (inv_session hp) hfits).pictures⟩

/-- A player with a display of 8 by 8. -/
def tinyPlayer : Player :=
  { Slimproto.restingPlayer with
    screen := {
      width := 8
      height := 8
      gdsHeight := 8
      width_pos := by decide
      width_lt := by decide
      height_pos := by decide
      height_eq := rfl }
    scroller := { Slimproto.restingPlayer.scroller with scrollMax := 128 } }

/-- A fragment of a scroll of `n` bytes, at some offset. -/
def scrollPacket (offset : UInt8) (n : ℕ) : Packet :=
  ⟨.grfs, fun i => if i = 21 then offset else 0, 22 + n, true⟩

/-- A fragment of an artwork of 40 bytes. -/
def artPacket (offset : UInt8) (n : ℕ) : Packet :=
  ⟨.grfa, fun i => if i = 7 then 40 else if i = 15 then offset else 0, 16 + n, true⟩

/-- A background of 8 columns, all of which are scrolled. -/
def backPacket : Packet := ⟨.grfg, fun i => if i = 7 then 8 else 0, 16, true⟩

/-- A scroll in two fragments, its background, an artwork in two, and a scroll that is short. -/
def shortScroll : List Packet :=
  [scrollPacket 0 60, scrollPacket 60 50, backPacket, artPacket 0 32, artPacket 32 8,
    scrollPacket 0 10]

theorem short_scroll_kept :
    (∀ o ∈ (machine.run (session tinyPlayer) shortScroll).2, Good o) ∧
      Pictures (machine.run (session tinyPlayer) shortScroll).1 :=
  pictures_kept tinyPlayer shortScroll ⟨by decide, by decide⟩ (by decide)

/-- The second scroll is as long as the first, and is not stored. -/
theorem second_scroll_lost :
    ¬ ∀ (p : Player) (es : List Packet), Made p →
      (∀ o ∈ (machine.run (session p) es).2, Good o) ∧
        Pictures (machine.run (session p) es).1 := by
  intro h
  have hscroll := ((h tinyPlayer [scrollPacket 0 100, scrollPacket 0 50] ⟨by decide, by decide⟩).2
    |>.scroll (List.replicate 50 0) (by decide)).2
  revert hscroll
  decide

end Fragments

end SqueezeliteMuse
