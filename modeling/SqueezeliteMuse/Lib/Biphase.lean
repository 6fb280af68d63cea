/-
SqueezeliteMuse/Lib/Biphase.lean

Biphase-mark coding, and the IEC 60958 frames carried by it.

A line is a list of half-cells, read against the level the line had before
them.  A cell is two half-cells: it starts with a transition, and a second
transition in its middle says that the bit is a one.  `decode l hs` is the list
of bits when every cell of `hs` starts with a transition after the level `l`,
and `none` otherwise, so that `decode` being defined is the validity of the
line.

A subframe is a preamble (which breaks the cell rule on purpose), 24 cells of
audio and 4 cells of status.  A sender may cut its words anywhere; here they
are cut before the status cells, so the line is read in *groups* of 64
half-cells: the status that ends one subframe, then the preamble and the audio
cells of the next.

Main results: `Carries.append`, which joins two lines between two cells; `Carries.not`
(the code does not depend on polarity); `Carries.even_count` (a line that comes
back to its level after an even number of cells carried an even number of
ones).
-/
import Mathlib.Algebra.Order.Ring.Int
import Mathlib.Data.Bool.Count
import Mathlib.Tactic.Common

namespace Biphase

/-! ### Cells -/

/-- The bits of a line whose cells all start with a transition after level `l`. -/
def decode : Bool → List Bool → Option (List Bool)
  | _, [] => some []
  | _, [_] => none
  | l, a :: b :: hs => if a = !l then (decode b hs).map ((a != b) :: ·) else none

attribute [local simp] decode

/-- The level a line is left at. -/
def level (l : Bool) (hs : List Bool) : Bool := hs.getLast?.getD l

@[simp] theorem level_nil (l : Bool) : level l [] = l := rfl

@[simp] theorem level_cons (l a : Bool) (hs : List Bool) :
    level l (a :: hs) = level a hs := by
  cases hs with
  | nil => rfl
  | cons b hs => simp [level, List.getLast?_cons]

theorem level_append (l : Bool) (hs hs' : List Bool) :
    level l (hs ++ hs') = level (level l hs) hs' := by
  induction hs generalizing l with
  | nil => rfl
  | cons a hs ih => simp only [List.cons_append, level_cons, ih]

/-- A valid line is cut between two cells. -/
theorem decode_append {l : Bool} {hs hs' bs : List Bool} (h : decode l hs = some bs) :
    decode l (hs ++ hs') = (decode (level l hs) hs').map (bs ++ ·) := by
  induction l, hs using decode.induct generalizing bs with
  | case1 l =>
      obtain rfl : bs = [] := (Option.some.inj h).symm
      simp
  | case2 l a => simp [decode] at h
  | case3 l b hs ih =>
      simp only [decode, if_true] at h
      obtain ⟨bs', hbs', rfl⟩ := Option.map_eq_some_iff.mp h
      simp only [List.cons_append, decode, if_true, level_cons, ih hbs', Option.map_map]
      rfl
  | case4 l a b hs hne => simp [decode, hne] at h

/-- Exchanging the two levels everywhere changes no bit. -/
theorem decode_not (l : Bool) (hs : List Bool) :
    decode (!l) (hs.map (!·)) = decode l hs := by
  induction l, hs using decode.induct with
  | case1 l => rfl
  | case2 l a => rfl
  | case3 l b hs ih =>
      simp only [List.map_cons, decode, Bool.not_not, if_true, ih]
      congr 2
      funext bs
      cases l <;> cases b <;> rfl
  | case4 l a b hs hne =>
      have hne' : ¬ (!a) = !!l := by
        intro h
        exact hne (Bool.not_inj h)
      simp only [List.map_cons, decode, hne, hne', if_false]

theorem level_not (l : Bool) (hs : List Bool) : level (!l) (hs.map (!·)) = !level l hs := by
  induction hs generalizing l with
  | nil => rfl
  | cons a hs ih => simp only [List.map_cons, level_cons, ih]

/-- Each zero leaves the line at the other level, each one at the same. -/
theorem level_eq_of_decode {l : Bool} {hs bs : List Bool} (h : decode l hs = some bs) :
    level l hs = (l ^^ decide (bs.count false % 2 = 1)) := by
  induction l, hs using decode.induct generalizing bs with
  | case1 l =>
      obtain rfl : bs = [] := (Option.some.inj h).symm
      simp
  | case2 l a => simp [decode] at h
  | case3 l b hs ih =>
      simp only [decode, if_true] at h
      obtain ⟨bs', hbs', rfl⟩ := Option.map_eq_some_iff.mp h
      simp only [level_cons, ih hbs']
      -- the middle transition is there exactly when the bit is a one
      have hp : ∀ n : ℕ, decide ((n + 1) % 2 = 1) = !decide (n % 2 = 1) := by
        intro n
        by_cases hn : n % 2 = 1
        · have : (n + 1) % 2 = 0 := by omega
          simp [hn, this]
        · have : (n + 1) % 2 = 1 := by omega
          simp [hn, this]
      cases l <;> cases b <;> simp [hp]
  | case4 l a b hs hne => simp [decode, hne] at h

/-- The line `hs`, sent after the level `l`, carries `bs` and is left at `l'`. -/
structure Carries (l : Bool) (hs bs : List Bool) (l' : Bool) : Prop where
  decode : decode l hs = some bs
  level : level l hs = l'

/-- Lines that meet at one level make one line. -/
theorem Carries.append {l l' l'' : Bool} {hs hs' bs bs' : List Bool}
    (h : Carries l hs bs l') (h' : Carries l' hs' bs' l'') :
    Carries l (hs ++ hs') (bs ++ bs') l'' where
  decode := by rw [decode_append h.decode, h.level, h'.decode, Option.map_some]
  level := by rw [level_append, h.level, h'.level]

theorem Carries.not {l l' : Bool} {hs bs : List Bool} (h : Carries l hs bs l') :
    Carries (!l) (hs.map (!·)) bs (!l') where
  decode := by rw [decode_not, h.decode]
  level := by rw [level_not, h.level]

/-- A line of an even number of cells that comes back to its level carried an
even number of ones. -/
theorem Carries.even_count {l : Bool} {hs bs : List Bool} (h : Carries l hs bs l)
    (hlen : bs.length % 2 = 0) : bs.count true % 2 = 0 := by
  have hlev := level_eq_of_decode h.decode
  rw [h.level] at hlev
  have hzero : ¬ bs.count false % 2 = 1 := by
    intro hc
    cases l <;> simp [hc] at hlev
  have hsum := List.count_true_add_count_false (l := bs)
  omega

/-! ### Words on the line -/

variable {w v : ℕ}

/-- The bits of a word as sent on a line that takes the most significant first. -/
def msbFirst (x : BitVec w) : List Bool := (List.range w).map x.getMsbD

/-- The bits of a word, the least significant first. -/
def lsbFirst (x : BitVec w) : List Bool := (List.range w).map x.getLsbD

@[simp] theorem length_msbFirst (x : BitVec w) : (msbFirst x).length = w := by simp [msbFirst]

@[simp] theorem length_lsbFirst (x : BitVec w) : (lsbFirst x).length = w := by simp [lsbFirst]

theorem msbFirst_append (x : BitVec w) (y : BitVec v) :
    msbFirst (x ++ y) = msbFirst x ++ msbFirst y := by
  apply List.ext_getElem
  · simp
  · intro i h₁ h₂
    simp only [length_msbFirst] at h₁
    simp only [List.getElem_append, msbFirst, List.getElem_map, List.getElem_range,
      List.length_map, List.length_range, BitVec.getMsbD_append]
    by_cases hi : i < w
    · have hn : ¬ w ≤ i := by omega
      simp [hi, hn]
    · have hn : w ≤ i := by omega
      simp [hi, hn]

theorem msbFirst_not (x : BitVec w) : msbFirst (~~~ x) = (msbFirst x).map (!·) := by
  simp only [msbFirst, List.map_map]
  apply List.map_congr_left
  intro i hi
  have hlt : i < w := List.mem_range.mp hi
  simp [hlt]

/-- A field of a word, and its two parts. -/
theorem lsbFirst_extractLsb'_add (x : BitVec w) (k m n : ℕ) :
    lsbFirst (x.extractLsb' k (m + n)) =
      lsbFirst (x.extractLsb' k m) ++ lsbFirst (x.extractLsb' (k + m) n) := by
  have hfield : ∀ k m : ℕ,
      lsbFirst (x.extractLsb' k m) = (List.range m).map fun i => x.getLsbD (k + i) := by
    intro k m
    apply List.map_congr_left
    intro i hi
    simp [List.mem_range.mp hi]
  simp only [hfield, List.range_add, List.map_append, List.map_map]
  congr 1
  apply List.map_congr_left
  intro i hi
  simp [Nat.add_assoc]

theorem lsbFirst_injective : Function.Injective (lsbFirst (w := w)) := by
  intro x y h
  apply BitVec.eq_of_getLsbD_eq
  intro i hi
  have hmap := List.map_inj_left.mp h
  exact hmap i (List.mem_range.mpr hi)

/-! ### Frames -/

/-- The preambles: `B` starts a block of 192 frames, `M` any other frame, `W`
the second subframe of a frame. -/
inductive Preamble
  | B | M | W
  deriving DecidableEq, Repr

/-- The half-cells of a preamble sent after a low level. -/
def Preamble.halves : Preamble → List Bool
  | .B => [true, true, true, false, true, false, false, false]
  | .M => [true, true, true, false, false, false, true, false]
  | .W => [true, true, true, false, false, true, false, false]

/-- Read a preamble; it starts with a transition like any cell. -/
def readPreamble (l : Bool) (hs : List Bool) : Option Preamble :=
  [Preamble.B, .M, .W].find? fun p => hs = p.halves.map (l != ·)

/-- What 64 half-cells carry: the status bits of the subframe before, then the
preamble and the audio bits of the next. -/
structure Group where
  status : List Bool
  preamble : Preamble
  slots : List Bool
  deriving DecidableEq, Repr

/-- Read one group. -/
def readGroup (l : Bool) (hs : List Bool) : Option Group :=
  let st := hs.take 8
  let pre := (hs.drop 8).take 8
  let au := (hs.drop 16).take 48
  match decode l st, readPreamble (level l st) pre,
      decode (level (level l st) pre) au with
  | some status, some preamble, some slots => some ⟨status, preamble, slots⟩
  | _, _, _ => none

/-- Read `n` groups that make up the whole line. -/
def readGroups : ℕ → Bool → List Bool → Option (List Group)
  | 0, _, hs => if hs = [] then some [] else none
  | n + 1, l, hs =>
      (readGroup l (hs.take 64)).bind fun g =>
        (readGroups n (level l (hs.take 64)) (hs.drop 64)).map (g :: ·)

/-- A subframe, its audio bits first sent first. -/
structure Subframe where
  preamble : Preamble
  slots : List Bool
  status : List Bool
  deriving DecidableEq, Repr

/-- The subframes of a line: the status of each stands in the group after it,
and that of the last is still to come. -/
def subframes : List Group → List Subframe
  | [] => []
  | [g] => [⟨g.preamble, g.slots, []⟩]
  | g :: g' :: gs => ⟨g.preamble, g.slots, g'.status⟩ :: subframes (g' :: gs)

/-- The subframes of a valid line that was low before it; `none` for a line
with a cell or a preamble that breaks the rules. -/
def receive (hs : List Bool) : Option (List Subframe) :=
  (readGroups (hs.length / 64) false hs).map subframes

/-- The parity bit makes the number of ones even. -/
def Subframe.EvenParity (s : Subframe) : Prop := (s.slots ++ s.status).count true % 2 = 0

theorem readGroups_append {l : Bool} {n : ℕ} {hs hs' : List Bool} {g : Group}
    (hlen : hs.length = 64) (hg : readGroup l hs = some g) :
    readGroups (n + 1) l (hs ++ hs') = (readGroups n (level l hs) hs').map (g :: ·) := by
  have htake : (hs ++ hs').take 64 = hs := by rw [← hlen, List.take_left]
  have hdrop : (hs ++ hs').drop 64 = hs' := by rw [← hlen, List.drop_left]
  simp only [readGroups, htake, hdrop, hg, Option.bind_some]

theorem map_subframes {α : Type*} (f : Preamble → List Bool → α) (gs : List Group) :
    (subframes gs).map (fun s => f s.preamble s.slots) =
      gs.map fun g => f g.preamble g.slots := by
  induction gs with
  | nil => rfl
  | cons g gs ih =>
      cases gs with
      | nil => rfl
      | cons g' gs =>
          simp only [subframes, List.map_cons, ih]

/-- Groups with even audio bits and no status bit set make subframes of even parity. -/
theorem evenParity_subframes {gs : List Group}
    (h : ∀ g ∈ gs, g.slots.count true % 2 = 0 ∧ g.status.count true = 0) :
    ∀ s ∈ subframes gs, s.EvenParity := by
  induction gs with
  | nil => simp [subframes]
  | cons g gs ih =>
      have hg := h g List.mem_cons_self
      have hgs := fun g' hg' => h g' (List.mem_cons_of_mem g hg')
      cases gs with
      | nil =>
          intro s hs
          obtain rfl : s = ⟨g.preamble, g.slots, []⟩ := List.mem_singleton.mp hs
          simp [Subframe.EvenParity, hg.1]
      | cons g' gs =>
          intro s hs
          rcases List.mem_cons.mp hs with rfl | hs
          · have hg' := hgs g' List.mem_cons_self
            simp only [Subframe.EvenParity, List.count_append, hg'.2]
            exact hg.1
          · exact ih hgs s hs

end Biphase
