/-
SqueezeliteMuse/VisuExport.lean

The samples that the output leaves for the visualizer.

`output_visu_export` puts frames behind those that are there, until the buffer is full, and
`displayer_update` takes the first of them and sets the level back.  The level is a count of
frames.  But it is added to a `void *`, so the frames behind the first call are put so many
bytes from the start, over the frames that are there.

Main result: `visu_export_run`: the buffer has what was exported since it was emptied, in every
run where frames are only stored in an empty buffer.
-/
import SqueezeliteMuse.Lib.Runs
import SqueezeliteMuse.Lib.Octets
import SqueezeliteMuse.Gain

namespace SqueezeliteMuse

namespace VisuExport

open Octets Runs

/-! ### The code -/

/-- `VISUEXPORT_SIZE` -/
def VISUEXPORT_SIZE : ℕ := 512

/-- `FFT_LEN` -/
def FFT_LEN : ℕ := 2 ^ 7

/-- `RMS_LEN` -/
def RMS_LEN : ℕ := 2 ^ 6

/-- `VISU_VUMETER` -/
def VISU_VUMETER : ℕ := 0x01

/-- `VISU_SPECTRUM` -/
def VISU_SPECTRUM : ℕ := 0x02

/-- `struct visu_export_s`.  `level` and `size` count frames. -/
structure State where
  level : ℕ
  size : ℕ
  rate : ℕ
  gain : ℕ
  buffer : ℕ → UInt8
  running : Bool

/-- What can be seen of the two. -/
inductive Obs
  /-- Frames that sound are handed over, with their rate. -/
  | exported (frames : List UInt8) (rate : ℕ)
  /-- `memcpy` stores `n` bytes from `off` on. -/
  | wrote (off n : ℕ)
  /-- The consumer reads `n` bytes from the start. -/
  | took (n : ℕ)
  /-- The consumer leaves the buffer empty. -/
  | emptied
  deriving DecidableEq

/-- The arguments of `output_visu_export`, and whether `trylock` succeeds. -/
structure Call where
  frames : ℕ → UInt8
  outFrames : ℕ
  rate : ℕ
  silence : Bool
  gain : ℕ
  lock : Bool

/-- `n` bytes from `frames`. -/
def Call.bytes (c : Call) (n : ℕ) : List UInt8 := (List.range n).map c.frames

variable (w : Build)

/-- `output_visu_init`, with what `malloc` finds in memory. -/
def outputVisuInit (buffer : ℕ → UInt8) : State where
  level := 0
  size := VISUEXPORT_SIZE
  rate := 44100
  gain := 0
  buffer := buffer
  running := false

/-- The level that an export of some rate finds. -/
def levelAt (v : State) (rate : ℕ) : ℕ := if v.rate ≠ rate then 0 else v.level

/-- `output_visu_export`, with the lock. -/
def stuff (v : State) (c : Call) : State × List Obs :=
  let level := levelAt v c.rate
  if level < v.size then
    let space := min (v.size - level) c.outFrames * w.frameBytes
    ({ v with
        buffer := Ring.write v.buffer level (c.bytes space)
        level := level + space / w.frameBytes
        running := true
        rate := if c.rate ≠ 0 then c.rate else 44100
        gain := c.gain }, [.wrote level space])
  else ({ v with level := level }, [])

/-- `output_visu_export` -/
def outputVisuExport (v : State) (c : Call) : State × List Obs :=
  if c.silence then ({ v with running := false }, [])
  else if c.lock then
    ((stuff w v c).1, .exported (c.bytes (c.outFrames * w.frameBytes)) c.rate :: (stuff w v c).2)
  else (v, [])

/-- What the consumer wants to find, in frames. -/
def wanted (mode : ℕ) : ℕ := if mode &&& VISU_SPECTRUM ≠ 0 then FFT_LEN else RMS_LEN

/-- The reads of the consumer. -/
def reads (v : State) (mode : ℕ) : List Obs :=
  if v.running then
    (if mode &&& VISU_VUMETER ≠ 0 then [.took (RMS_LEN * w.frameBytes)] else []) ++
      if mode &&& VISU_SPECTRUM ≠ 0 then [.took (FFT_LEN * w.frameBytes)] else []
  else []

/-- `displayer_update`, as far as it has to do with the buffer.  It is `busy` where it returns
at once, and `mode` is that of the display and of the strip together. -/
def displayerUpdate (v : State) (busy : Bool) (mode : ℕ) : State × List Obs :=
  if busy then (v, [])
  else if v.level < wanted mode ∧ v.running then (v, [])
  else ({ v with level := 0 }, reads w v mode ++ [.emptied])

inductive Event
  | output (c : Call)
  | display (busy : Bool) (mode : ℕ)

def machine : Machine State Event Obs where
  step v
    | .output c => outputVisuExport w v c
    | .display busy mode => displayerUpdate w v busy mode

/-! ### What the buffer is for -/

/-- What has been exported since the buffer was emptied, all at one rate. -/
structure Record where
  rate : Option ℕ
  frames : List UInt8

/-- The record of what is seen; `none` where something goes beyond the buffer, or beyond what
is in it. -/
def record (cap : ℕ) (a : Record) : Obs → Option Record
  | .exported frames rate =>
      some ⟨some rate, if a.rate = some rate then a.frames ++ frames else frames⟩
  | .wrote off n => if off + n ≤ cap then some a else none
  | .took n => if n ≤ a.frames.length then some a else none
  | .emptied => some { a with frames := [] }

/-- The buffer has what was exported, up to its capacity. -/
structure Stores (v : State) (a : Record) : Prop where
  size : v.size = VISUEXPORT_SIZE
  level : v.level * w.frameBytes = min (v.size * w.frameBytes) a.frames.length
  buffer : Octets.Holds v.buffer 0 (a.frames.take (v.size * w.frameBytes))

/-- The frames of an export are all stored in an empty buffer, if at all. -/
def Fresh (v : State) (c : Call) : Prop :=
  levelAt v c.rate = 0 ∨ c.outFrames = 0 ∨ v.size ≤ v.level

instance (v : State) (c : Call) : Decidable (Fresh v c) := inferInstanceAs (Decidable (_ ∨ _))

/-- The condition on a step. -/
def Clear (v : State) : Event → Prop
  | .output c => c.silence = false ∧ c.lock = true → c.rate ≠ 0 ∧ Fresh v c
  | .display _ _ => True

/-! ### One call -/

section Step

variable {w} {v : State} {a : Record} {c : Call}

theorem frameBytes_pos (w : Build) : 0 < w.frameBytes := by cases w <;> decide

theorem length_bytes (c : Call) (n : ℕ) : (c.bytes n).length = n := by simp [Call.bytes]

theorem take_bytes (c : Call) (n k : ℕ) : (c.bytes n).take k = c.bytes (min k n) := by
  rw [Call.bytes, ← List.map_take, List.take_range, Call.bytes]

/-- Nothing is written beyond the buffer, wherever the export finds the level. -/
theorem stuff_inside (w : Build) {level size : ℕ} (hlt : level < size) (n : ℕ) :
    level + min (size - level) n * w.frameBytes ≤ size * w.frameBytes := by
  have hB := frameBytes_pos w
  calc level + min (size - level) n * w.frameBytes
      ≤ level * w.frameBytes + (size - level) * w.frameBytes :=
        Nat.add_le_add (Nat.le_mul_of_pos_right _ hB)
          (Nat.mul_le_mul_right _ (Nat.min_le_left _ _))
    _ = size * w.frameBytes := by rw [← Nat.add_mul, Nat.add_sub_cancel' hlt.le]

/-- The record that an export meets: that of its rate. -/
def Record.at (a : Record) (rate : ℕ) : List UInt8 := if a.rate = some rate then a.frames else []

/-- The state, the record, and the rate that both have. -/
structure Keeps (w : Build) (v : State) (a : Record) : Prop extends Stores w v a where
  rate : ∀ r, a.rate = some r → v.rate = r
  begun : a.rate = none → a.frames = []

theorem Keeps.cap_pos (h : Keeps w v a) : 0 < v.size * w.frameBytes :=
  Nat.mul_pos (by rw [h.size]; decide) (frameBytes_pos w)

/-- The record of the rate of an export is what its level counts. -/
theorem Keeps.at_rate (h : Keeps w v a) (rate : ℕ) :
    levelAt v rate * w.frameBytes = min (v.size * w.frameBytes) (a.at rate).length ∧
      Octets.Holds v.buffer 0 ((a.at rate).take (v.size * w.frameBytes)) := by
  by_cases hrate : a.rate = some rate
  · rw [levelAt, if_neg (not_not_intro (h.rate rate hrate)), Record.at, if_pos hrate]
    exact ⟨h.level, h.buffer⟩
  · have hlevel : levelAt v rate = 0 := by
      rw [levelAt]
      split
      case isTrue => rfl
      case isFalse hv =>
        rcases hnone : a.rate with - | r
        · -- nothing has been exported yet
          have hmin := h.level
          rw [h.begun hnone, List.length_nil, Nat.min_zero] at hmin
          exact (Nat.mul_eq_zero.mp hmin).resolve_right (frameBytes_pos w).ne'
        · rw [hnone, ← h.rate r hnone, not_not.mp hv] at hrate
          exact absurd rfl hrate
    rw [hlevel, Record.at, if_neg hrate, List.take_nil]
    exact ⟨by simp, holds_nil _ _⟩

/-- An export that finds the buffer full leaves what is there. -/
theorem stores_full (h : Keeps w v a) (hrate : levelAt v c.rate = v.level)
    (hfull : v.size ≤ v.level) (rate : Option ℕ) (n : ℕ) :
    Stores w v ⟨rate, a.at c.rate ++ c.bytes n⟩ := by
  obtain ⟨hlevel, hbuffer⟩ := h.at_rate c.rate
  rw [hrate] at hlevel
  have hmul := Nat.mul_le_mul_right w.frameBytes hfull
  have hlong : v.size * w.frameBytes ≤ (a.at c.rate).length := by omega
  refine ⟨h.size, ?_, ?_⟩
  · rw [hlevel, List.length_append]
    omega
  · rw [List.take_append_of_le_length hlong]
    exact hbuffer

/-- An export into an empty buffer stores what there is room for. -/
theorem stores_first (h : Keeps w v a) (hlevel : levelAt v c.rate = 0) :
    Stores w (stuff w v c).1
      ⟨some c.rate, a.at c.rate ++ c.bytes (c.outFrames * w.frameBytes)⟩ := by
  obtain ⟨hmin, -⟩ := h.at_rate c.rate
  have hcap := h.cap_pos
  have hB := frameBytes_pos w
  have hsize : 0 < v.size := by rw [h.size]; decide
  have hnil : a.at c.rate = [] := by
    rw [hlevel, Nat.zero_mul] at hmin
    apply List.eq_nil_of_length_eq_zero
    omega
  rw [stuff, hlevel]
  simp only [if_pos hsize, Nat.sub_zero, Nat.zero_add, hnil, List.nil_append]
  refine ⟨h.size, ?_, ?_⟩
  · rw [Nat.mul_div_cancel _ hB, length_bytes]
    exact (Nat.mul_min_mul_right _ _ _).symm
  · show Octets.Holds (Ring.write v.buffer 0 (c.bytes (min v.size c.outFrames * w.frameBytes))) 0
      ((c.bytes (c.outFrames * w.frameBytes)).take (v.size * w.frameBytes))
    rw [take_bytes, Nat.mul_min_mul_right]
    have hstored := Octets.Holds.write_append (holds_nil v.buffer 0)
      (c.bytes (min v.size c.outFrames * w.frameBytes))
    rwa [List.length_nil, List.nil_append] at hstored

/-- An export of no frames leaves what is there. -/
theorem stores_none (h : Keeps w v a) (hnone : c.outFrames = 0) :
    Stores w (stuff w v c).1
      ⟨some c.rate, a.at c.rate ++ c.bytes (c.outFrames * w.frameBytes)⟩ := by
  obtain ⟨hmin, hbuffer⟩ := h.at_rate c.rate
  have hbytes : c.bytes 0 = [] := rfl
  rw [stuff, hnone, Nat.zero_mul, hbytes, List.append_nil]
  dsimp only
  split
  · rw [Nat.min_zero, Nat.zero_mul, Nat.zero_div, Nat.add_zero, hbytes]
    refine ⟨h.size, hmin, ?_⟩
    rw [Ring.write_nil]
    exact hbuffer
  · exact ⟨h.size, hmin, hbuffer⟩

/-- An export leaves the rate in the state where it stores something, and where it does not, the
rate is there. -/
theorem stuff_rate (h : Keeps w v a) (hzero : c.rate ≠ 0) : (stuff w v c).1.rate = c.rate := by
  rw [stuff]
  simp only [if_pos hzero]
  split
  case isTrue => rfl
  case isFalse hfull =>
    by_contra hne
    have hlevel : levelAt v c.rate = 0 := if_pos hne
    rw [hlevel, h.size] at hfull
    exact hfull (by decide)

/-- The step lemma for an export. -/
theorem step_export (h : Keeps w v a) (hsilence : c.silence = false) (hlock : c.lock = true)
    (hzero : c.rate ≠ 0) (hfresh : Fresh v c) :
    ∃ a', watch (record (VISUEXPORT_SIZE * w.frameBytes)) a (outputVisuExport w v c).2 = some a' ∧
      Keeps w (outputVisuExport w v c).1 a' := by
  have hstep : outputVisuExport w v c = ((stuff w v c).1,
      .exported (c.bytes (c.outFrames * w.frameBytes)) c.rate :: (stuff w v c).2) := by
    rw [outputVisuExport, if_neg (by rw [hsilence]; decide), if_pos hlock]
  have hrecord : (if a.rate = some c.rate then
        a.frames ++ c.bytes (c.outFrames * w.frameBytes)
      else c.bytes (c.outFrames * w.frameBytes)) =
      a.at c.rate ++ c.bytes (c.outFrames * w.frameBytes) := by
    rw [Record.at]
    split <;> rfl
  -- no write is refused
  have hwatch : ∀ b : Record, watch (record (VISUEXPORT_SIZE * w.frameBytes)) b (stuff w v c).2 =
      some b := by
    intro b
    rw [stuff]
    dsimp only
    split
    case isTrue hlt =>
      have hinside := stuff_inside w hlt c.outFrames
      rw [h.size] at hinside
      rw [watch_cons, record, h.size, if_pos hinside]
      rfl
    case isFalse => rfl
  have hstores : Stores w (stuff w v c).1
      ⟨some c.rate, a.at c.rate ++ c.bytes (c.outFrames * w.frameBytes)⟩ := by
    by_cases hlevel : levelAt v c.rate = 0
    · exact stores_first h hlevel
    · have hsame : levelAt v c.rate = v.level := by
        rw [levelAt] at hlevel ⊢
        split at hlevel
        case isTrue => exact absurd rfl hlevel
        case isFalse hv => rw [if_neg hv]
      rcases hfresh with hfresh | hnone | hfull
      · exact absurd hfresh hlevel
      · exact stores_none h hnone
      · have hleft : (stuff w v c).1 = v := by
          rw [stuff, hsame]
          exact (congrArg Prod.fst (if_neg (Nat.not_lt.mpr hfull))).trans rfl
        rw [hleft]
        exact stores_full h hsame hfull _ _
  rw [hstep]
  refine ⟨⟨some c.rate, a.at c.rate ++ c.bytes (c.outFrames * w.frameBytes)⟩, ?_, hstores, ?_, ?_⟩
  · rw [watch_cons, record, hrecord, Option.bind_some, hwatch]
  · intro r hr
    rw [stuff_rate h hzero]
    exact Option.some.inj hr
  · exact fun hnone => nomatch hnone

/-- The step lemma for the consumer: what it takes is there. -/
theorem step_display (h : Keeps w v a) (busy : Bool) (mode : ℕ) :
    ∃ a', watch (record (VISUEXPORT_SIZE * w.frameBytes)) a (displayerUpdate w v busy mode).2 =
        some a' ∧ Keeps w (displayerUpdate w v busy mode).1 a' := by
  rw [displayerUpdate]
  split
  case isTrue => exact ⟨a, rfl, h⟩
  case isFalse =>
    split
    case isTrue => exact ⟨a, rfl, h⟩
    case isFalse hready =>
      have hreads : watch (record (VISUEXPORT_SIZE * w.frameBytes)) a (reads w v mode) =
          some a := by
        rw [reads]
        split
        case isTrue hrunning =>
          have hwanted : wanted mode ≤ v.level := by
            by_contra hlt
            exact hready ⟨Nat.not_le.mp hlt, hrunning⟩
          have hframes : v.level * w.frameBytes ≤ a.frames.length := by
            rw [h.level]
            exact Nat.min_le_right _ _
          have htook : ∀ n ≤ wanted mode,
              record (VISUEXPORT_SIZE * w.frameBytes) a (.took (n * w.frameBytes)) = some a := by
            intro n hn
            rw [record, if_pos]
            exact (Nat.mul_le_mul_right _ (hn.trans hwanted)).trans hframes
          have hrms : RMS_LEN ≤ wanted mode := by
            rw [wanted]
            split <;> decide
          have hfft : mode &&& VISU_SPECTRUM ≠ 0 → FFT_LEN ≤ wanted mode := by
            intro hmode
            rw [wanted, if_pos hmode]
          have hmeter : watch (record (VISUEXPORT_SIZE * w.frameBytes)) a
              (if mode &&& VISU_VUMETER ≠ 0 then [.took (RMS_LEN * w.frameBytes)] else []) =
                some a := by
            split
            · rw [watch_cons, htook _ hrms]
              rfl
            · rfl
          rw [watch_append, hmeter, Option.bind_some]
          split
          case isTrue hmode =>
            rw [watch_cons, htook _ (hfft hmode)]
            rfl
          case isFalse => rfl
        case isFalse => rfl
      refine ⟨{ a with frames := [] }, ?_, ?_⟩
      · rw [watch_append, hreads]
        rfl
      · refine ⟨⟨h.size, ?_, ?_⟩, h.rate, fun _ => rfl⟩
        · simp
        · rw [List.take_nil]
          exact holds_nil _ _

end Step

/-! ### Runs -/

/-- One step. -/
theorem step_keeps {w : Build} {v : State} {a : Record} (e : Event) (h : Keeps w v a)
    (hclear : Clear v e) :
    ∃ a', watch (record (VISUEXPORT_SIZE * w.frameBytes)) a ((machine w).step v e).2 = some a' ∧
      Keeps w ((machine w).step v e).1 a' := by
  rcases e with c | ⟨busy, mode⟩
  · show ∃ a', watch _ a (outputVisuExport w v c).2 = some a' ∧
      Keeps w (outputVisuExport w v c).1 a'
    by_cases hsilence : c.silence = true
    · -- silence leaves the buffer
      rw [outputVisuExport, if_pos hsilence]
      exact ⟨a, rfl, ⟨h.size, h.level, h.buffer⟩, h.rate, h.begun⟩
    · by_cases hlock : c.lock = true
      · have hquiet : c.silence = false := Bool.eq_false_iff.mpr hsilence
        obtain ⟨hzero, hfresh⟩ := hclear ⟨hquiet, hlock⟩
        exact step_export h hquiet hlock hzero hfresh
      · rw [outputVisuExport, if_neg hsilence, if_neg hlock]
        exact ⟨a, rfl, h⟩
  · exact step_display h busy mode

theorem keeps_init (w : Build) (buffer : ℕ → UInt8) :
    Keeps w (outputVisuInit buffer) ⟨none, []⟩ where
  size := rfl
  level := by simp [outputVisuInit]
  buffer := by
    rw [List.take_nil]
    exact holds_nil _ _
  rate r hr := nomatch hr
  begun _ := rfl

/-- The buffer has what was exported at one rate since it was emptied, up to its capacity, with
the level that says how much this is; and nothing is written or read beyond it. -/
theorem visu_export_run (w : Build) (buffer : ℕ → UInt8) {es : List Event}
    (h : (machine w).Along Clear (outputVisuInit buffer) es) :
    ∃ a, watch (record (VISUEXPORT_SIZE * w.frameBytes)) ⟨none, []⟩
        ((machine w).run (outputVisuInit buffer) es).2 = some a ∧
      Stores w ((machine w).run (outputVisuInit buffer) es).1 a := by
  obtain ⟨a, hwatch, hkeeps⟩ := (machine w).run_watched (R := Keeps w)
    (fun v a e => step_keeps e) (keeps_init w buffer) h
  exact ⟨a, hwatch, hkeeps.toStores⟩

/-- An export of one frame, at 44100. -/
def oneFrame (first : UInt8) : Event :=
  .output ⟨fun i => first + UInt8.ofNat i, 1, 44100, false, 0x10000, true⟩

/-- A frame is exported, taken by the consumer, and another one is exported. -/
theorem visu_export_taken :
    ∃ a, watch (record (VISUEXPORT_SIZE * Build.s16.frameBytes)) ⟨none, []⟩
        ((machine .s16).run (outputVisuInit fun _ => 0)
          [oneFrame 1, .display false 2, .output ⟨fun _ => 0, 0, 44100, true, 0, true⟩,
            .display false 2, oneFrame 5]).2 = some a ∧
      Stores .s16 ((machine .s16).run (outputVisuInit fun _ => 0)
          [oneFrame 1, .display false 2, .output ⟨fun _ => 0, 0, 44100, true, 0, true⟩,
            .display false 2, oneFrame 5]).1 a :=
  visu_export_run .s16 _ (by
    refine ⟨fun _ => ⟨by decide, .inl rfl⟩, trivial, fun h => ?_, trivial,
      fun _ => ⟨by decide, .inl rfl⟩, trivial⟩
    exact absurd h.1 (by decide))

/-- An export that sounds, with the lock, at one rate. -/
def AtRate (rate : ℕ) : Event → Prop
  | .output c => c.silence = false ∧ c.lock = true ∧ c.rate = rate
  | .display _ _ => False

/-- The second of two frames is stored over the first, a byte behind its start. -/
theorem second_overlaps :
    ¬ ∀ (w : Build) (buffer : ℕ → UInt8) (rate : ℕ) (es : List Event),
      rate ≠ 0 → (∀ e ∈ es, AtRate rate e) →
      ∃ a, watch (record (VISUEXPORT_SIZE * w.frameBytes)) ⟨none, []⟩
          ((machine w).run (outputVisuInit buffer) es).2 = some a ∧
        Stores w ((machine w).run (outputVisuInit buffer) es).1 a := by
  intro h
  obtain ⟨a, hwatch, hstores⟩ := h .s16 (fun _ => 0) 44100 [oneFrame 1, oneFrame 5] (by decide)
    (by simp [oneFrame, AtRate])
  have hframes : watch (record (VISUEXPORT_SIZE * Build.s16.frameBytes)) ⟨none, []⟩
      ((machine .s16).run (outputVisuInit fun _ => 0) [oneFrame 1, oneFrame 5]).2 =
      some ⟨some 44100, [1, 2, 3, 4, 5, 6, 7, 8]⟩ := by
    rfl
  rw [hframes] at hwatch
  obtain rfl := Option.some.inj hwatch
  have hbyte := hstores.buffer 1 (by decide)
  revert hbyte
  decide

end VisuExport

end SqueezeliteMuse
