/-
SqueezeliteMuse/DisplayUpdate.lean

The displays in use: `Init` clears the framebuffer, marks the shadow and updates, and from then on
anything may be drawn at any time between two updates.

What an update relies on is that the memory shows the shadow, which the update before has
left behind; before the first one nothing is known of the memory, but the shadow differs from
the framebuffer in every byte.

Main result: `updates_show_iff`: with a geometry that the driver takes, every update leaves the
memory as the framebuffer is, with every copy within `iRAM`, exactly if `iRAM` holds what the
ST77xx copy.
-/
import SqueezeliteMuse.Lib.Runs
import SqueezeliteMuse.SsdPages
import SqueezeliteMuse.SsdRows
import SqueezeliteMuse.St77xx

namespace SqueezeliteMuse

open Windowed Runs

namespace Gds

/-- `Mode` of the ST77xx. -/
inductive Mode
  | rgb565 | rgb666
deriving DecidableEq

def Mode.format : Mode → Format
  | .rgb565 => format16
  | .rgb666 => format24

/-- The update functions, and what they read of `Private`. -/
inductive Driver
  | ssd1306
  /-- `Update4` -/
  | ssd132x4 (iRAM : Bool)
  /-- `Update1` -/
  | ssd132x1
  | ssd1322
  | st77xx (mode : Mode) (iRAM : Bool) (offsetWidth offsetHeight : ℕ)

structure Device where
  driver : Driver
  width : ℕ
  height : ℕ

namespace Device

variable (k : Device)

/-- `Device->Update`. -/
def update : Frame → Panel → Panel :=
  match k.driver with
  | .ssd1306 => update1306 k.width k.height
  | .ssd132x4 iRAM => update4 k.width k.height iRAM
  | .ssd132x1 => update1 k.width k.height
  | .ssd1322 => update1322 k.width k.height
  | .st77xx .rgb565 iRAM offsetWidth offsetHeight =>
    update16 ⟨k.width, k.height, offsetWidth, offsetHeight, iRAM⟩
  | .st77xx .rgb666 iRAM offsetWidth offsetHeight =>
    update24 ⟨k.width, k.height, offsetWidth, offsetHeight, iRAM⟩

/-- The byte that `Init` fills the shadow with. -/
def mark : UInt8 :=
  match k.driver with
  | .st77xx .. => 0xAA
  | _ => 0xFF

/-- What is allocated for `iRAM`; the other drivers copy nothing. -/
def iram : ℕ :=
  match k.driver with
  | .ssd132x4 _ => ssdIram k.width k.height
  | .ssd1322 => ssdIram k.width k.height
  | .st77xx mode iRAM offsetWidth offsetHeight =>
    stIram mode.format ⟨k.width, k.height, offsetWidth, offsetHeight, iRAM⟩
  | _ => 0

def layout : Layout :=
  match k.driver with
  | .ssd1306 => layoutRows k.width (k.height / 8)
  | .ssd132x4 _ => layout4 k.width k.height
  | .ssd132x1 => layoutRows (k.width / 8) k.height
  | .ssd1322 => layout1322 k.width k.height
  | .st77xx mode iRAM offsetWidth offsetHeight =>
    layoutSt mode.format ⟨k.width, k.height, offsetWidth, offsetHeight, iRAM⟩

/-- A geometry that the driver takes: the addresses that it sends are of one byte, or of two. -/
def Accepts : Prop :=
  8 ∣ k.width ∧ 0 < k.width ∧ 0 < k.height ∧
    match k.driver with
    | .ssd1306 => k.width ≤ 255 ∧ 8 ∣ k.height ∧ k.height / 8 ≤ 256
    | .ssd132x4 _ => k.width ≤ 512 ∧ k.height ≤ 256
    | .ssd132x1 => k.width / 8 ≤ 255 ∧ k.height ≤ 256
    | .ssd1322 => k.width ≤ 480 ∧ k.height ≤ 256
    | .st77xx _ _ offsetWidth offsetHeight =>
      offsetWidth + k.width ≤ 65536 ∧ offsetHeight + k.height ≤ 65536

/-- `iRAM` holds what is copied. -/
def Fits : Prop :=
  match k.driver with
  | .st77xx mode iRAM offsetWidth offsetHeight =>
    Screen.Fits mode.format ⟨k.width, k.height, offsetWidth, offsetHeight, iRAM⟩
  | _ => True

end Device

/-! ### The machine -/

structure Display where
  frame : Frame
  panel : Panel

inductive Event
  /-- the framebuffer is changed -/
  | draw (frame : Frame)
  | update

/-- A display and whoever draws on it. -/
def machine (k : Device) : Machine Display Event Empty where
  step s
    | .draw frame => ({ s with frame := frame }, [])
    | .update => ({ s with panel := k.update s.frame s.panel }, [])

/-- `Init`, up to its `Update`: whatever the memory holds. -/
def boot (k : Device) (memory : Memory UInt8) : Display where
  frame _ := 0
  panel := ⟨fun _ => k.mark, memory, []⟩

/-- The memory is the framebuffer, and every copy into `iRAM` ended in it. -/
structure Shown (k : Device) (s : Display) : Prop where
  shows : ∀ r < k.layout.rows, k.layout.Shows s.panel.ctrl s.frame r
  copies : ∀ c ∈ s.panel.copies, c ≤ k.iram

/-- An update does what it is for. -/
def Updates (k : Device) (s : Display) (e : Event) : Prop :=
  e = .update → Shown k ((machine k).step s e).1

/-! ### One update -/

section Update

variable {k : Device} {frame : Frame} {d : Panel}

theorem Mode.holds {width : ℕ} (hw : 8 ∣ width) (mode : Mode) : mode.format.Holds width := by
  cases mode
  · exact format16_holds hw
  · exact format24_holds hw

theorem update_st77xx (mode : Mode) (iRAM : Bool) (offsetWidth offsetHeight width height : ℕ) :
    Device.update ⟨.st77xx mode iRAM offsetWidth offsetHeight, width, height⟩ =
      updateWindow mode.format ⟨width, height, offsetWidth, offsetHeight, iRAM⟩ := by
  cases mode <;> rfl

/-- Where the memory shows the shadow, an update does its work. -/
theorem update_updated (hk : k.Accepts)
    (hcur : ∀ r < k.layout.rows, k.layout.Current d.ctrl d.shadow frame r) :
    Updated k.layout frame (k.update frame d) := by
  obtain ⟨driver, width, height⟩ := k
  obtain ⟨hw, hpos, -, hk⟩ := hk
  cases driver with
  | ssd1306 => exact (rows_show hk.1 hk.2.2 hcur).1
  | ssd132x4 iRAM => exact update4_updated hw hpos hk.1 hk.2 iRAM hcur
  | ssd132x1 => exact (rows_show hk.1 hk.2 hcur).1
  | ssd1322 => exact update1322_updated hw hpos hk.1 hk.2 hcur
  | st77xx mode iRAM offsetWidth offsetHeight =>
      rw [update_st77xx]
      exact window_shows (mode.holds hw) ⟨hk.2, hk.1⟩ hcur

/-- If `iRAM` holds what is copied, nothing is copied further. -/
theorem update_copies (hk : k.Accepts) (hfits : k.Fits)
    (hcur : ∀ r < k.layout.rows, k.layout.Current d.ctrl d.shadow frame r) :
    ∀ c ∈ (k.update frame d).copies, c ∈ d.copies ∨ c ≤ k.iram := by
  obtain ⟨driver, width, height⟩ := k
  obtain ⟨hw, hpos, -, hk⟩ := hk
  cases driver with
  | ssd1306 =>
      intro c hc
      have hsame : (updateRows width (height / 8) frame d).copies = d.copies :=
        (rows_show hk.1 hk.2.2 hcur).2
      rw [← hsame]
      exact .inl hc
  | ssd132x4 iRAM => exact update4_copies iRAM frame d
  | ssd132x1 =>
      intro c hc
      have hsame : (updateRows (width / 8) height frame d).copies = d.copies :=
        (rows_show hk.1 hk.2 hcur).2
      rw [← hsame]
      exact .inl hc
  | ssd1322 => exact update1322_copies frame d
  | st77xx mode iRAM offsetWidth offsetHeight =>
      intro c hc
      have hp := mode.holds hw
      rw [update_st77xx] at hc
      rcases window_copies hp ⟨hk.2, hk.1⟩ hcur c hc with hc | ⟨hiram, hblock, hall⟩
      · exact .inl hc
      · rcases hfits with hnone | hroom
        · rw [hnone] at hiram
          cases hiram
        · exact .inr (le_stIram (Nat.mul_pos hpos hp.pos) hroom hblock hall)

end Update

/-! ### Runs -/

section Runs

variable {k : Device}

/-- What is kept: the memory shows the shadow. -/
structure Kept (k : Device) (s : Display) : Prop where
  shows : ∀ r < k.layout.rows, k.layout.Shows s.panel.ctrl s.panel.shadow r
  copies : ∀ c ∈ s.panel.copies, c ≤ k.iram

theorem update_shown (hk : k.Accepts) (hfits : k.Fits) {s : Display}
    (hcur : ∀ r < k.layout.rows, k.layout.Current s.panel.ctrl s.panel.shadow s.frame r)
    (hcopies : ∀ c ∈ s.panel.copies, c ≤ k.iram) :
    Shown k ((machine k).step s .update).1 ∧ Kept k ((machine k).step s .update).1 := by
  have hupdated := update_updated hk hcur
  have hcopies' : ∀ c ∈ (k.update s.frame s.panel).copies, c ≤ k.iram := by
    intro c hc
    rcases update_copies hk hfits hcur c hc with hc | hc
    · exact hcopies c hc
    · exact hc
  refine ⟨⟨hupdated.shows, hcopies'⟩, ⟨fun r hr b hb => ?_, hcopies'⟩⟩
  exact (hupdated.shows r hr b hb).trans (hupdated.shadow r hr b hb).symm

theorem step_kept (hk : k.Accepts) (hfits : k.Fits) (s : Display) (e : Event) (h : Kept k s) :
    Updates k s e ∧ Kept k ((machine k).step s e).1 := by
  cases e with
  | draw frame => exact ⟨fun h => (nomatch h), h.shows, h.copies⟩
  | update =>
      obtain ⟨hshown, hkept⟩ := update_shown hk hfits (fun r hr => (h.shows r hr).current s.frame) h.copies
      exact ⟨fun _ => hshown, hkept⟩

theorem mark_ne_zero (k : Device) : k.mark ≠ 0 := by
  rw [Device.mark]
  split
  · decide
  · decide

/-- Nothing is shown yet, but the shadow differs from the framebuffer in every byte. -/
theorem boot_current (k : Device) (memory : Memory UInt8) :
    ∀ r < k.layout.rows, k.layout.Current (boot k memory).panel.ctrl (boot k memory).panel.shadow
      (boot k memory).frame r := by
  intro r _ b _ hsame
  exact absurd hsame (mark_ne_zero k)

/-- With `iRAM` large enough every update of every run does its work. -/
theorem along_updates (hk : k.Accepts) (hfits : k.Fits) (memory : Memory UInt8) (es : List Event) :
    (machine k).Along (Updates k) (boot k memory) (.update :: es) := by
  obtain ⟨hshown, hkept⟩ := update_shown hk hfits (boot_current k memory)
    (fun c hc => absurd hc List.not_mem_nil)
  refine ⟨fun _ => hshown, ?_⟩
  exact (machine k).along_of_invariant (fun s e h _ => (step_kept hk hfits s e h).2)
    (fun s e h _ => (step_kept hk hfits s e h).1) hkept ((machine k).along_true _ es)

/-! ### Copies that do not fit -/

/-- A frame of which the first `n` bytes of each row are lit. -/
def strip (rowBytes n : ℕ) : Frame := fun i => if i % rowBytes < n then 1 else 0

/-- Drawn over a blank frame, these are the words that change. -/
theorem strip_changes {p : Format} {g : Screen} (hp : p.Holds g.width) {s : Frame} {m : ℕ}
    (hblank : ∀ q < g.height, ∀ b < g.width * p.bytes, s (q * (g.width * p.bytes) + b) = 0) :
    Strip p g (strip (g.width * p.bytes) (m * p.wordBytes)) s m := by
  intro q hq c hc
  -- the bytes of the word
  have hbyte : ∀ i < p.wordBytes, c * p.wordBytes + i < g.width * p.bytes := by
    intro i hi
    have hle : (c + 1) * p.wordBytes ≤ p.words g.width * p.wordBytes := Nat.mul_le_mul_right _ hc
    rw [hp.row, Nat.succ_mul] at hle
    omega
  have hmod : ∀ i < p.wordBytes, (q * (g.width * p.bytes) + c * p.wordBytes + i) %
      (g.width * p.bytes) = c * p.wordBytes + i := by
    intro i hi
    rw [Nat.add_assoc, Nat.mul_comm q, Nat.mul_add_mod, Nat.mod_eq_of_lt (hbyte i hi)]
  have hzero : ∀ i < p.wordBytes, s (q * (g.width * p.bytes) + c * p.wordBytes + i) = 0 := by
    intro i hi
    rw [Nat.add_assoc]
    exact hblank q hq _ (hbyte i hi)
  by_cases hcm : c < m
  · refine iff_of_true ?_ hcm
    by_contra hsame
    have hfirst := Frame.differs_eq_false_iff.mp (Bool.eq_false_iff.mpr hsame) 0 hp.wordPos
    have hlt : c * p.wordBytes + 0 < m * p.wordBytes := Nat.mul_lt_mul_of_pos_right hcm hp.wordPos
    rw [hzero 0 hp.wordPos, strip, hmod 0 hp.wordPos, if_pos hlt] at hfirst
    cases hfirst
  · refine iff_of_false (fun hdiff => ?_) hcm
    have hsame : s.differs (strip (g.width * p.bytes) (m * p.wordBytes))
        (q * (g.width * p.bytes) + c * p.wordBytes) p.wordBytes = false := by
      refine Frame.differs_eq_false_iff.mpr fun i hi => ?_
      have hle : m * p.wordBytes ≤ c * p.wordBytes := Nat.mul_le_mul_right _ (Nat.not_lt.mp hcm)
      rw [hzero i hi, strip, hmod i hi, if_neg (by omega)]
    rw [hsame] at hdiff
    cases hdiff

theorem strip16 {m : ℕ} (hm : 0 < m) : format16.Whole m := by
  refine ⟨hm, fun rows => ?_, rfl, ?_⟩
  · show m * rows * 4 = m * 4 * rows
    ring
  · show ((m - 1) * 2 + 1 + 1) * 2 = m * 4
    omega

theorem strip24 {n : ℕ} (hn : 0 < n) : format24.Whole (3 * n) := by
  refine ⟨by omega, fun rows => ?_, rfl, ?_⟩
  · show (3 * n * 2 + 3 - 1) / 3 * rows * 3 = 3 * n * 2 * rows
    rw [show (3 * n * 2 + 3 - 1) / 3 = 2 * n by omega]
    ring
  · show (((3 * n - 1) * 2 + 1) / 3 + 1) * 3 = 3 * n * 2
    omega

/-- If ten rows of a strip that fit into `PAGE_BLOCK` do not fit into `iRAM`, a frame goes further than
it. -/
theorem not_updates_strip {mode : Mode} {width height offsetWidth offsetHeight m : ℕ}
    (hk : Device.Accepts ⟨.st77xx mode true offsetWidth offsetHeight, width, height⟩)
    (hheight : 10 ≤ height) (hm : m ≤ mode.format.words width) (hwhole : mode.format.Whole m)
    (hfit : 10 * (m * mode.format.wordBytes) < ST_PAGE_BLOCK)
    (hover : 9 * (width * mode.format.bytes) < 10 * (m * mode.format.wordBytes))
    (hsmall : 9 * (width * mode.format.bytes) < ST_PAGE_BLOCK) (memory : Memory UInt8) :
    ¬ (machine ⟨.st77xx mode true offsetWidth offsetHeight, width, height⟩).Along
      (Updates ⟨.st77xx mode true offsetWidth offsetHeight, width, height⟩)
      (boot ⟨.st77xx mode true offsetWidth offsetHeight, width, height⟩ memory)
      [.update, .draw (strip (width * mode.format.bytes) (m * mode.format.wordBytes)), .update] := by
  rintro ⟨-, -, hlast, -⟩
  have hp := mode.holds hk.1
  have hupdated := update_updated hk (boot_current _ memory)
  have hcopies := (hlast rfl).copies
  -- the panel behind the first update
  generalize hd : Device.update ⟨.st77xx mode true offsetWidth offsetHeight, width, height⟩ _ _ = d
    at hupdated
  have hcopied : 10 * (m * mode.format.wordBytes) ∈ (updateWindow mode.format
      ⟨width, height, offsetWidth, offsetHeight, true⟩
      (strip (width * mode.format.bytes) (m * mode.format.wordBytes)) d).copies := by
    refine window_reaches hp ⟨hk.2.2.2.2, hk.2.2.2.1⟩ rfl hheight hm hwhole hfit (fun q hq => ?_)
      (strip_changes hp fun q hq b hb => hupdated.shadow q hq b hb)
    refine Layout.Shows.current (fun b hb => ?_) _
    exact (hupdated.shows q hq b hb).trans (hupdated.shadow q hq b hb).symm
  rw [← update_st77xx, ← hd] at hcopied
  have hle := hcopies _ hcopied
  have hiram : Device.iram ⟨.st77xx mode true offsetWidth offsetHeight, width, height⟩ =
      9 * (width * mode.format.bytes) := stIram_small (Nat.mul_pos hk.2.1 hp.pos) hsmall
  omega

/-- Where `iRAM` does not hold what is copied, lighting up to 204 bytes of each row is enough. -/
theorem not_updates (hk : k.Accepts) (hfits : ¬ k.Fits) (memory : Memory UInt8) :
    ∃ frame, ¬ (machine k).Along (Updates k) (boot k memory) [.update, .draw frame, .update] := by
  obtain ⟨driver, width, height⟩ := k
  cases driver with
  | ssd1306 => exact absurd trivial hfits
  | ssd132x4 iRAM => exact absurd trivial hfits
  | ssd132x1 => exact absurd trivial hfits
  | ssd1322 => exact absurd trivial hfits
  | st77xx mode iRAM offsetWidth offsetHeight =>
      have hiram : iRAM = true := by
        cases iRAM
        · exact absurd (.inl rfl) hfits
        · rfl
      subst hiram
      have hheight : 10 ≤ height := by
        by_contra hlow
        exact hfits (.inr (.inl (by show height ≤ 9; omega)))
      have hsmall : 9 * (width * mode.format.bytes) < ST_PAGE_BLOCK := by
        by_contra hwide
        exact hfits (.inr (.inr (Nat.not_lt.mp hwide)))
      obtain ⟨j, hj⟩ : 8 ∣ width := hk.1
      have hpos : 0 < width := hk.2.1
      subst hj
      cases mode with
      | rgb565 =>
          have hsmall' : 9 * (8 * j * 2) < 2048 := hsmall
          refine ⟨_, not_updates_strip (m := min (4 * j) 51) hk hheight ?_ (strip16 (by omega)) ?_ ?_
            hsmall memory⟩
          · show min (4 * j) 51 ≤ 8 * j / 2
            omega
          · show 10 * (min (4 * j) 51 * 4) < 2048
            omega
          · show 9 * (8 * j * 2) < 10 * (min (4 * j) 51 * 4)
            omega
      | rgb666 =>
          have hsmall' : 9 * (8 * j * 3) < 2048 := hsmall
          refine ⟨_, not_updates_strip (m := 3 * min (4 * j) 34) hk hheight ?_ (strip24 (by omega)) ?_ ?_
            hsmall memory⟩
          · show 3 * min (4 * j) 34 ≤ 8 * j * 3 / 2
            omega
          · show 10 * (3 * min (4 * j) 34 * 2) < 2048
            omega
          · show 9 * (8 * j * 3) < 10 * (3 * min (4 * j) 34 * 2)
            omega

end Runs

end Gds

end SqueezeliteMuse
