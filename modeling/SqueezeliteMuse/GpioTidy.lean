/-
SqueezeliteMuse/GpioTidy.lean

What one expander has to do with the account that is kept of it.

`Tidy` says that the driver's data of an expander, its device and a caller that is in the
middle of a read agree with a page of the account.  Each step of the driver for the
expander is a lemma: what has been read, stored, returned, written or handled leaves it
tidy, if the step is a careful one.
-/
import SqueezeliteMuse.GpioEvents

namespace SqueezeliteMuse

namespace Gpio

/-! ### Bits -/

variable {e : Expander} {d : Device} {q : ℕ} {gpio : ℤ} {m value port : BitVec 32} {b level : Bool}

theorem pin_lt (gpio : ℤ) : pin gpio < 32 := by
  rw [pin]
  omega

theorem getLsbD_bit (gpio : ℤ) (q : ℕ) : (bit gpio).getLsbD q = decide (q = pin gpio) := by
  have hlt := pin_lt gpio
  show (1#32 <<< pin gpio).getLsbD q = _
  rw [BitVec.getLsbD_shiftLeft, BitVec.getLsbD_one]
  by_cases hq : q = pin gpio
  · simp [hq, hlt]
  · simp only [hq, decide_false]
    grind

theorem eq_zero_iff (m : BitVec 32) : m = 0 ↔ ∀ q, m.getLsbD q = false := by
  constructor
  · rintro rfl q
    exact BitVec.getLsbD_zero
  · intro h
    apply BitVec.eq_of_getLsbD_eq
    intro q _
    rw [h q]
    exact BitVec.getLsbD_zero.symm

theorem and_bit_eq_zero_iff (m : BitVec 32) (gpio : ℤ) :
    m &&& bit gpio = 0 ↔ m.getLsbD (pin gpio) = false := by
  simp only [eq_zero_iff, BitVec.getLsbD_and, getLsbD_bit]
  constructor
  · intro h
    simpa using h (pin gpio)
  · intro h q
    by_cases hq : q = pin gpio
    · simp [hq, h]
    · simp [hq]

theorem getLsbD_and_not (a m : BitVec 32) (q : ℕ) :
    (a &&& ~~~m).getLsbD q = (a.getLsbD q && !m.getLsbD q) := by
  rw [BitVec.getLsbD_and, BitVec.getLsbD_not]
  by_cases hq : q < 32
  · simp [hq]
  · simp [BitVec.getLsbD_of_ge a q (by omega)]

theorem getLsbD_blend (m a b : BitVec 32) (q : ℕ) :
    (blend m a b).getLsbD q = if m.getLsbD q then a.getLsbD q else b.getLsbD q := by
  rw [blend, BitVec.getLsbD_or, BitVec.getLsbD_and, getLsbD_and_not]
  cases m.getLsbD q <;> simp

/-- What is read shows a level that both the register and the pin have. -/
theorem read_shows (hshadow : e.shadow.getLsbD q = b) (hport : port.getLsbD q = b) :
    (e.read port).getLsbD q = b := by
  rw [Expander.read]
  split
  · exact hport
  · rw [getLsbD_blend]
    split
    · exact hport
    · exact hshadow

/-- A level that the shadow register has is not written. -/
theorem setLevel_same (h : e.shadow.getLsbD (pin gpio) = level) :
    e.setLevel gpio level = (e, false) := by
  have hzero : (bit gpio &&& e.shadow) ^^^ (if level then bit gpio else 0) = 0 := by
    rw [eq_zero_iff]
    intro q
    by_cases hq : q = pin gpio
    · cases level <;> simp [getLsbD_bit, hq, h]
    · cases level <;> simp [getLsbD_bit, hq]
  rw [Expander.setLevel]
  simp only [hzero, ne_eq, not_true_eq_false, if_false]

/-- Another is written. -/
theorem setLevel_other (h : e.shadow.getLsbD (pin gpio) ≠ level) :
    e.setLevel gpio level =
      ({ e with shadow := blend (bit gpio) (if level then bit gpio else 0) e.shadow }, true) := by
  have hne : (bit gpio &&& e.shadow) ^^^ (if level then bit gpio else 0) ≠ 0 := by
    rw [ne_eq, eq_zero_iff]
    intro hzero
    have hpin := hzero (pin gpio)
    cases level <;> simp [getLsbD_bit] at hpin h <;> simp [hpin] at h
  have hshadow : (e.shadow &&& ~~~((bit gpio &&& e.shadow) ||| (if level then bit gpio else 0))) |||
      (if level then bit gpio else 0) =
        blend (bit gpio) (if level then bit gpio else 0) e.shadow := by
    apply BitVec.eq_of_getLsbD_eq
    intro q _
    rw [getLsbD_blend, BitVec.getLsbD_or, getLsbD_and_not, BitVec.getLsbD_or, BitVec.getLsbD_and]
    by_cases hq : q = pin gpio
    · cases level <;> simp [getLsbD_bit, hq]
    · cases level <;> simp [getLsbD_bit, hq]
  rw [Expander.setLevel]
  simp only [hne, ne_eq, not_false_eq_true, if_true, hshadow]

/-! ### One expander -/

/-- A pin is an output in the masks of driver and device, and both have the same level of it. -/
structure Shows (wMask outs shadow port : BitVec 32) (q : ℕ) (b : Bool) : Prop where
  output : wMask.getLsbD q = true
  driven : outs.getLsbD q = true
  shadow : shadow.getLsbD q = b
  port : port.getLsbD q = b

/-- An expander agrees with its page; `leaving` are the pins that callers are about to return. -/
structure Tidy (e : Expander) (d : Device) (held : Option Reading) (page : Page)
    (leaving : ℕ → Prop) : Prop where
  seen : ∀ q, e.rMask.getLsbD q = true → (e.known held).getLsbD q = page.last.getLsbD q
  input : ∀ q, page.owed q = true → e.rMask.getLsbD q = true
  kept : ∀ q, page.owed q = true → action e.isr q ≠ none →
    e.pending.getLsbD q = true ∨ leaving q ∨ (e.shadow ^^^ e.known held).getLsbD q = true
  flagged : e.pending ≠ 0 → e.intrPending = true
  wired : e.intrPending = true → 0 ≤ e.intr
  apart : ∀ q, e.rMask.getLsbD q = true → e.wMask.getLsbD q = false
  told : e.settable = true → d.outs = e.wMask
  shown : ∀ q b, page.wins q = some b → Shows e.wMask d.outs e.shadow d.port q b
  fetched : ∀ r, held = some r → ∀ q b, page.wins q = some b → r.value.getLsbD q = b

variable {held : Option Reading} {page : Page} {leaving leaving' : ℕ → Prop} {r : Reading}

/-- More callers may be about to return. -/
theorem Tidy.mono (h : Tidy e d held page leaving) (hmore : ∀ q, leaving q → leaving' q) :
    Tidy e d held page leaving' where
  seen := h.seen
  input := h.input
  kept := fun q howed haction => (h.kept q howed haction).imp_right (.imp_left (hmore q))
  flagged := h.flagged
  wired := h.wired
  apart := h.apart
  told := h.told
  shown := h.shown
  fetched := h.fetched

/-- The other pins change. -/
theorem Tidy.change (h : Tidy e d held page leaving) (levels : BitVec 32) :
    Tidy e { d with port := blend d.outs d.port levels } held page leaving where
  seen := h.seen
  input := h.input
  kept := h.kept
  flagged := h.flagged
  wired := h.wired
  apart := h.apart
  told := h.told
  shown := by
    intro q b hwins
    have hshows := h.shown q b hwins
    refine ⟨hshows.output, hshows.driven, hshows.shadow, ?_⟩
    rw [getLsbD_blend, if_pos hshows.driven, hshows.port]
  fetched := h.fetched

/-- There is an interrupt. -/
theorem Tidy.interrupt (h : Tidy e d held page leaving) (hintr : 0 ≤ e.intr) :
    Tidy { e with intrPending := true } d held page leaving where
  seen := h.seen
  input := h.input
  kept := h.kept
  flagged := fun _ => rfl
  wired := fun _ => hintr
  apart := h.apart
  told := h.told
  shown := h.shown
  fetched := h.fetched

/-- While no caller has read, what is owed is pending or about to be returned. -/
theorem Tidy.stored (h : Tidy e d none page leaving) (howed : page.owed q = true)
    (haction : action e.isr q ≠ none) : e.pending.getLsbD q = true ∨ leaving q := by
  refine (h.kept q howed haction).imp_right (Or.resolve_right · ?_)
  rw [Expander.known, BitVec.xor_self]
  simp

/-- What a read owes is a change of an input. -/
theorem Page.owed_read {page : Page} {inputs : BitVec 32}
    (h : (page.read value inputs).owed q = true) :
    page.owed q = true ∨
      (page.last ^^^ value).getLsbD q = true ∧ inputs.getLsbD q = true := by
  simpa [Page.read] using h

theorem Tidy.input_read (h : Tidy e d held page leaving)
    (howed : (page.read value e.rMask).owed q = true) : e.rMask.getLsbD q = true :=
  (Page.owed_read howed).elim (h.input q) And.right

/-- What is owed after a read has changed in the shadow register. -/
theorem Tidy.owed_read (h : Tidy e d none page leaving)
    (howed : (page.read value e.rMask).owed q = true) :
    page.owed q = true ∨ (e.shadow ^^^ value).getLsbD q = true := by
  apply (Page.owed_read howed).imp_right
  rintro ⟨hchanged, hinput⟩
  rwa [BitVec.getLsbD_xor, ← h.seen q hinput, ← BitVec.getLsbD_xor] at hchanged

/-- A caller reads. -/
theorem Tidy.hold (h : Tidy e d none page leaving) (gpio : ℤ) (now : BitVec 32) :
    Tidy e d.note (some ⟨gpio, e.read d.port, now⟩) (page.read (e.read d.port) e.rMask)
      leaving where
  seen := fun _ _ => rfl
  input := fun _ howed => h.input_read howed
  kept := by
    intro q howed haction
    rcases h.owed_read howed with hold | hnew
    · exact (h.stored hold haction).imp_right .inl
    · exact .inr (.inr hnew)
  flagged := h.flagged
  wired := h.wired
  apart := h.apart
  told := h.told
  shown := h.shown
  fetched := by
    rintro r hr q b hwins
    cases hr
    exact read_shows (h.shown q b hwins).shadow (h.shown q b hwins).port

theorem getLsbD_clear (e : Expander) (gpio : ℤ) (q : ℕ) :
    (e.clear gpio).pending.getLsbD q = (e.pending.getLsbD q && !decide (q = pin gpio)) := by
  rw [Expander.clear, getLsbD_and_not, getLsbD_bit]

/-- A caller takes the pending bit of its pin with it. -/
theorem Tidy.clear (h : Tidy e d none page leaving) (gpio : ℤ) :
    Tidy (e.clear gpio) d none page fun q => q = pin gpio ∨ leaving q where
  seen := h.seen
  input := h.input
  kept := by
    intro q howed haction
    by_cases hq : q = pin gpio
    · exact .inr (.inl (.inl hq))
    · rcases h.stored howed haction with hpending | hleaving
      · left
        simp [getLsbD_clear, hq, hpending]
      · exact .inr (.inl (.inr hleaving))
  flagged := by
    intro hpending
    apply h.flagged
    intro hzero
    apply hpending
    rw [eq_zero_iff]
    intro q
    rw [getLsbD_clear, (eq_zero_iff e.pending).mp hzero, Bool.false_and]
  wired := h.wired
  apart := h.apart
  told := h.told
  shown := h.shown
  fetched := nofun

/-- A caller stores what it has read. -/
theorem Tidy.store (h : Tidy e d (some r) page leaving) (hright : e.StoresRight r) :
    Tidy ((e.store r).clear r.gpio) d none page fun q => q = pin r.gpio ∨ leaving q where
  seen := h.seen
  input := h.input
  kept := by
    intro q howed haction
    by_cases hq : q = pin r.gpio
    · exact .inr (.inl (.inl hq))
    · have hpending : (e.store r).pending.getLsbD q = true ∨ leaving q := by
        show (e.pending ||| ((e.shadow ^^^ r.value) &&& e.rMask)).getLsbD q = true ∨ leaving q
        rw [BitVec.getLsbD_or, BitVec.getLsbD_and, h.input q howed, Bool.and_true, Bool.or_eq_true]
        rcases h.kept q howed haction with hpending | hleaving | hchanged
        · exact .inl (.inl hpending)
        · exact .inr hleaving
        · exact .inl (.inr hchanged)
      rcases hpending with hpending | hleaving
      · left
        simp [getLsbD_clear, hq, hpending]
      · exact .inr (.inl (.inr hleaving))
  flagged := by
    intro hpending
    rcases hright with hnone | hcoming
    · apply h.flagged
      intro hzero
      apply hpending
      have hstored : (e.store r).pending = (e.shadow ^^^ r.value) &&& e.rMask := by
        rw [Expander.store, hzero]
        exact BitVec.zero_or
      show (e.store r).pending &&& ~~~bit r.gpio = 0
      rw [hstored, hnone]
    · exact hcoming
  wired := h.wired
  apart := h.apart
  told := h.told
  shown := by
    intro q b hwins
    have hshows := h.shown q b hwins
    exact ⟨hshows.output, hshows.driven, h.fetched r rfl q b hwins, hshows.port⟩
  fetched := nofun

/-- A caller returns the level. -/
theorem Tidy.leave (h : Tidy e d held page leaving) (p : ℕ)
    (hmost : ∀ q, leaving q → q = p ∨ leaving' q) :
    Tidy e d held (page.returned p (e.shadow.getLsbD p)) leaving' where
  seen := h.seen
  input := by
    intro q howed
    exact h.input q (Bool.and_eq_true_iff.mp howed).1
  kept := by
    intro q howed haction
    obtain ⟨hold, hother⟩ := Bool.and_eq_true_iff.mp howed
    rcases h.kept q hold haction with hpending | hleaving | hchanged
    · exact .inl hpending
    · rcases hmost q hleaving with rfl | hleaving
      · -- if it is not what was read last, another caller has read the pin
        have hlast := h.seen q (h.input q hold)
        right
        right
        rw [BitVec.getLsbD_xor, hlast]
        simpa using hother
      · exact .inr (.inl hleaving)
    · exact .inr (.inr hchanged)
  flagged := h.flagged
  wired := h.wired
  apart := h.apart
  told := h.told
  shown := h.shown
  fetched := h.fetched

/-- The masks of a careful call have no pin in common. -/
theorem Tidy.apart_direct (h : Tidy e d held page leaving) (r : Request) (gpio : ℤ)
    (hright : e.DirectsRight gpio r.mode d.port) :
    (e.direct r gpio).rMask &&& (e.direct r gpio).wMask = 0 := by
  rw [eq_zero_iff]
  intro q
  rw [BitVec.getLsbD_and, Bool.and_eq_false_imp]
  rw [Expander.DirectsRight] at hright
  rw [Expander.direct]
  split at hright
  · rename_i hmode
    rw [if_pos hmode]
    intro hq
    rw [BitVec.getLsbD_or, getLsbD_bit, Bool.or_eq_true, decide_eq_true_eq] at hq
    rcases hq with hq | rfl
    · exact h.apart q hq
    · exact (and_bit_eq_zero_iff e.wMask gpio).mp hright.1
  · rename_i hmode
    rw [if_neg hmode]
    intro hq
    show (e.wMask ||| bit gpio).getLsbD q = false
    rw [BitVec.getLsbD_or, h.apart q hq, getLsbD_bit, Bool.false_or, decide_eq_false_iff_not]
    rintro rfl
    exact absurd (hq.symm.trans ((and_bit_eq_zero_iff e.rMask gpio).mp hright)) (by simp)

theorem tell_outs (h : e.settable = true) (d : Device) (driven : BitVec 32) :
    (d.tell e.told driven).outs = e.wMask := by
  rw [Expander.told, if_pos h]
  rfl

/-- A device that is told its masks goes on to drive its outputs as it did. -/
theorem tell_shows (h : Shows e.wMask d.outs e.shadow d.port q b) (driven : BitVec 32) :
    Shows e.wMask (d.tell e.told driven).outs e.shadow (d.tell e.told driven).port q b := by
  rw [Expander.told]
  split
  · refine ⟨h.output, h.output, h.shadow, ?_⟩
    show (blend (e.wMask &&& ~~~d.outs) driven d.port).getLsbD q = b
    rw [getLsbD_blend, getLsbD_and_not, h.driven, Bool.not_true, Bool.and_false,
      if_neg Bool.false_ne_true, h.port]
  · exact h

/-- A pin is to be an input. -/
theorem Tidy.directInput (h : Tidy e d none page leaving) (r : Request) (gpio : ℤ)
    (hmode : r.mode = .input)
    (hvalue : r.value = { e with rMask := e.rMask ||| bit gpio }.read d.port)
    (hright : e.DirectsRight gpio r.mode d.port) (driven : BitVec 32) :
    Tidy (e.direct r gpio) (d.note.tell (e.direct r gpio).told driven) none
      (page.read r.value e.rMask) leaving := by
  rw [Expander.DirectsRight, if_pos hmode] at hright
  obtain ⟨hapart, hnone⟩ := hright
  rw [Expander.direct, if_pos hmode]
  have hmore {q : ℕ} (hq : e.rMask.getLsbD q = true) : (e.rMask ||| bit gpio).getLsbD q = true := by
    rw [BitVec.getLsbD_or, hq, Bool.true_or]
  refine ⟨fun _ _ => rfl, fun _ howed => hmore (h.input_read howed), ?_, h.flagged, h.wired, ?_,
    fun hset => tell_outs hset d.note driven, ?_, fun _ hheld => by cases hheld⟩
  · intro q howed haction
    rcases h.owed_read howed with hold | hnew
    · exact (h.stored hold haction).imp_right .inl
    · left
      have hinput := h.input_read howed
      exact hnone q (BitVec.lt_of_getLsbD hinput) (hvalue ▸ hnew) hinput haction
  · intro q hq
    rw [BitVec.getLsbD_or, getLsbD_bit, Bool.or_eq_true, decide_eq_true_eq] at hq
    rcases hq with hq | rfl
    · exact h.apart q hq
    · exact (and_bit_eq_zero_iff e.wMask gpio).mp hapart
  · intro q b hwins
    have hshows := h.shown q b hwins
    apply tell_shows
    refine ⟨hshows.output, hshows.driven, ?_, hshows.port⟩
    rw [hvalue]
    exact read_shows hshows.shadow hshows.port

/-- A pin is to be an output. -/
theorem Tidy.directOutput (h : Tidy e d none page leaving) (r : Request) (gpio : ℤ)
    (hmode : r.mode ≠ .input) (hright : e.DirectsRight gpio r.mode d.port) (driven : BitVec 32) :
    Tidy (e.direct r gpio) (d.tell (e.direct r gpio).told driven) none page leaving := by
  rw [Expander.DirectsRight, if_neg hmode] at hright
  rw [Expander.direct, if_neg hmode]
  refine ⟨h.seen, h.input, h.kept, h.flagged, h.wired, ?_, fun hset => tell_outs hset d driven, ?_,
    fun _ hheld => by cases hheld⟩
  · intro q hq
    rw [BitVec.getLsbD_or, h.apart q hq, getLsbD_bit, Bool.false_or, decide_eq_false_iff_not]
    rintro rfl
    rw [(and_bit_eq_zero_iff e.rMask gpio).mp hright] at hq
    cases hq
  · intro q b hwins
    have hshows := h.shown q b hwins
    apply tell_shows
    refine ⟨?_, hshows.driven, hshows.shadow, hshows.port⟩
    rw [BitVec.getLsbD_or, hshows.output, Bool.true_or]

theorem wins_written {page : Page} {p : ℕ} (h : (page.written p level).wins q = some b) :
    q = p ∧ level = b ∨ q ≠ p ∧ page.wins q = some b := by
  by_cases hq : q = p
  · left
    simpa [Page.written, hq] using h
  · right
    simpa [Page.written, hq] using h

/-- When it is written, an expander drives all its outputs. -/
theorem Tidy.drives (h : Tidy e d held page leaving) {e' : Expander}
    (hset : e'.settable = e.settable) (hr : e'.rMask = e.rMask) (hw : e'.wMask = e.wMask)
    (hq : e.wMask.getLsbD q = true) : (d.write e').outs.getLsbD q = true := by
  show (if e'.settable then d.outs else e'.wMask &&& ~~~e'.rMask).getLsbD q = true
  rw [hset, hr, hw]
  split
  · rename_i htold
    rw [h.told htold, hq]
  · rw [getLsbD_and_not, hq, Bool.true_and, Bool.not_eq_true']
    by_contra hinput
    exact absurd (hq.symm.trans (h.apart q (by simpa using hinput))) (by simp)

/-- A level that the shadow register does not have is written to an output. -/
theorem Tidy.write (h : Tidy e d none page leaving) {e' : Expander} {p : ℕ}
    (heq : e' = { e with shadow := e'.shadow })
    (hshadow : ∀ q, e'.shadow.getLsbD q = if q = p then level else e.shadow.getLsbD q)
    (houtput : e.wMask.getLsbD p = true) :
    Tidy e' (d.write e') none (page.written p level) leaving := by
  have hdrives {q : ℕ} (hq : e.wMask.getLsbD q = true) : (d.write e').outs.getLsbD q = true :=
    h.drives (by rw [heq]) (by rw [heq]) (by rw [heq]) hq
  have hport {q : ℕ} (hq : e.wMask.getLsbD q = true) :
      (d.write e').port.getLsbD q = e'.shadow.getLsbD q := by
    show (blend (d.write e').outs e'.shadow d.port).getLsbD q = _
    rw [getLsbD_blend, if_pos (hdrives hq)]
  have hshown {q : ℕ} {b : Bool} (hq : e.wMask.getLsbD q = true) (hb : e'.shadow.getLsbD q = b) :
      Shows e.wMask (d.write e').outs e'.shadow (d.write e').port q b :=
    ⟨hq, hdrives hq, hb, (hport hq).trans hb⟩
  rw [heq] at hdrives hport hshown ⊢
  refine ⟨?_, h.input, ?_, h.flagged, h.wired, h.apart, ?_, ?_, nofun⟩
  · intro q hq
    have hne : q ≠ p := by
      rintro rfl
      exact absurd (houtput.symm.trans (h.apart q hq)) (by simp)
    exact (hshadow q).trans ((if_neg hne).trans (h.seen q hq))
  · intro q howed haction
    exact (h.stored howed haction).imp_right .inl
  · intro hset
    show (if e.settable = true then d.outs else _) = e.wMask
    rw [if_pos hset, h.told hset]
  · intro q b hwins
    rcases wins_written hwins with ⟨rfl, rfl⟩ | ⟨hne, hwins⟩
    · exact hshown houtput (by rw [hshadow, if_pos rfl])
    · have hshows := h.shown q b hwins
      exact hshown hshows.output (by rw [hshadow, if_neg hne, hshows.shadow])

/-- A write is made to an output. -/
theorem Tidy.setLevel (h : Tidy e d none page leaving) (gpio : ℤ) (level : Bool)
    (houtput : e.wMask.getLsbD (pin gpio) = true) (hright : e.WritesRight d (pin gpio) level) :
    Tidy (e.setLevel gpio level).1
      (if (e.setLevel gpio level).2 then d.write (e.setLevel gpio level).1 else d) none
      (page.written (pin gpio) level) leaving := by
  by_cases hsame : e.shadow.getLsbD (pin gpio) = level
  · obtain ⟨hdriven, hport⟩ := hright.resolve_left (not_not.mpr hsame)
    rw [setLevel_same hsame]
    refine ⟨h.seen, h.input, h.kept, h.flagged, h.wired, h.apart, h.told, ?_, nofun⟩
    intro q b hwins
    rcases wins_written hwins with ⟨rfl, rfl⟩ | ⟨-, hwins⟩
    · exact ⟨houtput, hdriven, hsame, hport⟩
    · exact h.shown q b hwins
  · rw [setLevel_other hsame]
    apply h.write rfl _ houtput
    intro q
    rw [getLsbD_blend, getLsbD_bit]
    by_cases hq : q = pin gpio
    · cases level <;> simp [hq, getLsbD_bit]
    · simp [hq]

/-! ### The service task's turn -/

variable {isr : ℤ → Isr} {posted : ℤ → Bool} {actions : List Action}

/-- What is done for a pin -/
theorem action_done {a : Action} (h : action isr q = some a)
    (hposted : (isr q).timer = true → posted q = true) : a.pin = q ∧ a.done posted = true := by
  rw [action] at h
  split at h
  · rename_i htimer
    cases h
    exact ⟨rfl, hposted htimer⟩
  · split at h
    · cases h
      exact ⟨rfl, rfl⟩
    · cases h

/-- Where the mask is met, something is done for each of its pins. -/
theorem Met.done (hmet : Met isr posted m) (hq : m.getLsbD q = true)
    (haction : action isr q ≠ none) :
    ∃ a ∈ ((dispatch isr m).getD []).filter (Action.done posted), a.pin = q := by
  obtain ⟨⟨p, hp, hhit⟩, hposted⟩ := hmet q (BitVec.lt_of_getLsbD hq) hq haction
  obtain ⟨a, ha⟩ := Option.ne_none_iff_exists'.mp haction
  obtain ⟨hpin, hdone⟩ := action_done ha hposted
  refine ⟨a, List.mem_filter.mpr ⟨?_, hdone⟩, hpin⟩
  rw [dispatch_eq, Option.getD_some, List.mem_filterMap, targets_all]
  exact ⟨q, List.mem_map.mpr ⟨p, hp, hhit⟩, ha⟩

theorem owed_handled (page : Page) (actions : List Action) (q : ℕ) :
    (actions.foldl Page.handled page).owed q =
      (page.owed q && actions.all fun a => !decide (a.pin = q)) := by
  induction actions generalizing page with
  | nil => rw [List.foldl_nil, List.all_nil, Bool.and_true]
  | cons a actions ih =>
      rw [List.foldl_cons, ih, List.all_cons, ← Bool.and_assoc]
      rfl

theorem wins_handled (page : Page) (actions : List Action) :
    (actions.foldl Page.handled page).wins = page.wins ∧
      (actions.foldl Page.handled page).last = page.last := by
  induction actions generalizing page with
  | nil => exact ⟨rfl, rfl⟩
  | cons a actions ih => exact ih (page.handled a)

/-- The service task reads an expander and does what is to be done. -/
theorem Tidy.serve (h : Tidy e d none page leaving) (now : BitVec 32)
    (hmet : Met e.isr posted (e.changes (e.read d.port))) :
    Tidy (e.serve (e.read d.port) now).1 d.note none
      ((((e.serve (e.read d.port) now).2.getD []).filter (Action.done posted)).foldl
        Page.handled (page.read (e.read d.port) e.rMask)) leaving := by
  refine ⟨?_, ?_, ?_, fun hne => absurd rfl hne, nofun, h.apart, h.told, ?_, nofun⟩
  · intro q _
    rw [(wins_handled _ _).2]
    rfl
  · intro q howed
    rw [owed_handled, Bool.and_eq_true] at howed
    exact h.input_read howed.1
  · intro q howed haction
    rw [owed_handled, Bool.and_eq_true, List.all_eq_true] at howed
    have hpending : (e.changes (e.read d.port)).getLsbD q = true ∨ leaving q := by
      rw [Expander.changes, BitVec.getLsbD_or, Bool.or_eq_true]
      rcases h.owed_read howed.1 with hold | hnew
      · exact (h.stored hold haction).imp_left .inl
      · exact .inl (.inr (by rw [BitVec.getLsbD_and, hnew, h.input_read howed.1]; rfl))
    rcases hpending with hpending | hleaving
    · obtain ⟨a, ha, hpin⟩ := hmet.done hpending haction
      have hnot := howed.2 a ha
      rw [hpin] at hnot
      simp at hnot
    · exact .inr (.inl hleaving)
  · intro q b hwins
    rw [(wins_handled _ _).1] at hwins
    have hshows := h.shown q b hwins
    exact ⟨hshows.output, hshows.driven, read_shows hshows.shadow hshows.port, hshows.port⟩

end Gpio

end SqueezeliteMuse
