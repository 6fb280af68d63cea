/-
SqueezeliteMuse/GpioRuns.lean

Runs of the GPIO expanders' driver.

A call concerns one expander and tells the service task nothing (`Inv.call`); the
interrupt handler, the queue and the service task have the rest of the state.  The
invariant has every expander tidy, and wherever an interrupt is pending the service task
is notified or has not come to that expander yet.

Main result: `nothing_lost`: in a run of careful steps every change that is owed is
still to be found, the writes are made in order, the last one for a pin shows there,
and the service task does not wait for ever while there is something to do.  In other
runs `gpio_exp_set_direction` forgets a change (`changes_lost`), or
`gpio_exp_get_level` takes the interrupt back and tells nobody of the other pins.
-/
import SqueezeliteMuse.GpioTidy

namespace SqueezeliteMuse

namespace Gpio

/-! ### All expanders -/

variable {s s' : Sys} {l l' : Ledger} {i : ℕ} {w : Write} {e : Expander} {gpio : ℤ}

/-- An expander agrees with its page. -/
def Sys.TidyAt (s : Sys) (l : Ledger) (i : ℕ) : Prop :=
  ∀ e, s.exps[i]? = some e →
    Tidy e (s.dev i) (s.held i) (l.pages i) fun q => (i, q) ∈ s.leaving

/-- The service task will come to an expander. -/
def Sys.Comes (s : Sys) (i : ℕ) : Prop :=
  s.notif = some .intr ∨ ∃ j ≤ i, s.task = .serving j

/-- A write is for an output of an expander, and the pin stays the same when it is looked up. -/
def Sys.Takes (s : Sys) (w : Write) : Prop :=
  ∃ e, s.exps[w.expander]? = some e ∧ e.wMask.getLsbD (pin w.gpio) = true ∧
    (w.gpio % 2 ^ 32).toNat < e.first

/-- The driver agrees with the account, and the service task comes where it has to. -/
structure Inv (s : Sys) (l : Ledger) : Prop where
  tidy : ∀ i, s.TidyAt l i
  comes : ∀ i e, s.exps[i]? = some e → e.intrPending = true → s.Comes i
  awake : s.queue ≠ [] → s.task ≠ .waiting ∨ s.notif ≠ none ∨ 0 < s.sending
  writes : l.writes = s.owing
  takes : ∀ w ∈ s.owing, s.Takes w

theorem Inv.kept (h : Inv s l) : Kept s l where
  changes := fun i e he => (h.tidy i e he).kept
  levels := fun i e he q b hwins => ((h.tidy i e he).shown q b hwins).port
  writes := h.writes

theorem Inv.not_stuck (h : Inv s l) : ¬ s.Stuck := by
  rintro ⟨htask, hnotif, hsending, -, ⟨e, hmem, hpending⟩ | hqueue⟩
  · obtain ⟨i, he⟩ := List.mem_iff_getElem?.mp hmem
    rcases h.comes i e he ((h.tidy i e he).flagged hpending) with hcome | ⟨j, -, hcome⟩
    · rw [hnotif] at hcome
      cases hcome
    · rw [htask] at hcome
      cases hcome
  · rcases h.awake hqueue with hne | hne | hlt
    · exact hne htask
    · exact hne hnotif
    · omega

/-- What a call does to an expander, for the rest of the driver -/
structure Grows (e e' : Expander) : Prop where
  first : e'.first = e.first
  outputs : ∀ q, e.wMask.getLsbD q = true → e'.wMask.getLsbD q = true
  flagged : e'.intrPending = true → e.intrPending = true

theorem Grows.refl (e : Expander) : Grows e e := ⟨rfl, fun _ => id, id⟩

theorem Grows.rel_refl : ∀ o : Option Expander, Option.Rel Grows o o
  | none => .none
  | some e => .some (.refl e)

/-- Only one expander is concerned. -/
structure Only (i : ℕ) (s s' : Sys) : Prop where
  exps : ∀ j, j ≠ i → s'.exps[j]? = s.exps[j]?
  dev : ∀ j, j ≠ i → s'.dev j = s.dev j
  held : ∀ j, j ≠ i → s'.held j = s.held j
  leaving : ∀ j, j ≠ i → ∀ q, (j, q) ∈ s.leaving → (j, q) ∈ s'.leaving
  grows : Option.Rel Grows s.exps[i]? s'.exps[i]?

theorem Only.tidy (h : Only i s s') (htidy : ∀ j, s.TidyAt l j) (hi : s'.TidyAt l' i)
    (hpages : ∀ j, j ≠ i → l'.pages j = l.pages j) : ∀ j, s'.TidyAt l' j := by
  intro j
  by_cases hj : j = i
  · exact hj ▸ hi
  · intro e he
    rw [h.exps j hj] at he
    rw [h.dev j hj, h.held j hj, hpages j hj]
    exact (htidy j e he).mono (h.leaving j hj)

theorem Only.grow (h : Only i s s') (j : ℕ) : Option.Rel Grows s.exps[j]? s'.exps[j]? := by
  by_cases hj : j = i
  · exact hj ▸ h.grows
  · rw [h.exps j hj]
    exact Grows.rel_refl _

theorem Only.flagged (h : Only i s s') {j : ℕ} (he : s'.exps[j]? = some e)
    (hflag : e.intrPending = true) : ∃ e', s.exps[j]? = some e' ∧ e'.intrPending = true := by
  have hrel := h.grow j
  rw [he] at hrel
  cases hold : s.exps[j]? with
  | none =>
      rw [hold] at hrel
      cases hrel
  | some e' =>
      rw [hold] at hrel
      cases hrel with
      | some hgrows => exact ⟨e', rfl, hgrows.flagged hflag⟩

theorem Only.takes (h : Only i s s') (hw : s.Takes w) : s'.Takes w := by
  obtain ⟨e, he, houtput, hlt⟩ := hw
  have hrel := h.grow w.expander
  rw [he] at hrel
  cases hnew : s'.exps[w.expander]? with
  | none =>
      rw [hnew] at hrel
      cases hrel
  | some e' =>
      rw [hnew] at hrel
      cases hrel with
      | some hgrows => exact ⟨e', hnew, hgrows.outputs _ houtput, hgrows.first ▸ hlt⟩

/-- A call is for one expander, and nothing to the service task. -/
theorem Inv.call (h : Inv s l) (honly : Only i s s') (hi : s'.TidyAt l' i)
    (hpages : ∀ j, j ≠ i → l'.pages j = l.pages j) (hwrites : l'.writes = l.writes)
    (hrest : (s'.notif, s'.task, s'.queue, s'.sending) = (s.notif, s.task, s.queue, s.sending)) :
    Inv s' l' := by
  simp only [Prod.mk.injEq] at hrest
  obtain ⟨hnotif, htask, hqueue, hsending⟩ := hrest
  have howing : s'.owing = s.owing := by rw [Sys.owing, Sys.owing, htask, hqueue]
  refine ⟨honly.tidy h.tidy hi hpages, ?_, ?_, ?_, ?_⟩
  · intro j e he hflag
    obtain ⟨e', he', hflag'⟩ := honly.flagged he hflag
    have hcomes := h.comes j e' he' hflag'
    rwa [Sys.Comes, hnotif, htask]
  · rw [hqueue, htask, hnotif, hsending]
    exact h.awake
  · rw [hwrites, howing, h.writes]
  · intro w hw
    exact honly.takes (h.takes w (howing ▸ hw))

/-! ### The calls -/

/-- The observer accepts what a step shows and the invariant holds after it. -/
def Goes (l : Ledger) (r : Sys × List Obs) : Prop :=
  ∃ l', Runs.watch Ledger.next l r.2 = some l' ∧ Inv r.1 l'

theorem Inv.goes (h : Inv s l) : Goes l (s, []) := ⟨l, rfl, h⟩

theorem found_some {expander : Option ℕ} {g : ℤ} (h : s.found expander g = some (i, gpio, e)) :
    s.exps[i]? = some e ∧ ¬ (g < GPIO_NUM_MAX ∧ expander = none) ∧
      findExpander s.exps expander g = some (i, gpio) := by
  rw [Sys.found] at h
  split at h
  · cases h
  · rename_i hchip
    obtain ⟨⟨i', gpio'⟩, hfound, h⟩ := Option.bind_eq_some_iff.mp h
    obtain ⟨e', he, heq⟩ := Option.map_eq_some_iff.mp h
    cases heq
    exact ⟨he, hchip, hfound⟩

theorem set_self {es : List Expander} {e' : Expander} (he : es[i]? = some e) :
    (es.set i e')[i]? = some e' := by
  rw [List.getElem?_set_self', he]
  rfl

theorem tidyAt_set {e' : Expander} (he : s.exps[i]? = some e) (hexps : s'.exps = s.exps.set i e')
    (h : Tidy e' (s'.dev i) (s'.held i) (l'.pages i) fun q => (i, q) ∈ s'.leaving) :
    s'.TidyAt l' i := by
  intro e'' he''
  rw [hexps, set_self he] at he''
  cases he''
  exact h

theorem only_set {e' : Expander} (he : s.exps[i]? = some e) (hexps : s'.exps = s.exps.set i e')
    (hgrows : Grows e e') (hdev : ∀ j, j ≠ i → s'.dev j = s.dev j)
    (hheld : ∀ j, j ≠ i → s'.held j = s.held j)
    (hleaving : ∀ j, j ≠ i → ∀ q, (j, q) ∈ s.leaving → (j, q) ∈ s'.leaving) : Only i s s' := by
  refine ⟨fun j hj => ?_, hdev, hheld, hleaving, ?_⟩
  · rw [hexps, List.getElem?_set_ne (Ne.symm hj)]
  · rw [hexps, set_self he, he]
    exact .some hgrows

theorem change_goes (h : Inv s l) (i : ℕ) (levels : BitVec 32) :
    Goes l (s.step (.change i levels)) := by
  refine ⟨l, rfl, h.call (i := i) ⟨fun _ _ => rfl, ?_, fun _ _ => rfl, fun _ _ _ => id, ?_⟩ ?_
    (fun _ _ => rfl) rfl rfl⟩
  · intro j hj
    exact Function.update_of_ne hj _ _
  · exact Grows.rel_refl _
  · intro e he
    show Tidy e (Function.update s.dev i _ i) _ _ _
    rw [Function.update_self]
    exact (h.tidy i e he).change levels

theorem getLevel_goes (h : Inv s l) (gpio age : ℤ) (expander : Option ℕ) (now : BitVec 32) :
    Goes l (s.step (.getLevel gpio age expander now)) := by
  show Goes l (s.getLevel gpio age expander now)
  rw [Sys.getLevel]
  cases hfound : s.found expander gpio with
  | none => exact h.goes
  | some found =>
      obtain ⟨i, gpio, e⟩ := found
      obtain ⟨he, -, -⟩ := found_some hfound
      simp only
      by_cases hheld : s.held i = none
      · have htidy := h.tidy i e he
        rw [hheld] at htidy ⊢
        simp only [Option.isSome_none, Bool.false_eq_true, if_false]
        split
        · -- the expander is read
          refine ⟨_, rfl, h.call (i := i) ⟨fun _ _ => rfl, ?_, ?_, fun _ _ _ => id,
            Grows.rel_refl _⟩ ?_ ?_ rfl rfl⟩
          · exact fun j hj => Function.update_of_ne hj _ _
          · exact fun j hj => Function.update_of_ne hj _ _
          · intro e' he'
            cases he.symm.trans he'
            simp only [Function.update_self]
            exact htidy.hold gpio now
          · exact fun j hj => Function.update_of_ne hj _ _
        · refine ⟨l, rfl, h.call (i := i) (only_set he rfl ⟨rfl, fun _ => id, id⟩ (fun _ _ => rfl)
            (fun _ _ => rfl) ?_) (tidyAt_set he rfl ?_) (fun _ _ => rfl) rfl rfl⟩
          · exact fun j _ q hq => List.mem_cons_of_mem _ hq
          · simp only [hheld]
            apply (htidy.clear gpio).mono
            rintro q (rfl | hq)
            · exact List.mem_cons_self
            · exact List.mem_cons_of_mem _ hq
      · rw [if_pos (Option.isSome_iff_ne_none.mpr hheld)]
        exact h.goes

theorem getLevelLate_goes (h : Inv s l) (gpio : ℤ) (expander : Option ℕ) :
    Goes l (s.step (.getLevelLate gpio expander)) := by
  show Goes l (s.getLevelLate gpio expander, [])
  rw [Sys.getLevelLate]
  cases s.found expander gpio with
  | none => exact h.goes
  | some found =>
      obtain ⟨i, gpio, e⟩ := found
      refine ⟨l, rfl, h.call (i := i) ⟨fun _ _ => rfl, fun _ _ => rfl, fun _ _ => rfl, ?_,
        Grows.rel_refl _⟩ ?_ (fun _ _ => rfl) rfl rfl⟩
      · exact fun j _ q hq => List.mem_cons_of_mem _ hq
      · exact fun e he => (h.tidy i e he).mono fun q hq => List.mem_cons_of_mem _ hq

theorem store_goes (h : Inv s l) (i : ℕ) (hcareful : s.Careful (.store i)) :
    Goes l (s.step (.store i)) := by
  show Goes l (s.store i, [])
  rw [Sys.store]
  split
  · rename_i r e hheld he
    have hright := hcareful r hheld e he
    have htidy := h.tidy i e he
    rw [hheld] at htidy
    refine ⟨l, rfl, h.call (i := i) (only_set he rfl ⟨rfl, fun _ => id, id⟩ (fun _ _ => rfl)
      (fun j hj => Function.update_of_ne hj _ _) ?_) (tidyAt_set he rfl ?_) (fun _ _ => rfl)
      rfl rfl⟩
    · exact fun j _ q hq => List.mem_cons_of_mem _ hq
    · simp only [Function.update_self]
      apply (htidy.store hright).mono
      rintro q (rfl | hq)
      · exact List.mem_cons_self
      · exact List.mem_cons_of_mem _ hq
  · exact h.goes

theorem leave_goes (h : Inv s l) (i pin : ℕ) : Goes l (s.step (.leave i pin)) := by
  show Goes l (s.leave i pin)
  rw [Sys.leave]
  cases he : s.exps[i]? with
  | none => exact h.goes
  | some e =>
      simp only
      split
      · refine ⟨_, rfl, h.call (i := i) ⟨fun _ _ => rfl, fun _ _ => rfl, fun _ _ => rfl, ?_,
          Grows.rel_refl _⟩ ?_ ?_ rfl rfl⟩
        · intro j hj q hq
          exact (List.mem_erase_of_ne fun heq => hj (Prod.mk.inj heq).1).mpr hq
        · intro e' he'
          cases he.symm.trans he'
          simp only [Function.update_self]
          apply (h.tidy i e he).leave pin
          intro q hq
          by_cases hqp : q = pin
          · exact .inl hqp
          · exact .inr ((List.mem_erase_of_ne fun heq => hqp (Prod.mk.inj heq).2).mpr hq)
        · exact fun j hj => Function.update_of_ne hj _ _
      · exact h.goes

theorem modify_eq_set {es : List Expander} (he : es[i]? = some e) (f : Expander → Expander) :
    es.modify i f = es.set i (f e) := by
  have : Inhabited Expander := ⟨e⟩
  rw [List.modify_eq_set, he]
  rfl

theorem direction_goes (h : Inv s l) (gpio : ℤ) (mode : Mode) (expander : Option ℕ)
    (now driven : BitVec 32) (hcareful : s.Careful (.direction gpio mode expander now driven)) :
    Goes l (s.step (.direction gpio mode expander now driven)) := by
  show Goes l (s.direction gpio mode expander now driven)
  rw [Sys.direction]
  cases hfound : s.found expander gpio with
  | none => exact h.goes
  | some found =>
      obtain ⟨i, pin, e⟩ := found
      obtain ⟨he, hchip, hplace⟩ := found_some hfound
      simp only
      by_cases hheld : s.held i = none
      · have htidy := h.tidy i e he
        have hright := hcareful _ hfound (Option.isNone_iff_eq_none.mpr hheld)
        simp only at hright
        rw [hheld] at htidy ⊢
        simp only [Option.isSome_none, Bool.false_eq_true, if_false]
        generalize hvalue : { e with rMask := e.rMask ||| bit pin }.read (s.dev i).port = value
        have hset := setDirection_found (r := ⟨gpio, mode, expander, value, now⟩) hchip hplace he
        have happart := htidy.apart_direct ⟨gpio, mode, expander, value, now⟩ pin hright
        rw [if_neg (not_not.mpr happart), modify_eq_set he] at hset
        rw [hset]
        simp only
        have hgrows : Grows e (e.direct ⟨gpio, mode, expander, value, now⟩ pin) := by
          rw [Expander.direct]
          split
          · exact ⟨rfl, fun _ => id, id⟩
          · exact ⟨rfl, fun q hq => by rw [BitVec.getLsbD_or, hq, Bool.true_or], id⟩
        by_cases hmode : mode = .input
        · rw [if_pos hmode, if_pos hmode]
          refine ⟨_, rfl, h.call (i := i) (only_set he rfl hgrows ?_ (fun _ _ => rfl)
            fun _ _ _ => id) (tidyAt_set he rfl ?_) ?_ rfl rfl⟩
          · exact fun j hj => Function.update_of_ne hj _ _
          · simp only [Function.update_self, hheld]
            exact htidy.directInput _ pin hmode hvalue.symm hright driven
          · exact fun j hj => Function.update_of_ne hj _ _
        · rw [if_neg hmode, if_neg hmode]
          refine ⟨l, rfl, h.call (i := i) (only_set he rfl hgrows ?_ (fun _ _ => rfl)
            fun _ _ _ => id) (tidyAt_set he rfl ?_) (fun _ _ => rfl) rfl rfl⟩
          · exact fun j hj => Function.update_of_ne hj _ _
          · simp only [Function.update_self, hheld]
            exact htidy.directOutput _ pin hmode hright driven
      · rw [if_pos (Option.isSome_iff_ne_none.mpr hheld)]
        exact h.goes

theorem setLevel_goes (h : Inv s l) (gpio : ℤ) (level : Bool) (expander : Option ℕ)
    (hcareful : s.Careful (.setLevel gpio level expander)) :
    Goes l (s.step (.setLevel gpio level expander)) := by
  show Goes l (s.setLevel gpio level expander)
  rw [Sys.setLevel]
  cases hfound : s.found expander gpio with
  | none => exact h.goes
  | some found =>
      obtain ⟨i, gpio, e⟩ := found
      have hlt := hcareful _ hfound
      obtain ⟨he, -, -⟩ := found_some hfound
      simp only
      split
      · exact h.goes
      · rename_i houtput
        split
        · exact h.goes
        · rw [and_bit_eq_zero_iff, Bool.not_eq_false] at houtput
          have howing : Sys.owing { s with
              queue := s.queue ++ [⟨i, gpio, level⟩], sending := s.sending + 1 } =
                s.owing ++ [⟨i, gpio, level⟩] := by
            rw [Sys.owing, Sys.owing]
            cases s.task with
            | waiting | serving _ | draining | writing _ => rfl
          refine ⟨_, rfl, h.tidy, h.comes, fun _ => .inr (.inr (Nat.succ_pos _)), ?_, ?_⟩
          · rw [howing, h.writes]
          · intro w hw
            rw [howing, List.mem_append] at hw
            rcases hw with hw | hw
            · exact h.takes w hw
            · cases List.mem_singleton.mp hw
              exact ⟨e, he, houtput, hlt⟩

theorem notify_goes (h : Inv s l) : Goes l (s.step .notify) := by
  rw [Sys.step]
  split
  · exact h.goes
  · refine ⟨l, rfl, h.tidy, ?_, fun _ => .inr (.inl ?_), h.writes, h.takes⟩
    · intro i e he hflag
      apply (h.comes i e he hflag).imp_left
      intro hnotif
      show s.notif.or (some .write) = some .intr
      rw [hnotif, Option.some_or]
    · show s.notif.or (some .write) ≠ none
      cases s.notif with
      | none => exact Option.some_ne_none _
      | some n => exact Option.some_ne_none _

/-! ### The interrupt handler and the service task -/

theorem interrupt_goes (h : Inv s l) (intr : ℤ) : Goes l (s.step (.interrupt intr)) := by
  rw [Sys.step]
  split
  · rename_i henabled
    have hplace {i : ℕ} {e' : Expander} (he' : (s.intrIsrHandler intr).exps[i]? = some e') :
        ∃ e, s.exps[i]? = some e ∧
          e' = if e.intr = intr then { e with intrPending := true } else e := by
      obtain ⟨e, he, heq⟩ := Option.map_eq_some_iff.mp (List.getElem?_map.symm.trans he')
      exact ⟨e, he, heq.symm⟩
    refine ⟨l, rfl, ?_, fun _ _ _ _ => .inl rfl, fun _ => .inr (.inl (Option.some_ne_none _)),
      h.writes, ?_⟩
    · intro i e' he'
      obtain ⟨e, he, rfl⟩ := hplace he'
      split
      · rename_i hintr
        exact (h.tidy i e he).interrupt (hintr ▸ henabled.1)
      · exact h.tidy i e he
    · intro w hw
      obtain ⟨e, he, houtput, hlt⟩ := h.takes w hw
      refine ⟨if e.intr = intr then { e with intrPending := true } else e, ?_, ?_, ?_⟩
      · show (s.exps.map _)[w.expander]? = _
        rw [List.getElem?_map, he]
        rfl
      · split
        · exact houtput
        · exact houtput
      · split
        · exact hlt
        · exact hlt
  · exact h.goes

/-- What the service task does is seen for each pin. -/
theorem watch_handled (l : Ledger) (i : ℕ) (actions : List Action) :
    Runs.watch Ledger.next l (actions.map (.handled i)) =
      some ⟨Function.update l.pages i (actions.foldl Page.handled (l.pages i)), l.writes⟩ := by
  induction actions generalizing l with
  | nil => simp
  | cons a actions ih =>
      rw [List.map_cons, Runs.watch_cons, Ledger.next, Option.bind_some, ih]
      simp

theorem watch_serve (l : Ledger) (i : ℕ) (value inputs : BitVec 32) (actions : List Action) :
    Runs.watch Ledger.next l (.read i value inputs :: actions.map (.handled i)) =
      some ⟨Function.update l.pages i
        (actions.foldl Page.handled ((l.pages i).read value inputs)), l.writes⟩ := by
  rw [Runs.watch_cons, Ledger.next, Option.bind_some, watch_handled]
  simp

theorem serve_goes (h : Inv s l) (htask : s.task = .serving i) (now : BitVec 32)
    (posted : ℤ → Bool) (hright : s.ServesRight i posted) : Goes l (s.serve i now posted) := by
  have howing : s.owing = s.queue := by rw [Sys.owing, htask]
  have hwrites : l.writes = s.queue := h.writes.trans howing
  have htakes : ∀ w ∈ s.queue, s.Takes w := howing ▸ h.takes
  -- it goes on to the next one, and does not come to this again
  have hnext {j : ℕ} (hj : j ≠ i) (hcomes : s.Comes j) :
      s.notif = some .intr ∨ ∃ k ≤ j, Task.serving (i + 1) = .serving k := by
    apply hcomes.imp_right
    rintro ⟨k, hk, heq⟩
    rw [htask] at heq
    cases heq
    exact ⟨i + 1, by omega, rfl⟩
  rw [Sys.serve]
  cases he : s.exps[i]? with
  | none =>
      refine ⟨l, rfl, h.tidy, ?_, fun _ => .inl nofun, hwrites, htakes⟩
      intro j e hj hflag
      rcases h.comes j e hj hflag with hnotif | ⟨k, hk, heq⟩
      · exact .inl hnotif
      · rw [htask] at heq
        cases heq
        have hlen : s.exps.length ≤ i := List.getElem?_eq_none_iff.mp he
        have hlt : j < s.exps.length := (List.getElem?_eq_some_iff.mp hj).1
        omega
  | some e =>
      simp only
      have htidy := h.tidy i e he
      split
      · rename_i hskip
        refine ⟨l, rfl, h.tidy, ?_, fun _ => .inl nofun, hwrites, htakes⟩
        intro j e' hj hflag
        by_cases hji : j = i
        · subst hji
          cases he.symm.trans hj
          have hwired := htidy.wired hflag
          rcases hskip with hneg | hnot
          · omega
          · rw [hflag] at hnot
            cases hnot
        · exact hnext hji (h.comes j e' hj hflag)
      · rename_i hserve
        rw [not_or, Bool.not_eq_false, Int.not_lt] at hserve
        obtain ⟨hheld, hmet⟩ := hright e he hserve.1 hserve.2
        rw [Option.isNone_iff_eq_none] at hheld
        rw [hheld] at htidy
        have honly : Only i s { s with
            exps := s.exps.set i (e.serve (e.read (s.dev i).port) now).1
            dev := Function.update s.dev i (s.dev i).note
            enabled := Function.update s.enabled e.intr true
            task := .serving (i + 1) } :=
          only_set he rfl ⟨rfl, fun _ => id, nofun⟩ (fun j hj => Function.update_of_ne hj _ _)
            (fun _ _ => rfl) fun _ _ _ => id
        refine ⟨_, watch_serve .., honly.tidy h.tidy (tidyAt_set he rfl ?_)
          (fun j hj => Function.update_of_ne hj _ _), ?_, fun _ => .inl nofun, hwrites,
          fun w hw => honly.takes (htakes w hw)⟩
        · simp only [Function.update_self, hheld]
          exact htidy.serve now hmet
        · intro j e' hj hflag
          by_cases hji : j = i
          · -- its flag was taken back
            rw [hji] at hj
            cases (set_self he).symm.trans hj
            cases hflag
          · obtain ⟨e'', he'', hflag'⟩ := honly.flagged hj hflag
            exact hnext hji (h.comes j e'' he'' hflag')

/-- A write that was taken is found again. -/
theorem found_takes (h : s.Takes w) : ∃ e, s.exps[w.expander]? = some e ∧
    e.wMask.getLsbD (pin w.gpio) = true ∧
    s.found (some w.expander) w.gpio = some (w.expander, w.gpio, e) := by
  obtain ⟨e, he, houtput, hlt⟩ := h
  refine ⟨e, he, houtput, ?_⟩
  have hchip : ¬ (w.gpio < GPIO_NUM_MAX ∧ some w.expander = none) := fun h => by cases h.2
  rw [Sys.found, if_neg hchip, findExpander, Option.some_or, Option.bind_some, he, Option.map_some,
    if_neg (Nat.not_le.mpr hlt), Option.bind_some]
  simp only [he, Option.map_some]

/-- Where the task is not in its loop it comes because it is notified. -/
theorem Sys.Comes.notified (h : s.Comes i) (htask : ∀ j, s.task ≠ .serving j) :
    s.notif = some .intr :=
  h.resolve_right fun ⟨j, _, heq⟩ => htask j heq

theorem apply_goes (h : Inv s l) (htask : s.task = .writing w)
    (hright : ∀ x ∈ s.found (some w.expander) w.gpio,
      x.2.2.WritesRight (s.dev x.1) (pin x.2.1) w.level) : Goes l (s.apply w) := by
  have howing : s.owing = w :: s.queue := by rw [Sys.owing, htask]
  have hwrites : l.writes = w :: s.queue := h.writes.trans howing
  have htakes : ∀ w' ∈ w :: s.queue, s.Takes w' := howing ▸ h.takes
  obtain ⟨e, he, houtput, hfound⟩ := found_takes (htakes w List.mem_cons_self)
  have hwrite := hright _ hfound
  have hmask : e.wMask &&& bit w.gpio ≠ 0 := by
    rw [ne_eq, and_bit_eq_zero_iff, houtput]
    simp
  rw [Sys.apply, hfound]
  simp only [if_neg hmask]
  by_cases hheld : s.held w.expander = none
  · have htidy := h.tidy w.expander e he
    rw [hheld] at htidy ⊢
    simp only [Option.isSome_none, Bool.false_eq_true, if_false]
    have hnext : Ledger.next l (.applied w) = some ⟨Function.update l.pages w.expander
        ((l.pages w.expander).written (pin w.gpio) w.level), s.queue⟩ := by
      rw [Ledger.next, hwrites]
      simp
    have hgrows : Grows e (e.setLevel w.gpio w.level).1 := by
      by_cases hsame : e.shadow.getLsbD (pin w.gpio) = w.level
      · rw [setLevel_same hsame]
        exact .refl e
      · rw [setLevel_other hsame]
        exact ⟨rfl, fun _ => id, id⟩
    have honly : Only w.expander s { s with
        exps := s.exps.set w.expander (e.setLevel w.gpio w.level).1
        dev := if (e.setLevel w.gpio w.level).2 then
          Function.update s.dev w.expander
            ((s.dev w.expander).write (e.setLevel w.gpio w.level).1) else s.dev
        task := .draining } := by
      refine only_set he rfl hgrows (fun j hj => ?_) (fun _ _ => rfl) fun _ _ _ => id
      show (if _ then _ else _ : ℕ → Device) j = _
      split
      · exact Function.update_of_ne hj _ _
      · rfl
    refine ⟨_, by rw [Runs.watch_cons, hnext]; rfl, honly.tidy h.tidy (tidyAt_set he rfl ?_)
      (fun j hj => Function.update_of_ne hj _ _), ?_, fun _ => .inl nofun, rfl,
      fun w' hw' => honly.takes (htakes w' (List.mem_cons_of_mem _ hw'))⟩
    · have hwritten := htidy.setLevel w.gpio w.level houtput hwrite
      simp only [Function.update_self, hheld]
      split at hwritten
      · rename_i hset
        simpa [hset] using hwritten
      · rename_i hset
        simpa [hset] using hwritten
    · intro j e' hj hflag
      obtain ⟨e'', he'', hflag'⟩ := honly.flagged hj hflag
      exact .inl ((h.comes j e'' he'' hflag').notified fun k => by rw [htask]; nofun)
  · rw [if_pos (Option.isSome_iff_ne_none.mpr hheld)]
    exact h.goes

theorem service_goes (h : Inv s l) (now : BitVec 32) (posted : ℤ → Bool)
    (hcareful : s.Careful (.service now posted)) : Goes l (s.step (.service now posted)) := by
  show Goes l (s.serviceHandler now posted)
  rw [Sys.serviceHandler]
  rw [Sys.Careful] at hcareful
  cases htask : s.task with
  | waiting =>
      have howing : s.owing = s.queue := by rw [Sys.owing, htask]
      have hwrites : l.writes = s.queue := h.writes.trans howing
      have htakes : ∀ w ∈ s.queue, s.Takes w := howing ▸ h.takes
      cases hnotif : s.notif with
      | none => exact h.goes
      | some n =>
          cases n with
          | intr =>
              exact ⟨l, rfl, h.tidy, fun i e he hflag => .inr ⟨0, Nat.zero_le i, rfl⟩,
                fun _ => .inl nofun, hwrites, htakes⟩
          | write =>
              refine ⟨l, rfl, h.tidy, fun i e he hflag => ?_, fun _ => .inl nofun, hwrites, htakes⟩
              have hintr := (h.comes i e he hflag).notified fun j => by rw [htask]; nofun
              rw [hnotif] at hintr
              cases hintr
  | serving i =>
      rw [htask] at hcareful
      exact serve_goes h htask now posted hcareful
  | draining =>
      have howing : s.owing = s.queue := by rw [Sys.owing, htask]
      have hwrites : l.writes = s.queue := h.writes.trans howing
      have htakes : ∀ w ∈ s.queue, s.Takes w := howing ▸ h.takes
      have hcomes (i : ℕ) (e : Expander) (he : s.exps[i]? = some e) (hflag : e.intrPending = true) :
          s.notif = some .intr :=
        (h.comes i e he hflag).notified fun j => by rw [htask]; nofun
      cases hqueue : s.queue with
      | nil =>
          rw [hqueue] at hwrites htakes
          exact ⟨l, rfl, h.tidy, fun i e he hflag => .inl (hcomes i e he hflag),
            fun hne => absurd rfl hne, hwrites, htakes⟩
      | cons w queue =>
          rw [hqueue] at hwrites htakes
          exact ⟨l, rfl, h.tidy, fun i e he hflag => .inl (hcomes i e he hflag),
            fun _ => .inl nofun, hwrites, htakes⟩
  | writing w =>
      rw [htask] at hcareful
      exact apply_goes h htask hcareful

/-! ### Runs -/

/-- A careful step keeps the invariant. -/
theorem step_goes (h : Inv s l) (ev : Event) (hcareful : s.Careful ev) : Goes l (s.step ev) := by
  cases ev with
  | change i levels => exact change_goes h i levels
  | interrupt intr => exact interrupt_goes h intr
  | getLevel gpio age expander now => exact getLevel_goes h gpio age expander now
  | getLevelLate gpio expander => exact getLevelLate_goes h gpio expander
  | store i => exact store_goes h i hcareful
  | leave i pin => exact leave_goes h i pin
  | direction gpio mode expander now driven =>
      exact direction_goes h gpio mode expander now driven hcareful
  | setLevel gpio level expander => exact setLevel_goes h gpio level expander hcareful
  | notify => exact notify_goes h
  | service now posted => exact service_goes h now posted hcareful

/-- The invariant holds at the start. -/
theorem created_inv (h : Created s) : Inv s .start := by
  obtain ⟨hexps, hdev, -, hnotif, htask, hqueue, hsending⟩ := h
  have howing : s.owing = [] := by rw [Sys.owing, htask, hqueue]
  refine ⟨fun i e he => ?_, fun i e he hflag => ?_, fun hne => absurd hqueue hne, howing.symm, ?_⟩
  · obtain ⟨hflag, hpending, hr, hw⟩ := hexps e (List.mem_of_getElem? he)
    have hnone (q : ℕ) : e.rMask.getLsbD q = false := by
      rw [hr]
      exact BitVec.getLsbD_zero
    refine ⟨?_, nofun, nofun, fun hne => absurd hpending hne, ?_, ?_, ?_, nofun, ?_⟩
    · intro q hq
      exact absurd (hq.symm.trans (hnone q)) (by simp)
    · intro hset
      exact absurd (hset.symm.trans hflag) (by simp)
    · intro q hq
      exact absurd (hq.symm.trans (hnone q)) (by simp)
    · intro _
      rw [(hdev i).1, hw]
    · intro r hr
      exact absurd (hr.symm.trans (hdev i).2) (by simp)
  · obtain ⟨hnot, -⟩ := hexps e (List.mem_of_getElem? he)
    exact absurd (hflag.symm.trans hnot) (by simp)
  · rw [howing]
    exact fun w hw => absurd hw List.not_mem_nil

/-- In a run of careful steps the account is kept, nothing that is owed is lost, and the service
task does not wait while there is something to do. -/
theorem nothing_lost (s : Sys) (events : List Event) (hs : Created s)
    (hcareful : driver.Along Sys.Careful s events) :
    ∃ l, Runs.watch Ledger.next .start (driver.run s events).2 = some l ∧
      Kept (driver.run s events).1 l ∧ ¬ (driver.run s events).1.Stuck := by
  obtain ⟨l, hlog, h⟩ := Runs.Machine.run_watched driver (R := Inv) (P := Sys.Careful)
    (fun s l ev h hcareful => step_goes h ev hcareful) (created_inv hs) hcareful
  exact ⟨l, hlog, h.kept, h.not_stuck⟩

/-- One expander, before the first call. -/
def idle : Sys where
  exps := [{ handled with intrPending := false, rMask := 0 }]
  dev := fun _ => ⟨0, 0, 0⟩
  held := fun _ => none
  leaving := []
  enabled := fun _ => true
  notif := none
  task := .waiting
  queue := []
  sending := 0

theorem idle_created : Created idle :=
  ⟨by decide, fun _ => ⟨rfl, rfl⟩, rfl, rfl, rfl, rfl, rfl⟩

/-- The service task takes so many steps. -/
def services (n : ℕ) : List Event := List.replicate n (.service 0 fun _ => true)

/-- A change comes to its handler, and a level to a pin. -/
def served : List Event :=
  [.direction 40 .input none 0 0, .direction 42 .output none 0 0, .change 0 1, .interrupt 34] ++
    services 4 ++
    [.getLevel 40 10 none 20, .store 0, .leave 0 0, .setLevel 42 true none, .notify] ++ services 4

theorem nothing_lost_served :
    ∃ l, Runs.watch Ledger.next .start (driver.run idle served).2 = some l ∧
      Kept (driver.run idle served).1 l ∧ ¬ (driver.run idle served).1.Stuck :=
  nothing_lost idle served idle_created (by decide)

instance (s : Sys) : Decidable s.Outstanding := inferInstanceAs (Decidable (∃ x ∈ s.exps.zipIdx, _))

instance (s : Sys) : Decidable s.Stuck := inferInstanceAs (Decidable (_ ∧ _))

/-- A caller asks for pin 0 and takes the interrupt back that pin 1 has raised. -/
example : (driver.run idle [.direction 40 .input none 0 0, .direction 41 .input none 0 0,
    .change 0 2, .getLevel 40 0 none 0, .store 0, .leave 0 0]).1.Stuck := by
  decide

/-- Pin 0 has changed and the service task is notified when pin 1 is to be an input. -/
def overwritten : List Event :=
  [.direction 40 .input none 0 0, .change 0 1, .interrupt 34, .direction 41 .input none 0 0] ++
    services 4

theorem changes_lost : ¬ ∀ (s : Sys) (events : List Event), Created s →
    ∃ l, Runs.watch Ledger.next .start (driver.run s events).2 = some l ∧
      Kept (driver.run s events).1 l ∧ ¬ (driver.run s events).1.Stuck := by
  intro h
  obtain ⟨l, hlog, hkept, -⟩ := h idle overwritten idle_created
  have howed : (Runs.watch Ledger.next .start (driver.run idle overwritten).2).map
      (fun l => (l.pages 0).owed 0) = some true := by decide
  rw [hlog] at howed
  have hnone : ∀ e ∈ (driver.run idle overwritten).1.exps[0]?, action e.isr 0 ≠ none ∧
      e.pending.getLsbD 0 = false ∧
      (e.shadow ^^^ e.known ((driver.run idle overwritten).1.held 0)).getLsbD 0 = false := by
    decide
  have hleaving : (0, 0) ∉ (driver.run idle overwritten).1.leaving := by decide
  cases he : (driver.run idle overwritten).1.exps[0]? with
  | none => exact absurd he (by decide)
  | some e =>
      obtain ⟨haction, hpending, hknown⟩ := hnone e he
      rcases hkept.changes 0 e he 0 (Option.some.inj howed) haction with h | h | h
      · exact absurd (h.symm.trans hpending) (by simp)
      · exact hleaving h
      · exact absurd (h.symm.trans hknown) (by simp)

end Gpio

end SqueezeliteMuse
