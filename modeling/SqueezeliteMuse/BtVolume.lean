/-
SqueezeliteMuse/BtVolume.lean

The volume of the Bluetooth sink.

A controller sets an absolute volume, or the volume is changed here in steps; a controller that has
registered for it is told of the next change here.  The volume that is kept for the next connection
is the last one set here while the controller did not use absolute volumes.

`volume_set_by_controller` scales the volume to 0..100, and everything else takes it for one of
0..127, the output as well.

Main result: `volume_sound_iff`: the volume is right in a run if and only if every absolute volume
in it is 0, and the kept volume is in range when a controller connects.
-/
import Mathlib.Algebra.Order.Ring.Int
import Mathlib.Data.Int.Notation
import Mathlib.Data.List.Induction
import Mathlib.Data.List.Infix
import Mathlib.Tactic.Common

namespace SqueezeliteMuse

namespace BtVolume

/-! ### The code -/

/-- `s_volume`, `abs_volume`, `sink_volume` and `s_volume_notify` -/
structure Sink where
  volume : ℤ
  absVolume : ℤ
  sinkVolume : ℤ
  notify : Bool
  deriving DecidableEq

/-- What the sink does. -/
inductive Out
  /-- `BT_SINK_VOLUME`, to the output. -/
  | apply (volume : ℤ)
  /-- `bt_sink_volume` is written. -/
  | store (volume : ℤ)
  /-- `ESP_AVRC_RN_RSP_INTERIM`, to the controller. -/
  | interim (volume : ℤ)
  /-- `ESP_AVRC_RN_RSP_CHANGED`, to the controller. -/
  | changed (volume : ℤ)
  deriving DecidableEq

inductive Event
  /-- `ESP_AVRC_TG_SET_ABSOLUTE_VOLUME_CMD_EVT` -/
  | controller (volume : UInt8)
  /-- `bt_volume_up` and `bt_volume_down`, with a step of +3 and -3. -/
  | localHost (value : ℤ) (isStep : Bool)
  /-- `ESP_A2D_CONNECTION_STATE_CONNECTED` -/
  | connected
  /-- `ESP_A2D_AUDIO_STATE_STARTED` -/
  | audioStarted
  /-- `ESP_AVRC_TG_REGISTER_NOTIFICATION_EVT`, of `ESP_AVRC_RN_VOLUME_CHANGE`. -/
  | register
  deriving DecidableEq

/-- `volume_set_by_controller` -/
def volumeSetByController (volume : UInt8) (s : Sink) : Sink × List Out :=
  let v : ℤ := (volume.toNat * 100 / 127 : ℕ)
  ({ s with volume := v, absVolume := v }, [.apply v])

/-- The bounds of `volume_set_by_local_host`. -/
def clamp (volume : ℤ) : ℤ := if volume > 127 then 127 else if volume < 0 then 0 else volume

/-- What `volume_set_by_local_host` does, and `BT_SINK_VOLUME` behind it. -/
def localOuts (stores notifies : Bool) (volume : ℤ) : List Out :=
  (if stores then [.store volume] else []) ++ (if notifies then [.changed volume] else []) ++
    [.apply volume]

/-- `volume_set_by_local_host` -/
def volumeSetByLocalHost (value : ℤ) (isStep : Bool) (s : Sink) : Sink × List Out :=
  let v := clamp (if isStep then s.volume + value else value)
  let t : Sink :=
    if s.absVolume ≥ 0 then { s with volume := v, absVolume := v }
    else { s with volume := v, sinkVolume := v }
  ({ t with notify := false }, localOuts (t.absVolume < 0) t.notify v)

/-- What an event does. -/
def Event.act : Event → Sink → Sink × List Out
  | .controller volume, s => volumeSetByController volume s
  | .localHost value isStep, s => volumeSetByLocalHost value isStep s
  | .connected, s => ({ s with absVolume := -1, volume := s.sinkVolume }, [])
  | .audioStarted, s => (s, [.apply s.volume])
  | .register, s => ({ s with notify := true }, [.interim s.volume])

/-- The sink after events. -/
def after (s : Sink) (events : List Event) : Sink := events.foldl (fun s e => (e.act s).1) s

/-- The sink at first; `setting` is what `bt_sink_volume` has. -/
def init (setting : ℤ) : Sink := ⟨0, 0, setting, false⟩

/-! ### What is required -/

/-- What is known of a run from its events: the volume that was last set, the one that is kept for
the next connection, whether changes here go to the kept one, and whether a registration waits. -/
structure Wish where
  volume : ℤ
  kept : ℤ
  keeps : Bool
  registered : Bool
  deriving DecidableEq

def Wish.init (setting : ℤ) : Wish := ⟨0, setting, false, false⟩

/-- The event, as it is wished for. -/
def Wish.next (m : Wish) : Event → Wish
  | .controller volume => { m with volume := volume.toNat, keeps := false }
  | .localHost value isStep =>
      let v := clamp (if isStep then m.volume + value else value)
      { m with volume := v, kept := if m.keeps then v else m.kept, registered := false }
  | .connected => { m with volume := m.kept, keeps := true }
  | .audioStarted => m
  | .register => { m with registered := true }

def Wish.after (m : Wish) (events : List Event) : Wish := events.foldl Wish.next m

/-- The volumes of the responses `CHANGED`. -/
def changes (outs : List Out) : List ℤ :=
  outs.filterMap fun
    | .changed v => some v
    | _ => none

/-- The event is a change of the volume here. -/
def Event.isLocal : Event → Bool
  | .localHost _ _ => true
  | _ => false

/-- The volume is applied at the event. -/
def Event.applies : Event → Bool
  | .controller _ | .localHost _ _ | .audioStarted => true
  | _ => false

/-- What the sink does at an event is right. -/
structure Right (m : Wish) (e : Event) (outs : List Out) : Prop where
  /-- The volume is one of 0..127. -/
  scale : 0 ≤ (m.next e).volume ∧ (m.next e).volume ≤ 127
  applied : ∀ v, Out.apply v ∈ outs → v = (m.next e).volume
  applies : e.applies → Out.apply (m.next e).volume ∈ outs
  reported : ∀ v, Out.interim v ∈ outs → v = (m.next e).volume
  /-- One response for a registration, at the next change here. -/
  changed : changes outs = if m.registered && e.isLocal then [(m.next e).volume] else []
  stored : ∀ v, Out.store v ∈ outs → e.isLocal ∧ m.keeps ∧ v = (m.next e).volume

/-- All that the sink does in a run is right. -/
def Sound (setting : ℤ) (events : List Event) : Prop :=
  ∀ past e, past ++ [e] <+: events →
    Right ((Wish.init setting).after past) e (e.act (after (init setting) past)).2

/-- An absolute volume is 0, and the kept volume is in range when a controller connects. -/
def Fine (m : Wish) : Event → Prop
  | .controller volume => volume = 0
  | .connected => 0 ≤ m.kept ∧ m.kept ≤ 127
  | _ => True

/-! ### Changes here -/

variable {s : Sink} {m : Wish} {e : Event} {stores notifies : Bool} {v w : ℤ}

theorem clamp_range (v : ℤ) : 0 ≤ clamp v ∧ clamp v ≤ 127 := by
  rw [clamp]
  split
  · decide
  · split
    · decide
    · omega

theorem apply_mem_localOuts : Out.apply w ∈ localOuts stores notifies v ↔ w = v := by
  cases stores <;> cases notifies <;> simp [localOuts]

theorem interim_not_mem_localOuts : Out.interim w ∉ localOuts stores notifies v := by
  cases stores <;> cases notifies <;> simp [localOuts]

theorem store_mem_localOuts :
    Out.store w ∈ localOuts stores notifies v ↔ stores = true ∧ w = v := by
  cases stores <;> cases notifies <;> simp [localOuts]

theorem changes_localOuts :
    changes (localOuts stores notifies v) = if notifies then [v] else [] := by
  cases stores <;> cases notifies <;> rfl

/-! ### Runs -/

/-- The sink has what is wished for. -/
structure Meets (s : Sink) (m : Wish) : Prop where
  volume : s.volume = m.volume
  kept : s.sinkVolume = m.kept
  keeps : m.keeps = decide (s.absVolume < 0)
  notify : s.notify = m.registered
  scale : 0 ≤ m.volume ∧ m.volume ≤ 127

theorem meets_init (setting : ℤ) : Meets (init setting) (Wish.init setting) :=
  ⟨rfl, rfl, rfl, rfl, by simp [Wish.init]⟩

/-- What a change here does, in terms of what is wished for. -/
theorem Meets.localHost (h : Meets s m) (value : ℤ) (isStep : Bool) :
    Event.act (.localHost value isStep) s =
      (⟨(m.next (.localHost value isStep)).volume,
        if m.keeps then s.absVolume else (m.next (.localHost value isStep)).volume,
        (m.next (.localHost value isStep)).kept, false⟩,
        localOuts m.keeps m.registered (m.next (.localHost value isStep)).volume) := by
  obtain ⟨hvolume, hkept, hkeeps, hnotify, -⟩ := h
  have hclamp := clamp_range (if isStep then m.volume + value else value)
  simp only [Event.act, volumeSetByLocalHost, Wish.next, hvolume]
  rcases Int.lt_or_le s.absVolume 0 with habs | habs
  · rw [decide_eq_true habs] at hkeeps
    rw [if_neg (Int.not_le.mpr habs), hkeeps]
    simp only [habs, decide_true, if_true, hnotify]
  · rw [decide_eq_false (Int.not_lt.mpr habs)] at hkeeps
    rw [if_pos habs, hkeeps]
    simp only [Int.not_lt.mpr hclamp.1, decide_false, Bool.false_eq_true, if_false, hnotify, hkept]

/-- An event that is fine is met. -/
theorem Meets.act (h : Meets s m) (hfine : Fine m e) : Meets (e.act s).1 (m.next e) := by
  obtain ⟨hvolume, hkept, hkeeps, hnotify, hscale⟩ := h
  cases e with
  | controller volume =>
    have hzero : volume = 0 := hfine
    subst hzero
    exact ⟨rfl, hkept, rfl, hnotify, by simp [Wish.next]⟩
  | localHost value isStep =>
    rw [Meets.localHost ⟨hvolume, hkept, hkeeps, hnotify, hscale⟩]
    have hclamp := clamp_range (if isStep then m.volume + value else value)
    refine ⟨rfl, rfl, ?_, rfl, hclamp⟩
    show m.keeps = _
    split
    case isTrue => exact hkeeps
    case isFalse hno =>
      rw [eq_false_of_ne_true hno]
      exact (decide_eq_false (Int.not_lt.mpr hclamp.1)).symm
  | connected => exact ⟨hkept, hkept, rfl, hnotify, hfine⟩
  | audioStarted => exact ⟨hvolume, hkept, hkeeps, hnotify, hscale⟩
  | register => exact ⟨hvolume, hkept, hkeeps, rfl, hscale⟩

/-- What the sink does at an event that is fine is right. -/
theorem Meets.right (h : Meets s m) (hfine : Fine m e) : Right m e (e.act s).2 := by
  have hnext := h.act hfine
  cases e with
  | controller volume =>
    have hzero : volume = 0 := hfine
    subst hzero
    refine ⟨hnext.scale, fun v hv => ?_, fun _ => List.mem_singleton_self _, fun v hv => ?_, ?_,
      fun v hv => ?_⟩
    · cases List.mem_singleton.mp hv
      rfl
    · cases List.mem_singleton.mp hv
    · exact (if_neg (by simp [Event.isLocal])).symm
    · cases List.mem_singleton.mp hv
  | localHost value isStep =>
    rw [h.localHost]
    refine ⟨hnext.scale, fun v => apply_mem_localOuts.mp, fun _ => apply_mem_localOuts.mpr rfl,
      fun v hv => absurd hv interim_not_mem_localOuts, ?_, fun v hv => ?_⟩
    · rw [changes_localOuts, Event.isLocal, Bool.and_true]
    · exact ⟨rfl, store_mem_localOuts.mp hv⟩
  | connected =>
    refine ⟨hnext.scale, nofun, nofun, nofun, ?_, nofun⟩
    exact (if_neg (by simp [Event.isLocal])).symm
  | audioStarted =>
    refine ⟨hnext.scale, fun v hv => ?_, fun _ => ?_, fun v hv => ?_, ?_, fun v hv => ?_⟩
    · cases List.mem_singleton.mp hv
      exact h.volume
    · rw [← hnext.volume]
      exact List.mem_singleton_self _
    · cases List.mem_singleton.mp hv
    · exact (if_neg (by simp [Event.isLocal])).symm
    · cases List.mem_singleton.mp hv
  | register =>
    refine ⟨hnext.scale, fun v hv => ?_, nofun, fun v hv => ?_, ?_, fun v hv => ?_⟩
    · cases List.mem_singleton.mp hv
    · cases List.mem_singleton.mp hv
      exact h.volume
    · exact (if_neg (by simp [Event.isLocal])).symm
    · cases List.mem_singleton.mp hv

/-- Nothing else is right: a volume of 1..127 is applied as a smaller one. -/
theorem Right.fine (h : Right m e (e.act s).2) : Fine m e := by
  cases e with
  | controller volume =>
    have happlied : ((volume.toNat * 100 / 127 : ℕ) : ℤ) = volume.toNat :=
      h.applied _ (List.mem_singleton_self _)
    have hzero : volume.toNat = 0 := by omega
    exact UInt8.toNat_inj.mp hzero
  | connected => exact h.scale
  | localHost value isStep => trivial
  | audioStarted => trivial
  | register => trivial

/-- A run whose events are fine is met. -/
theorem meets_after {setting : ℤ} {events : List Event}
    (hfine : ∀ past e, past ++ [e] <+: events → Fine ((Wish.init setting).after past) e)
    (past : List Event) (hpast : past <+: events) :
    Meets (after (init setting) past) ((Wish.init setting).after past) := by
  induction past using List.reverseRecOn with
  | nil => exact meets_init setting
  | append_singleton past e ih =>
      rw [after, Wish.after, List.foldl_append, List.foldl_append]
      exact (ih ((List.prefix_append past [e]).trans hpast)).act (hfine past e hpast)

/-- A run is right if and only if every absolute volume in it is 0, and the kept volume is in range
when a controller connects. -/
theorem volume_sound_iff (setting : ℤ) (events : List Event) :
    Sound setting events ↔
      ∀ past e, past ++ [e] <+: events → Fine ((Wish.init setting).after past) e := by
  constructor
  · intro h past e hprefix
    exact (h past e hprefix).fine
  · intro hfine past e hprefix
    have hmeets := meets_after hfine past ((List.prefix_append past [e]).trans hprefix)
    exact hmeets.right (hfine past e hprefix)

/-- The full volume is applied as 100. -/
theorem full_volume_lost : ¬ ∀ setting events, Sound setting events := by
  intro h
  have hright := h 127 [.connected, .controller 127] [.connected] (.controller 127) List.prefix_rfl
  exact absurd (hright.applied 100 (by decide)) (by decide)

end BtVolume

end SqueezeliteMuse
