/-
SqueezeliteMuse/PeersList.lean

The list of the Bluetooth devices that were discovered.

`peers_list_maintain` adds a device, or updates the strength of its signal.  At the start of a scan
it is to reset the strengths to -129, and at the end to purge what still has -129.  Both commands
are the number -129, and nothing is ever purged: the list keeps the devices of all scans, and when a
scan has stopped every strength in it is -129.

A result is looked at in `APP_AV_STATE_DISCOVERING` only; the state it comes in is part of a result
here.

Main result: `right_iff`: after a scan the list is right if and only if no device in it reported a
strength, and the devices of the scan are those that were looked at up to then.
-/
import Mathlib.Data.Int.Notation
import Mathlib.Data.List.Induction
import Mathlib.Tactic.Common
import SqueezeliteMuse.BtSource

namespace SqueezeliteMuse

namespace PeersList

open BtSource

/-! ### The list -/

/-- An element of `peers_list`. -/
structure Peer where
  name : List UInt8
  rssi : ℤ
  deriving DecidableEq

def PEERS_LIST_MAINTAIN_RESET : ℤ := -129
def PEERS_LIST_MAINTAIN_PURGE : ℤ := -129

/-- `peers_list_reset` -/
def peersListReset (l : List Peer) : List Peer := l.map fun p => { p with rssi := -129 }

/-- `peers_list_purge`: the loop ends at the element that it detaches, whose `next` is NULL then. -/
def peersListPurge (l : List Peer) : List Peer := l.eraseP fun p => p.rssi = -129

/-- `peers_list_update_add`, with `peers_list_get_entry` -/
def peersListUpdateAdd (name : List UInt8) (rssi : ℤ) : List Peer → List Peer
  | [] => [⟨name, rssi⟩]
  | p :: l =>
      if p.name = name then { p with rssi := rssi } :: l
      else p :: peersListUpdateAdd name rssi l

/-- `peers_list_maintain` -/
def peersListMaintain (name : Option (List UInt8)) (rssi : ℤ) (l : List Peer) : List Peer :=
  let l :=
    if rssi = PEERS_LIST_MAINTAIN_RESET then peersListReset l
    else if rssi = PEERS_LIST_MAINTAIN_PURGE then peersListPurge l
    else l
  match name with
  | some name => peersListUpdateAdd name rssi l
  | none => l

/-! ### Scans -/

/-- A result, with the strength among its properties, and with `bt_app_source_a2d_state`. -/
structure Heard where
  res : DiscRes
  rssi : Option Int8
  state : AvState

abbrev Scan := List Heard

section Code

variable (stack : Stack)

/-- `filter_inquiry_scan_result`, of the list. -/
def hear (l : List Peer) (h : Heard) : List Peer :=
  if h.state ≠ .discovering then l
  else if h.res.isRendering stack = false then l
  else if h.res.name stack ≠ [] then
    peersListMaintain (some (h.res.name stack)) ((h.rssi.map Int8.toInt).getD (-129)) l
  else l

/-- A scan: `bt_app_gap_cb` with `ESP_BT_GAP_DISCOVERY_STARTED`, each result, and
`ESP_BT_GAP_DISCOVERY_STOPPED`. -/
def scanned (l : List Peer) (scan : Scan) : List Peer :=
  peersListMaintain none PEERS_LIST_MAINTAIN_PURGE
    (scan.foldl (hear stack) (peersListMaintain none PEERS_LIST_MAINTAIN_RESET l))

/-- `peers_list` after scans; it is NULL at first. -/
def peersList (scans : List Scan) : List Peer := scans.foldl (scanned stack) []

/-! ### What is required -/

/-- The result is of a sink, under a name. -/
def Heard.Names (h : Heard) (name : List UInt8) : Prop :=
  h.res.isRendering stack = true ∧ h.res.name stack = name ∧ name ≠ []

instance (h : Heard) (name : List UInt8) : Decidable (h.Names stack name) :=
  inferInstanceAs (Decidable (_ ∧ _ ∧ _))

/-- The device is seen in the scan. -/
def Seen (scan : Scan) (name : List UInt8) : Prop := ∃ h ∈ scan, h.Names stack name

/-- The strength that was reported last. -/
def lastRssi (scan : Scan) (name : List UInt8) : Option Int8 :=
  ((scan.filter fun h => h.Names stack name).filterMap Heard.rssi).getLast?

/-- The list has the devices of the scan. -/
structure Right (l : List Peer) (scan : Scan) : Prop where
  once : (l.map Peer.name).Nodup
  seen : ∀ name, name ∈ l.map Peer.name ↔ Seen stack scan name
  rssi : ∀ p ∈ l, ∀ rssi, lastRssi stack scan p.name = some rssi → p.rssi = rssi.toInt

/-- The device was looked at in the scan. -/
def LookedAt (scan : Scan) (name : List UInt8) : Prop :=
  ∃ h ∈ scan, h.state = .discovering ∧ h.Names stack name

/-- The devices of the scan are those that were looked at in it and in the scans before it, and none
reported a strength. -/
structure Fine (past : List Scan) (scan : Scan) : Prop where
  known : ∀ name, (∃ s ∈ past ++ [scan], LookedAt stack s name) ↔ Seen stack scan name
  silent : ∀ h ∈ scan, ∀ name, h.Names stack name → h.rssi = none

end Code

/-! ### Names in the list -/

variable {stack : Stack} {l : List Peer} {name n : List UInt8} {rssi : ℤ} {scan : Scan}

@[simp] theorem names_reset : (peersListReset l).map Peer.name = l.map Peer.name := by
  rw [peersListReset, List.map_map]
  rfl

theorem mem_names_updateAdd :
    n ∈ (peersListUpdateAdd name rssi l).map Peer.name ↔ n = name ∨ n ∈ l.map Peer.name := by
  induction l with
  | nil => simp [peersListUpdateAdd]
  | cons p l ih =>
      rw [peersListUpdateAdd]
      split
      case isTrue heq =>
        rw [List.map_cons, List.mem_cons, List.map_cons, List.mem_cons, heq]
        exact ⟨fun h => .inr h, fun h => h.elim .inl id⟩
      case isFalse hne =>
        rw [List.map_cons, List.mem_cons, ih, List.map_cons, List.mem_cons]
        exact or_left_comm

theorem nodup_updateAdd (h : (l.map Peer.name).Nodup) :
    ((peersListUpdateAdd name rssi l).map Peer.name).Nodup := by
  induction l with
  | nil => simp [peersListUpdateAdd]
  | cons p l ih =>
      obtain ⟨hp, hl⟩ := List.nodup_cons.mp h
      rw [peersListUpdateAdd]
      split
      case isTrue heq => exact List.nodup_cons.mpr ⟨hp, hl⟩
      case isFalse hne =>
        refine List.nodup_cons.mpr ⟨fun hmem => ?_, ih hl⟩
        exact (mem_names_updateAdd.mp hmem).elim hne hp

/-- The second command is the first one. -/
theorem maintain_none_purge :
    peersListMaintain none PEERS_LIST_MAINTAIN_PURGE l = peersListReset l := rfl

theorem maintain_none_reset :
    peersListMaintain none PEERS_LIST_MAINTAIN_RESET l = peersListReset l := rfl

theorem maintain_some :
    peersListMaintain (some name) rssi l =
      peersListUpdateAdd name rssi (if rssi = -129 then peersListReset l else l) := by
  by_cases h : rssi = -129
  · rw [peersListMaintain, PEERS_LIST_MAINTAIN_RESET, if_pos h, if_pos h]
  · rw [peersListMaintain, PEERS_LIST_MAINTAIN_RESET, PEERS_LIST_MAINTAIN_PURGE, if_neg h, if_neg h,
      if_neg h]

/-- The list has got further devices, each of them once. -/
structure Adds (names : List UInt8 → Prop) (l l' : List Peer) : Prop where
  mem : ∀ n, n ∈ l'.map Peer.name ↔ names n ∨ n ∈ l.map Peer.name
  nodup : (l.map Peer.name).Nodup → (l'.map Peer.name).Nodup

theorem Adds.none {names : List UInt8 → Prop} (h : ∀ n, ¬ names n) : Adds names l l :=
  ⟨fun n => ⟨.inr, fun hn => hn.resolve_left (h n)⟩, id⟩

theorem Adds.trans {p q : List UInt8 → Prop} {l' l'' : List Peer} (h : Adds p l l')
    (h' : Adds q l' l'') : Adds (fun n => p n ∨ q n) l l'' := by
  refine ⟨fun n => ?_, fun hl => h'.nodup (h.nodup hl)⟩
  rw [h'.mem, h.mem, or_assoc, or_left_comm]

theorem Adds.reset {p : List UInt8 → Prop} {l' : List Peer} (h : Adds p (peersListReset l) l') :
    Adds p l l' := by
  obtain ⟨hmem, hnodup⟩ := h
  rw [names_reset] at hmem hnodup
  exact ⟨hmem, hnodup⟩

theorem Adds.reset_right {p : List UInt8 → Prop} {l' : List Peer} (h : Adds p l l') :
    Adds p l (peersListReset l') := by
  refine ⟨fun n => ?_, fun hl => ?_⟩
  · rw [names_reset, h.mem]
  · rw [names_reset]
    exact h.nodup hl

theorem adds_updateAdd : Adds (· = name) l (peersListUpdateAdd name rssi l) :=
  ⟨fun _ => mem_names_updateAdd, nodup_updateAdd⟩

theorem adds_maintain (name : List UInt8) (rssi : ℤ) (l : List Peer) :
    Adds (· = name) l (peersListMaintain (some name) rssi l) := by
  rw [maintain_some]
  split
  case isTrue => exact adds_updateAdd.reset
  case isFalse => exact adds_updateAdd

/-- A result adds its device, if it is looked at. -/
theorem adds_hear (stack : Stack) (l : List Peer) (h : Heard) :
    Adds (fun n => h.state = .discovering ∧ h.Names stack n) l (hear stack l h) := by
  rw [hear]
  split
  case isTrue hstate => exact .none fun n hn => hstate hn.1
  case isFalse hstate =>
    split
    case isTrue hrender =>
      refine .none fun n hn => ?_
      rw [hn.2.1] at hrender
      cases hrender
    case isFalse hrender =>
      split
      case isTrue hname =>
        have hadds := adds_maintain (h.res.name stack) ((h.rssi.map Int8.toInt).getD (-129)) l
        refine ⟨fun n => (hadds.mem n).trans (or_congr_left ⟨?_, ?_⟩), hadds.nodup⟩
        · rintro rfl
          exact ⟨not_not.mp hstate, eq_true_of_ne_false hrender, rfl, hname⟩
        · rintro ⟨-, -, rfl, -⟩
          rfl
      case isFalse hname =>
        refine .none fun n hn => hname ?_
        obtain ⟨-, -, rfl, hne⟩ := hn
        exact hne

theorem adds_results : Adds (LookedAt stack scan) l (scan.foldl (hear stack) l) := by
  induction scan generalizing l with
  | nil => exact .none fun n ⟨_, hmem, _⟩ => nomatch hmem
  | cons h scan ih =>
      obtain ⟨hmem, hnodup⟩ := (adds_hear stack l h).trans ih
      refine ⟨fun n => (hmem n).trans (or_congr_left ?_), hnodup⟩
      simp only [LookedAt, List.mem_cons, exists_eq_or_imp]

theorem adds_scanned : Adds (LookedAt stack scan) l (scanned stack l scan) := by
  rw [scanned, maintain_none_purge, maintain_none_reset]
  exact adds_results.reset.reset_right

/-- The list has the devices of all scans. -/
theorem adds_peersList (scans : List Scan) :
    Adds (fun n => ∃ s ∈ scans, LookedAt stack s n) [] (peersList stack scans) := by
  induction scans using List.reverseRecOn with
  | nil => exact .none fun n ⟨_, hmem, _⟩ => nomatch hmem
  | append_singleton scans scan ih =>
      rw [peersList, List.foldl_append, List.foldl_cons, List.foldl_nil, ← peersList]
      obtain ⟨hmem, hnodup⟩ := ih.trans adds_scanned
      refine ⟨fun n => (hmem n).trans (or_congr_left ?_), hnodup⟩
      simp only [List.mem_append, List.mem_singleton, or_and_right, exists_or, exists_eq_left]

theorem mem_names_peersList (scans : List Scan) (n : List UInt8) :
    n ∈ (peersList stack scans).map Peer.name ↔ ∃ s ∈ scans, LookedAt stack s n :=
  ((adds_peersList scans).mem n).trans (or_iff_left List.not_mem_nil)

/-- No strength is left when a scan has stopped. -/
theorem rssi_peersList (past : List Scan) (scan : Scan) :
    ∀ p ∈ peersList stack (past ++ [scan]), p.rssi = -129 := by
  rw [peersList, List.foldl_append, List.foldl_cons, List.foldl_nil, scanned, maintain_none_purge,
    peersListReset]
  intro p hp
  obtain ⟨q, -, rfl⟩ := List.mem_map.mp hp
  rfl

theorem toInt_ne (r : Int8) : (-129 : ℤ) ≠ r.toInt := by
  have h := r.le_toInt
  omega

/-- A strength was reported if there is a last one. -/
theorem lastRssi_eq_none_iff :
    lastRssi stack scan n = none ↔ ∀ h ∈ scan, h.Names stack n → h.rssi = none := by
  rw [lastRssi, List.getLast?_eq_none_iff, List.filterMap_eq_nil_iff]
  simp only [List.mem_filter, decide_eq_true_iff, and_imp]

/-- After a scan the list is right if and only if its devices are those that were looked at up to
then, and none of them reported a strength. -/
theorem right_iff (stack : Stack) (past : List Scan) (scan : Scan) :
    Right stack (peersList stack (past ++ [scan])) scan ↔ Fine stack past scan := by
  constructor
  · rintro ⟨-, hseen, hrssi⟩
    refine ⟨fun name => (mem_names_peersList _ name).symm.trans (hseen name), fun h hh name hname => ?_⟩
    obtain ⟨p, hp, hpname⟩ := List.mem_map.mp ((hseen name).mpr ⟨h, hh, hname⟩)
    have hnone : lastRssi stack scan name = none := by
      rcases hlast : lastRssi stack scan name with - | r
      · rfl
      · -- the strength in the list is none that a device can report
        rw [← hpname] at hlast
        have heq := hrssi p hp r hlast
        rw [rssi_peersList past scan p hp] at heq
        exact absurd heq (toInt_ne r)
    exact lastRssi_eq_none_iff.mp hnone h hh hname
  · rintro ⟨hknown, hsilent⟩
    refine ⟨(adds_peersList _).nodup List.nodup_nil,
      fun name => (mem_names_peersList _ name).trans (hknown name), fun p _ r hr => ?_⟩
    rw [lastRssi_eq_none_iff.mpr fun h hh hname => hsilent h hh p.name hname] at hr
    cases hr

/-- A device that reports its strength is in the list, without it. -/
theorem lost_strength :
    ¬ ∀ (stack : Stack) (past : List Scan) (scan : Scan),
      Right stack (peersList stack (past ++ [scan])) scan := by
  intro h
  have hright := h ⟨fun _ => true, id, fun _ _ => none⟩ []
    [⟨⟨0, [.cod 0x20, .bdname [77]]⟩, some (-60), .discovering⟩]
  exact absurd (hright.rssi ⟨[77], -129⟩ (by decide) (-60) (by decide)) (by decide)

end PeersList

end SqueezeliteMuse
