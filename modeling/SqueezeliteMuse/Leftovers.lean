/-
SqueezeliteMuse/Leftovers.lean

Packets that are not self-contained: what earlier packets left shows.

For each opcode whose condition fails there are a player and two contents of
the buffer behind the packet that the handler tells apart; mostly they differ
in one byte, the last that is read (`spot`).  Every content of the buffer from
byte 4 on is left there by some packet that does nothing (`reachable_buffer`),
so the two are reachable with the same player.

Main result: `packet_isolated_iff`: a packet has the same effect in all
reachable states with the same player if and only if it is self-contained.
-/
import SqueezeliteMuse.Isolation

namespace SqueezeliteMuse.Slimproto

open Octets

/-! ### Two contents -/

/-- Zeros, but for one byte. -/
def spot (k : ℕ) (v : UInt8) : ℕ → UInt8 := fun i => if i = k then v else 0

/-- The packet over one or the other content makes a difference to some player. -/
def Leaks (h : Handler) (pkt : List UInt8) : Prop :=
  ∃ p : Player, ¬ Isolated (fun b => h p b pkt.length) pkt

variable {pkt : List UInt8}

theorem write_of_len {m : ℕ → UInt8} {i : ℕ} (h : pkt.length ≤ i) : Ring.write m 0 pkt i = m i :=
  Ring.write_of_ge (by omega)

theorem write_congr {m m' : ℕ → UInt8} {i : ℕ} (h : m i = m' i) :
    Ring.write m 0 pkt i = Ring.write m' 0 pkt i := by
  simp only [Ring.write, h]

/-- A cell that the two contents have in common. -/
theorem write_spot {k i : ℕ} (v : UInt8) (h : i ≠ k) :
    Ring.write (spot k v) 0 pkt i = padded pkt i :=
  write_congr (if_neg h)

/-- A number that does not have the byte that differs. -/
theorem be_spot_of_ne {k off n : ℕ} (v : UInt8) (h : k < off ∨ off + n ≤ k) :
    be (Ring.write (spot k v) 0 pkt) off n = be (padded pkt) off n :=
  be_congr fun i hi => write_spot v (by omega)

theorem le_spot_of_ne {k off n : ℕ} (v : UInt8) (h : k < off ∨ off + n ≤ k) :
    le (Ring.write (spot k v) 0 pkt) off n = le (padded pkt) off n :=
  le_congr fun i hi => write_spot v (by omega)

/-- A number whose last byte differs. -/
theorem be_spot (pkt : List UInt8) (off n : ℕ) (v : UInt8) (h : pkt.length ≤ off + n) :
    be (Ring.write (spot (off + n) v) 0 pkt) off (n + 1) =
      be (padded pkt) off (n + 1) + v.toNat := by
  have hzero : padded pkt (off + n) = 0 := padded_eq_zero h
  have hv : Ring.write (spot (off + n) v) 0 pkt (off + n) = v := by
    rw [write_of_len h, spot, if_pos rfl]
  rw [be, be, be_spot_of_ne v (by omega), hv, hzero]
  rfl

theorem le_spot (pkt : List UInt8) (off n : ℕ) (v : UInt8) (h : pkt.length ≤ off + n) :
    le (Ring.write (spot (off + n) v) 0 pkt) off (n + 1) =
      le (padded pkt) off (n + 1) + 256 ^ n * v.toNat := by
  have hzero : padded pkt (off + n) = 0 := padded_eq_zero h
  have hv : Ring.write (spot (off + n) v) 0 pkt (off + n) = v := by
    rw [write_of_len h, spot, if_pos rfl]
  rw [le, le, le_spot_of_ne v (by omega), hv, hzero]
  simp

/-- One byte makes the difference. -/
theorem leaks_of_spot {δ : Type*} {h : Handler} (p : Player) (g : Effect → δ) (k : ℕ) (v : UInt8)
    (hne : g (h p (padded pkt) pkt.length) ≠ g (h p (Ring.write (spot k v) 0 pkt) pkt.length)) :
    Leaks h pkt :=
  ⟨p, not_isolated g _ _ hne⟩

/-! ### A player -/

/-- A player at rest, with a display of 128 by 64. -/
def restingPlayer : Player where
  autostart := 0
  sentSTMu := false
  sentSTMo := false
  sentSTMl := false
  newServer := 0
  newServerCap := none
  playerId := 9
  playerName := []
  nameFile := false
  slimprotoIp := 0x0201a8c0
  status := {
    updated := 0
    streamStart := 0
    streamFull := 0
    streamSize := 0
    streamBytes := 0
    outputFull := 0
    outputSize := 0
    framesPlayed := 0
    deviceFrames := 0
    currentSampleRate := 44100 }
  output := {
    state := .stopped
    external := false
    stopTime := 0
    idleTo := 0
    pauseFrames := 0
    threshold := 0
    nextReplayGain := 0
    fadeMode := 0
    fadeSecs := 0
    invert := false
    channels := 0 }
  stream := .stopped
  metaInterval := 0
  metaNext := 0
  connected := false
  screen := {
    width := 128
    height := 32
    gdsHeight := 64
    width_pos := by decide
    width_lt := by decide
    height_pos := by decide
    height_eq := rfl }
  owned := true
  dirty := false
  wake := 0
  scroller := {
    screen := 0
    pause := 0
    mode := 0
    scrollBy := 0
    active := false
    first := false
    overflow := false
    scrolled := 0
    speed := 0
    scrollFrame := fun _ => 0
    scrollWidth := 0
    scrollMax := 8192
    scrollSize := 0
    backFrame := fun _ => 0
    backWidth := 0
    frame := fun _ => 0
    width := 0 }
  artwork := {
    data := fun _ => 0
    size := 0
    x := 0
    y := 0
    enable := false
    full := false }
  visu := {
    barGap := 1
    barWidth := 0
    barBorder := 0
    rotate := false
    limit := fun _ => 0
    barMax := fun _ => 0
    spectrumScale := 0
    n := 0
    col := 0
    row := 0
    height := 0
    width := 0
    border := 0
    style := 0
    max := 0
    mode := 0
    backFrame := fun _ => 0
    backWidth := 0
    backActive := false }
  jackMutesAmp := false
  equalizerGain := []
  equalizerUpdate := false
  now := 1000
  rssi := 0
  voltage := 0
  squeezenetwork := none
  jackInserted := false
  spread := fun _ _ _ => 0

/-! ### strm and the other handlers of slimproto.c -/

/-- Frames of an interval and of the next. -/
theorem frames_succ (i : ℕ) : restingPlayer.frames i ≠ restingPlayer.frames (i + 1) := by
  simp only [Player.frames, restingPlayer]
  omega

theorem strm_leaks (hlen : 4 ≤ pkt.length) (hn : ¬ strmNeeds (padded pkt) pkt.length) :
    Leaks Player.processStrm pkt := by
  by_cases h4 : pkt.length = 4
  · -- the command is missing: 't', or nothing
    refine leaks_of_spot restingPlayer (fun r => r.2) 4 0x74 ?_
    have h0 : padded pkt 4 = 0 := padded_eq_zero (by omega)
    have ht : Ring.write (spot 4 0x74) 0 pkt 4 = 0x74 := write_of_len (by omega)
    simp [Player.processStrm, h0, ht]
  have hcmd : ∀ k v, k ≠ 4 → Ring.write (spot k v) 0 pkt 4 = padded pkt 4 := fun k v hk =>
    write_spot v (by omega)
  by_cases hargs : ((padded pkt 4).toNat = 0x74 ∨ (padded pkt 4).toNat = 0x70 ∨
      (padded pkt 4).toNat = 0x61 ∨ (padded pkt 4).toNat = 0x75) ∧ pkt.length < 22
  · -- the last byte of the interval
    obtain ⟨hc, hshort⟩ := hargs
    have hbe := be_spot pkt 18 3 1 (by omega)
    have hle := le_spot pkt 18 3 1 (by omega)
    rcases hc with hc | hc | hc | hc
    · refine leaks_of_spot restingPlayer (fun r => r.2) 21 1 ?_
      simp only [Player.processStrm, hcmd 21 1 (by omega), hc, Player.sendSTAT, hle]
      simp
    · refine leaks_of_spot restingPlayer (fun r => r.1.output.pauseFrames) 21 1 ?_
      have hframes : ∀ i, (restingPlayer.strmPause i).1.output.pauseFrames =
          restingPlayer.frames i := by
        intro i
        simp only [Player.strmPause]
        split
        · rfl
        · split <;> rfl
      simp only [Player.processStrm, hcmd 21 1 (by omega), hc, hbe, hframes]
      exact frames_succ _
    · refine leaks_of_spot restingPlayer (fun r => r.1.output.pauseFrames) 21 1 ?_
      simp only [Player.processStrm, hcmd 21 1 (by omega), hc, hbe, Player.strmSkip]
      exact frames_succ _
    · refine leaks_of_spot restingPlayer (fun r => r.1.output.pauseFrames) 21 1 ?_
      simp only [Player.processStrm, hcmd 21 1 (by omega), hc, hbe, Player.strmUnpause]
      simp
  · -- autostart is missing
    have h5 : (padded pkt 4).toNat = 0x73 ∧ pkt.length = 5 := by
      simp only [strmNeeds] at hn
      omega
    refine leaks_of_spot restingPlayer (fun r => r.1.autostart) 5 1 ?_
    have hv : Ring.write (spot 5 1) 0 pkt 5 = 1 := write_of_len (by omega)
    have h0 : padded pkt 5 = 0 := padded_eq_zero (by omega)
    have hlong : MAX_HEADER - 1 < u32 ((5 : ℕ) - 28) := by decide
    simp only [Player.processStrm, hcmd 5 1 (by omega), h5.1, Player.strmStart, h5.2, hlong, if_true,
      h0, hv]
    decide

theorem cont_leaks (hlen : 4 ≤ pkt.length) (hn : ¬ 8 ≤ pkt.length) :
    Leaks Player.processCont pkt := by
  refine leaks_of_spot { restingPlayer with autostart := 2, stream := .streamingWait }
    (fun r => r.1.metaInterval) 7 1 ?_
  have hbe := be_spot pkt 4 3 1 (by omega)
  simp [Player.processCont, hbe]

theorem codc_leaks (hn : ¬ 9 ≤ pkt.length) : Leaks Player.processCodc pkt := by
  refine leaks_of_spot restingPlayer (fun r => r.2) 8 1 ?_
  have h0 : padded pkt 8 = 0 := padded_eq_zero (by omega)
  have hv : Ring.write (spot 8 1) 0 pkt 8 = 1 := write_of_len (by omega)
  simp [Player.processCodc, h0, hv]

theorem aude_leaks (hn : ¬ 5 ≤ pkt.length) : Leaks Player.processAude pkt := by
  refine leaks_of_spot restingPlayer (fun r => r.1.output.state) 4 1 ?_
  have h0 : padded pkt 4 = 0 := padded_eq_zero (by omega)
  have hv : Ring.write (spot 4 1) 0 pkt 4 = 1 := write_of_len (by omega)
  simp [Player.processAude, h0, hv, restingPlayer]

theorem audg_leaks (hn : ¬ audgNeeds (padded pkt) pkt.length) : Leaks Player.processAudg pkt := by
  by_cases hlen : pkt.length ≤ 12
  · -- `adjust` is missing
    refine leaks_of_spot restingPlayer (fun r => r.2) 12 1 ?_
    have h0 : padded pkt 12 = 0 := padded_eq_zero (by omega)
    have hv : Ring.write (spot 12 1) 0 pkt 12 = 1 := write_of_len (by omega)
    have hgain : be (padded pkt) 14 4 = 0 := be_zero fun i _ => padded_eq_zero (by omega)
    simp [Player.processAudg, h0, hv, be_spot_of_ne, hgain, FIXED_ONE]
  · obtain ⟨hadjust, hshort⟩ : padded pkt 12 ≠ 0 ∧ pkt.length < 22 := by
      by_contra hno
      exact hn ⟨by omega, fun h12 => by
        by_contra hlt
        exact hno ⟨h12, by omega⟩⟩
    refine leaks_of_spot restingPlayer (fun r => r.2) 21 1 ?_
    have hbe := be_spot pkt 18 3 1 (by omega)
    simp [Player.processAudg, write_spot, hadjust, be_spot_of_ne, hbe]

theorem serv_leaks (hlen : 4 ≤ pkt.length) (hn : ¬ 8 ≤ pkt.length) :
    Leaks Player.processServ pkt := by
  refine leaks_of_spot restingPlayer (fun r => r.1.newServer) 7 2 ?_
  have h0 : padded pkt 7 = 0 := padded_eq_zero (by omega)
  have hv : Ring.write (spot 7 2) 0 pkt 7 = 2 := write_of_len (by omega)
  have hle := le_spot pkt 4 3 2 (by omega)
  simp [Player.processServ, h0, hv, hle]

/-- The length of a string that ends at `e`. -/
theorem length_cstr {b : ℕ → UInt8} {e : ℕ} (hnul : b e = 0) (n : ℕ) :
    ∀ off, off ≤ e → e - off < n → (∀ i, off ≤ i → i < e → b i ≠ 0) →
      (cstr b n off).length = e - off := by
  induction n with
  | zero => intro off _ hlt _; omega
  | succ n ih =>
      intro off hoff hlt hne
      by_cases he : off = e
      · subst he
        simp [cstr, hnul]
      · rw [cstr, if_neg (hne off (Nat.le_refl _) (by omega)), List.length_cons,
          ih (off + 1) (by omega) (by omega) fun i hi hlt => hne i (by omega) hlt]
        omega

/-- How long a name is, that is sent first. -/
def nameLength : List Call → ℕ
  | .sendSETDName name :: _ => name.length
  | _ => 0

theorem setd_leaks (hmax : pkt.length ≤ MAXBUF) (hn : ¬ setdNeeds (padded pkt) pkt.length) :
    Leaks Player.processSetd pkt := by
  simp only [setdNeeds, not_forall] at hn
  obtain ⟨hlen, hid, hopen⟩ := hn
  -- the name ends right behind the packet, or one byte later
  refine leaks_of_spot restingPlayer (fun r => nameLength r.2) pkt.length 0x41 ?_
  have hne : ∀ i, 5 ≤ i → i < pkt.length → padded pkt i ≠ 0 := fun i h5 hi hz =>
    hopen ⟨i, h5, hi, hz⟩
  have h4 : Ring.write (spot pkt.length 0x41) 0 pkt 4 = 0 := by
    rw [write_spot _ (by omega), hid]
  have haddr : pkt.length + 1 < ADDRESSES := by
    simp only [ADDRESSES, MAXBUF] at hmax ⊢
    omega
  have hshort : (cstr (padded pkt) ADDRESSES 5).length = pkt.length - 5 :=
    length_cstr (padded_eq_zero (Nat.le_refl _)) _ 5 (by omega) (by omega) hne
  have hlong : (cstr (Ring.write (spot pkt.length 0x41) 0 pkt) ADDRESSES 5).length =
      pkt.length + 1 - 5 := by
    refine length_cstr ?_ _ 5 (by omega) (by omega) ?_
    · rw [write_of_len (by omega), spot, if_neg (by omega)]
    · intro i h5 hi
      by_cases he : i = pkt.length
      · rw [he, write_of_len (Nat.le_refl _), spot, if_pos rfl]
        decide
      · rw [write_spot _ he]
        exact hne i h5 (by omega)
  have h5 : pkt.length ≠ 5 := by omega
  simp only [Player.processSetd, hid, h4, if_true, h5, if_false, hlen, List.cons_append,
    nameLength, hshort, hlong]
  omega

/-! ### The display -/

theorem length_vfdcElements (data : ℕ → UInt8) (n : ℕ) :
    (Player.vfdcElements data n).1.length = LINELEN * 2 := by
  induction n with
  | zero => rfl
  | succ n ih =>
      rw [Player.vfdcElements, Player.vfdcElement]
      repeat' split
      all_goals simp [ih, Player.blank]

/-- What is shown first in the first line. -/
def firstShown (r : Effect) : Option UInt8 :=
  match r.2 with
  | .textLines line _ :: _ => line.head?
  | _ => none

/-- The last element of the display data is behind the packet, and the last but one too. -/
theorem vfdc_leaks (hn : ¬ pkt.length < 6) : Leaks Player.vfdcHandler pkt := by
  obtain ⟨n, hlen⟩ : ∃ n, (pkt.length - 4) / 2 = n + 1 := ⟨(pkt.length - 4) / 2 - 1, by omega⟩
  -- either they clear the display, or they put an 'A' at its beginning
  let clear : ℕ → UInt8 := fun i => if i = 10 + 2 * n then 0x02 else if i = 11 + 2 * n then 0x06 else 0
  let home : ℕ → UInt8 := fun i =>
    if i = 8 + 2 * n then 0x02 else if i = 9 + 2 * n then 0x02
    else if i = 10 + 2 * n then 0x03 else if i = 11 + 2 * n then 0x41 else 0
  refine ⟨restingPlayer, not_isolated firstShown clear home ?_⟩
  have hclear : (Player.vfdcElements (Ring.write clear 0 pkt) (n + 1)).1 = Player.blank := by
    have ht : Ring.write clear 0 pkt (10 + 2 * n) = 0x02 := by
      rw [write_of_len (by omega)]
      simp [clear]
    have hc : Ring.write clear 0 pkt (11 + 2 * n) = 0x06 := by
      rw [write_of_len (by omega)]
      simp [clear]
    rw [Player.vfdcElements, ht, hc]
    rfl
  have hstart : (Player.vfdcElements (Ring.write home 0 pkt) n).2 = 0 := by
    cases n with
    | zero => rfl
    | succ n =>
        have ht : Ring.write home 0 pkt (10 + 2 * n) = 0x02 := by
          rw [write_of_len (by omega)]
          simp [home]
          omega
        have hc : Ring.write home 0 pkt (11 + 2 * n) = 0x02 := by
          rw [write_of_len (by omega)]
          simp [home]
          omega
        rw [Player.vfdcElements, ht, hc]
        rfl
  have hhome : (Player.vfdcElements (Ring.write home 0 pkt) (n + 1)).1.head? = some 0x41 := by
    have ht : Ring.write home 0 pkt (10 + 2 * n) = 0x03 := by
      rw [write_of_len (by omega)]
      simp [home]
    have hc : Ring.write home 0 pkt (11 + 2 * n) = 0x41 := by
      rw [write_of_len (by omega)]
      simp [home]
    have hl := length_vfdcElements (Ring.write home 0 pkt) n
    rw [Player.vfdcElements, ht, hc]
    rcases hd : Player.vfdcElements (Ring.write home 0 pkt) n with ⟨ddram, addr⟩
    rw [hd] at hstart hl
    obtain rfl : addr = 0 := hstart
    cases ddram with
    | nil => cases hl
    | cons c ddram => rfl
  rcases hd : (Player.vfdcElements (Ring.write home 0 pkt) (n + 1)).1 with - | ⟨c, ddram⟩
  · rw [hd] at hhome
    cases hhome
  rw [hd] at hhome
  obtain rfl : c = 0x41 := Option.some.inj hhome
  simp only [Player.vfdcHandler, hlen, hclear, hd, firstShown, Player.makeprintable]
  show (some 0x20 : Option UInt8) ≠ some 0x41
  decide

/-- What is drawn. -/
def drawn (r : Effect) : List (List UInt8) :=
  r.2.filterMap fun | .drawBitmap data _ => some data | _ => none

/-- A frame without a whole column is drawn as wide as the display. -/
theorem grfe_leaks (hlen : 4 ≤ pkt.length) (hn : ¬ 12 ≤ pkt.length) :
    Leaks Player.grfeHandler pkt := by
  obtain ⟨k, hk, hk', hk8⟩ : ∃ k, pkt.length ≤ k ∧ k < 12 ∧ 8 ≤ k := by
    by_cases h8 : pkt.length ≤ 8
    · exact ⟨8, by omega, by omega, by omega⟩
    · exact ⟨pkt.length, by omega, by omega, by omega⟩
  refine leaks_of_spot restingPlayer drawn k 1 ?_
  have htaken : restingPlayer.taken = false := by decide
  have hsize : 4 ≤ restingPlayer.bitmapSize (int32 (restingPlayer.columns pkt.length)) := by
    have hall : ∀ n ∈ List.range' 4 8,
        4 ≤ restingPlayer.bitmapSize (int32 (restingPlayer.columns n)) := by decide
    exact hall _ (List.mem_range'_1.mpr ⟨hlen, by omega⟩)
  have hdrawn : ∀ b, drawn (restingPlayer.grfeHandler b pkt.length) =
      [bytesAt b 8 (restingPlayer.bitmapSize (int32 (restingPlayer.columns pkt.length)))] := by
    intro b
    simp only [Player.grfeHandler, htaken, drawn]
    by_cases hc : b 6 = 0x63 <;> simp [restingPlayer, hc]
  rw [hdrawn, hdrawn]
  intro heq
  have hbytes := congrArg (fun l => l[k - 8]?) (List.cons.inj heq).1
  have hk'' : k - 8 < restingPlayer.bitmapSize (int32 (restingPlayer.columns pkt.length)) := by omega
  have hadd : 8 + (k - 8) = k := by omega
  have h0 : padded pkt k = 0 := padded_eq_zero hk
  have hv : Ring.write (spot k 1) 0 pkt k = 1 := by rw [write_of_len hk, spot, if_pos rfl]
  simp only [bytesAt, List.getElem?_map, List.getElem?_range hk'', Option.map_some, hadd, h0,
    hv] at hbytes
  cases hbytes

theorem grfb_leaks (hlen : 4 ≤ pkt.length) (hn : ¬ grfbNeeds (padded pkt) pkt.length) :
    Leaks Player.grfbHandler pkt := by
  simp only [grfbNeeds] at hn
  have hbe := be_spot pkt 4 1 1 (by omega)
  have h5 : padded pkt 5 = 0 := padded_eq_zero (by omega)
  have hval : be (padded pkt) 4 2 = 256 * (padded pkt 4).toNat := by
    simp [be, h5]
  have hlow : (padded pkt 4).toNat < 0x80 := by
    by_cases h4 : pkt.length = 4
    · rw [padded_eq_zero (by omega)]
      decide
    · omega
  refine leaks_of_spot restingPlayer (fun r => r.2) 5 1 ?_
  have hint : int16 (be (padded pkt) 4 2) = 256 * (padded pkt 4).toNat := by
    rw [int16, hval, if_pos (by omega)]
    rfl
  have hint' : int16 (be (Ring.write (spot (4 + 1) 1) 0 pkt) 4 2) =
      256 * (padded pkt 4).toNat + 1 := by
    rw [int16, hbe, hval]
    show (if 256 * (padded pkt 4).toNat + 1 < 2 ^ 15 then _ else _) = _
    rw [if_pos (by omega)]
    rfl
  have hon : ¬ (256 * ((padded pkt 4).toNat : ℤ) + 1 ≤ 0) := by omega
  simp only [Player.grfbHandler, hint, hint', hon, if_false]
  split
  · simp
  · intro heq
    have hbright := Call.setContrast.inj (List.cons.inj (List.cons.inj heq).2).1
    omega

theorem grfs_leaks (hlen : 4 ≤ pkt.length) (hn : ¬ 22 ≤ pkt.length) :
    Leaks Player.grfsHandler pkt := by
  -- with as much of a frame as the packet lacks, something is copied
  let p : Player := { restingPlayer with scroller.scrollSize := 22 - pkt.length }
  refine leaks_of_spot p (fun r => r.1.scroller.scrollSize) 21 1 ?_
  have hsize : ∀ b, (p.grfsHandler b pkt.length).1.scroller.scrollSize =
      u32 (be b 20 2 + u32 (pkt.length - 22)) := by
    intro b
    have hroom : u32 ((22 - pkt.length : ℕ) + u32 (pkt.length - 22)) < 8192 := by
      simp only [u32]
      omega
    by_cases hoff : be b 20 2 = 0
    · simp [Player.grfsHandler, Player.scrollSet, hoff, p, restingPlayer, hroom]
    · simp [Player.grfsHandler, hoff, p, restingPlayer, hroom]
  have hbe := be_spot pkt 20 1 1 (by omega)
  have hlt := be_lt (padded pkt) 20 2
  rw [hsize, hsize, hbe]
  simp only [u32]
  show _ ≠ ((((be (padded pkt) 20 2 + 1 : ℕ) : ℤ) + _) % _).toNat
  omega

theorem grfg_leaks (hlen : 4 ≤ pkt.length) (hn : ¬ 8 ≤ pkt.length) :
    Leaks Player.grfgHandler pkt := by
  refine leaks_of_spot restingPlayer (fun r => r.1.scroller.backFrame 0) 8 1 ?_
  have htaken : restingPlayer.taken = false := by decide
  have h0 : padded pkt 8 = 0 := padded_eq_zero (by omega)
  have hv : Ring.write (spot 8 1) 0 pkt 8 = 1 := write_of_len (by omega)
  have hfirst : ∀ b, (restingPlayer.grfgHandler b pkt.length).1.scroller.backFrame 0 = b 8 := by
    intro b
    obtain ⟨n, hsize⟩ : ∃ n, u32 (pkt.length - 8) = n + 1 :=
      ⟨u32 (pkt.length - 8) - 1, by simp only [u32]; omega⟩
    simp [Player.grfgHandler, htaken, hsize, Ram.copy, bytesAt]
  rw [hfirst, hfirst, h0, hv]
  decide

/-- The place of an artwork that is not switched off. -/
theorem grfaHandler_y {p : Player} {b : ℕ → UInt8} (len : ℕ) (hlength : int32 (be b 4 4) ≠ 0)
    (hoffset : be b 12 4 = 0) : (p.grfaHandler b len).1.artwork.y = be b 10 2 := by
  by_cases hshort : int32 (be b 4 4) < 32
  · simp only [Player.grfaHandler, hshort, if_true, Player.artworkConfig, hlength, ne_eq,
      not_false_eq_true]
  · have hzero : int32 0 = 0 := rfl
    simp only [Player.grfaHandler, hshort, if_false, hoffset, hzero, if_true, Player.artworkFirst]

theorem int32_ne_zero {n : ℕ} (hn : n ≠ 0) (hlt : n < 2 ^ 32) : int32 n ≠ 0 := by
  rw [int32]
  split <;> omega

theorem grfa_leaks (hlen : 4 ≤ pkt.length) (hn : ¬ grfaNeeds (padded pkt) pkt.length) :
    Leaks Player.grfaHandler pkt := by
  simp only [grfaNeeds, not_or, not_and] at hn
  obtain ⟨h16, hshort, hoff⟩ := hn
  by_cases h12 : pkt.length < 12
  · -- the last byte of the place
    let m : ℕ → UInt8 := fun i => if i = 7 then 1 else 0
    let m' : ℕ → UInt8 := fun i => if i = 7 then 1 else if i = 11 then 1 else 0
    refine ⟨restingPlayer, not_isolated (fun r => r.1.artwork.y) m m' ?_⟩
    have hlength : ∀ c : ℕ → UInt8, c 7 = 1 → int32 (be (Ring.write c 0 pkt) 4 4) ≠ 0 := by
      intro c h7
      refine int32_ne_zero ?_ (be_lt _ 4 4)
      by_cases h8 : 8 ≤ pkt.length
      · rw [(agree_write c (fun _ => 0) pkt).be_eq 4 4 h8]
        exact hoff h8
      · have hlast : Ring.write c 0 pkt 7 = 1 := by rw [write_of_len (by omega), h7]
        rw [be, hlast]
        show 256 * _ + 1 ≠ 0
        omega
    have hoffset : ∀ c : ℕ → UInt8, (∀ i, 12 ≤ i → c i = 0) →
        be (Ring.write c 0 pkt) 12 4 = 0 := by
      intro c hc
      exact be_zero fun i _ => by rw [write_of_len (by omega), hc _ (by omega)]
    have hm : ∀ i, 12 ≤ i → m i = 0 := fun i hi => if_neg (by omega)
    have hm' : ∀ i, 12 ≤ i → m' i = 0 := fun i hi => by
      simp only [m', if_neg (show i ≠ 7 by omega), if_neg (show i ≠ 11 by omega)]
    rw [grfaHandler_y _ (hlength m rfl) (hoffset m hm),
      grfaHandler_y _ (hlength m' rfl) (hoffset m' hm')]
    have hten : Ring.write m 0 pkt 10 = Ring.write m' 0 pkt 10 := write_congr rfl
    have h0 : Ring.write m 0 pkt 11 = 0 := write_of_len (by omega)
    have h1 : Ring.write m' 0 pkt 11 = 1 := write_of_len (by omega)
    simp [be, hten, h0, h1]
  · -- the first byte of the artwork, copied to memory by a length below zero
    have hlong := hshort (by omega)
    let offset := int32 (be (padded pkt) 12 4)
    refine leaks_of_spot restingPlayer (fun r => r.1.artwork.data offset) 16 1 ?_
    have hfirst : ∀ b, be b 4 4 = be (padded pkt) 4 4 → be b 12 4 = be (padded pkt) 12 4 →
        (restingPlayer.grfaHandler b pkt.length).1.artwork.data offset = b 16 := by
      intro b h4 h12
      obtain ⟨n, hsize⟩ : ∃ n, u32 (pkt.length - 16) = n + 1 :=
        ⟨u32 (pkt.length - 16) - 1, by simp only [u32]; omega⟩
      simp only [Player.grfaHandler, h4, hlong, if_false, h12, hsize]
      simp [Ram.copy, bytesAt, offset]
    rw [hfirst _ rfl rfl, hfirst _ (be_spot_of_ne 1 (by omega)) (be_spot_of_ne 1 (by omega))]
    have h0 : padded pkt 16 = 0 := padded_eq_zero (by omega)
    have hv : Ring.write (spot 16 1) 0 pkt 16 = 1 := write_of_len (by omega)
    rw [h0, hv]
    decide

/-! ### visu -/

section Fit

variable {p : Player} {v : Visu} {bars : ℤ} {calls : List Call}

theorem visuFinish_visu : (p.visuFinish v bars calls).1.visu =
    if Player.runsAway (p.visuWanted v bars) (Player.extent (p.visuWanted v bars)) then
      p.visuWanted v bars
    else Player.visuPlaced (p.visuWanted v bars) := by
  rw [Player.visuFinish]
  split <;> rfl

/-- No bars, or some. -/
theorem visuFinish_n (hn : ¬ (p.visuWanted v bars).n < 0) :
    (p.visuFinish v bars calls).1.visu.n =
      (Player.fitBars (p.visuWanted v bars) (Player.extent (p.visuWanted v bars))
        ((p.visuWanted v bars).n.toNat - 1)).1 := by
  have hruns : Player.runsAway (p.visuWanted v bars) (Player.extent (p.visuWanted v bars)) =
      false := by
    rw [Player.runsAway, decide_eq_false hn]
    rfl
  rw [visuFinish_visu, hruns]
  simp only [Bool.false_eq_true, Player.visuPlaced, Player.placeBars, hn, if_false]

variable (p v bars) in
theorem visuWanted_style : (p.visuWanted v bars).style = v.style := by
  rw [Player.visuWanted, Player.visuPrepare]
  split <;> rfl

variable (p v bars) in
theorem visuWanted_spectrumScale : (p.visuWanted v bars).spectrumScale =
    if Player.spectrum v.mode then Player.clampScale v.spectrumScale else v.spectrumScale := by
  rw [Player.visuWanted, Player.visuPrepare]
  split <;> rfl

variable (p) in
theorem visuWanted_n (hspec : Player.spectrum v.mode = true) (hbars : 0 ≤ bars) :
    (p.visuWanted v bars).n = if bars = 0 then MAX_BARS else min bars MAX_BARS := by
  have hcap : (if MAX_BARS < bars then MAX_BARS else bars) = min bars MAX_BARS := by
    split <;> omega
  have hmax : MAX_BARS = 32 := rfl
  rw [Player.visuWanted, Player.visuPrepare, if_pos hspec, hcap]
  simp only
  split <;> split <;> omega

variable (p v bars) in
theorem visuWanted_place :
    (p.visuWanted v bars).border = v.border ∧ (p.visuWanted v bars).barGap = v.barGap ∧
      (p.visuWanted v bars).rotate = v.rotate ∧ (p.visuWanted v bars).width = v.width := by
  rw [Player.visuWanted, Player.visuPrepare]
  split <;> exact ⟨rfl, rfl, rfl, rfl⟩

theorem visuFinish_style : (p.visuFinish v bars calls).1.visu.style = v.style := by
  rw [visuFinish_visu, ← visuWanted_style p v bars]
  split <;> rfl

theorem visuFinish_spectrumScale : (p.visuFinish v bars calls).1.visu.spectrumScale =
    if Player.spectrum v.mode then Player.clampScale v.spectrumScale else v.spectrumScale := by
  rw [visuFinish_visu, ← visuWanted_spectrumScale p v bars]
  split <;> rfl

variable {b : ℕ → UInt8} {len : ℕ}

theorem visuHandler_esp32 (hesp : b 4 &&& VISU_ESP32 ≠ 0) :
    p.visuHandler b len = p.visuEsp32 (Player.visuReset p.visu (b 4)) b p.visuClean := by
  have hmode : b 4 ≠ 0 := by
    intro hz
    rw [hz] at hesp
    exact hesp (by decide)
  rw [Player.visuHandler, if_neg hmode, if_pos hesp]

theorem visuHandler_classical (hmode : b 4 ≠ 0) (hesp : ¬ b 4 &&& VISU_ESP32 ≠ 0) :
    p.visuHandler b len = p.visuClassical (Player.visuReset p.visu (b 4)) b p.visuClean := by
  rw [Player.visuHandler, if_neg hmode, if_neg hesp]

theorem scale_of_small (hesp : b 4 &&& VISU_ESP32 ≠ 0) (h5 : 4 ≤ b 5) :
    (p.visuHandler b len).1.visu.spectrumScale =
      if Player.spectrum (b 4) then Player.clampScale (be b 30 4) else be b 30 4 := by
  rw [visuHandler_esp32 hesp, Player.visuEsp32, if_pos h5, visuFinish_spectrumScale]
  rfl

theorem scale_of_full (hesp : b 4 &&& VISU_ESP32 ≠ 0) (h5 : ¬ 4 ≤ b 5)
    (hspec : Player.spectrum (b 4) = true) :
    (p.visuHandler b len).1.visu.spectrumScale = Player.clampScale (be b 14 4) := by
  have hmode : (Player.visuReset p.visu (b 4)).mode = b 4 := rfl
  rw [visuHandler_esp32 hesp, Player.visuEsp32, if_neg h5, visuFinish_spectrumScale, visuFull_mode,
    hmode, if_pos hspec, Player.visuFull, hmode, if_pos hspec]

theorem style_of_full (hesp : b 4 &&& VISU_ESP32 ≠ 0) (h5 : ¬ 4 ≤ b 5)
    (hspec : ¬ Player.spectrum (b 4) = true) :
    (p.visuHandler b len).1.visu.style = int32 (be b 10 4) := by
  have hmode : (Player.visuReset p.visu (b 4)).mode = b 4 := rfl
  rw [visuHandler_esp32 hesp, Player.visuEsp32, if_neg h5, visuFinish_style, Player.visuFull, hmode,
    if_neg hspec]

theorem style_of_classical (hmode : b 4 ≠ 0) (hesp : ¬ b 4 &&& VISU_ESP32 ≠ 0)
    (hspec : b 4 ≠ VISU_SPECTRUM) :
    (p.visuHandler b len).1.visu.style = int32 (be b 10 4) := by
  have hreset : (Player.visuReset p.visu (b 4)).mode = b 4 := rfl
  rw [visuHandler_classical hmode hesp, Player.visuClassical, hreset, if_neg hspec,
    visuFinish_style]

end Fit

/-- The scale after zero is not cut to a half. -/
theorem clampScale_zero : Player.clampScale 0 ≠ Player.clampScale (0 + 1) := by decide

/-- An `int` whose last byte differs. -/
theorem int32_spot {off : ℕ} (h : pkt.length ≤ off + 3) :
    int32 (be (padded pkt) off 4) ≠ int32 (be (Ring.write (spot (off + 3) 1) 0 pkt) off 4) := by
  have hbe : be (Ring.write (spot (off + 3) 1) 0 pkt) off 4 = be (padded pkt) off 4 + 1 :=
    be_spot pkt off 3 1 h
  have hlt := be_lt (Ring.write (spot (off + 3) 1) 0 pkt) off 4
  rw [hbe] at hlt ⊢
  rw [int32, int32]
  split <;> split <;> omega

/-- The mode is missing: none, or a level meter. -/
theorem mode_leaks (hlen : pkt.length = 4) : Leaks Player.visuHandler pkt := by
  refine leaks_of_spot restingPlayer (fun r => r.1.visu.spectrumScale) 4 1 ?_
  have h0 : padded pkt 4 = 0 := padded_eq_zero (by omega)
  have hv : Ring.write (spot 4 1) 0 pkt 4 = 1 := write_of_len (by omega)
  have hblank : (restingPlayer.visuHandler (padded pkt) pkt.length).1.visu.spectrumScale = 0 := by
    rw [Player.visuHandler, if_pos h0]
    rfl
  have hmeter : (restingPlayer.visuHandler (Ring.write (spot 4 1) 0 pkt)
      pkt.length).1.visu.spectrumScale = 25 := by
    rw [visuHandler_classical (by rw [hv]; decide) (by rw [hv]; decide), hv, Player.visuClassical,
      if_neg (by decide), visuFinish_spectrumScale]
    show (if Player.spectrum 1 = true then _ else 25) = 25
    exact if_neg (by decide)
  rw [hblank, hmeter]
  decide

/-- The scale of a visualizer with a place of its own. -/
theorem small_leaks (m m' : ℕ → UInt8) (h4 : Ring.write m 0 pkt 4 = Ring.write m' 0 pkt 4)
    (hesp : Ring.write m 0 pkt 4 &&& VISU_ESP32 ≠ 0) (h5 : 4 ≤ Ring.write m 0 pkt 5)
    (h5' : 4 ≤ Ring.write m' 0 pkt 5)
    (hscale : be (Ring.write m' 0 pkt) 30 4 = be (Ring.write m 0 pkt) 30 4 + 1)
    (hclamp : Player.spectrum (Ring.write m 0 pkt 4) → be (Ring.write m 0 pkt) 30 4 = 0) :
    Leaks Player.visuHandler pkt := by
  refine ⟨restingPlayer, not_isolated (fun r => r.1.visu.spectrumScale) m m' ?_⟩
  rw [scale_of_small hesp h5, scale_of_small (h4 ▸ hesp) h5', ← h4, hscale]
  by_cases hspec : Player.spectrum (Ring.write m 0 pkt 4) = true
  · rw [if_pos hspec, if_pos hspec, hclamp hspec]
    exact clampScale_zero
  · rw [if_neg hspec, if_neg hspec]
    omega

/-- How many bars of those that are wanted there is room for: one at least, and two if the
display has room for two. -/
theorem one_le_fitBars {v : Visu} (hborder : v.border = 0) (width : ℤ) (hw : 1 ≤ width) (n : ℕ) :
    1 ≤ (Player.fitBars v width n).1 := by
  induction n with
  | zero =>
      have hroom : 0 < Player.barWidth v width 1 := by
        simp [Player.barWidth, hborder]
        omega
      simp [Player.fitBars, hroom]
  | succ n ih =>
      rw [Player.fitBars]
      split
      · simp
      · exact ih

theorem two_le_fitBars {v : Visu} (hborder : v.border = 0) (hgap : v.barGap = 1) (width : ℤ)
    (hw : 3 ≤ width) (n : ℕ) : 2 ≤ (Player.fitBars v width (n + 1)).1 := by
  induction n with
  | zero =>
      have hroom : 0 < Player.barWidth v width 2 := by
        rw [Player.barWidth, hborder, hgap]
        show 0 < (width - 0 - 1 * (2 - 1)).tdiv 2
        rw [Int.tdiv_eq_ediv_of_nonneg (by omega)]
        omega
      simp [Player.fitBars, hroom]
  | succ n ih =>
      rw [Player.fitBars]
      split
      · simp
      · exact ih

theorem fitBars_zero {v : Visu} (width : ℤ) : (Player.fitBars v width 0).1 ≤ 1 := by
  rw [Player.fitBars]
  split
  · simp
  · simp

section Pitch

variable {p : Player} {b : ℕ → UInt8} {len : ℕ}

theorem visuHandler_pitch (h4 : b 4 = VISU_SPECTRUM) : p.visuHandler b len =
    if u32 (be b 30 4 + be b 34 4) = 0 then
      ({ p with visu := p.visuPlace (Player.visuReset p.visu VISU_SPECTRUM) },
        p.visuClean ++ [.fault])
    else p.visuFinish (p.visuPlace (Player.visuReset p.visu VISU_SPECTRUM))
      ((p.screen.width / u32 (be b 30 4 + be b 34 4) : ℕ) : ℤ) p.visuClean := by
  rw [visuHandler_classical (by rw [h4]; decide) (by rw [h4]; decide), h4, Player.visuClassical]
  exact if_pos rfl

variable (p len) in
/-- The bars are those there is room for, of as many as the width holds, or of the greatest number
if it holds none. -/
theorem n_of_pitch (hgap : p.visu.barGap = 1) (h4 : b 4 = VISU_SPECTRUM)
    (hpitch : u32 (be b 30 4 + be b 34 4) ≠ 0) :
    ∃ v : Visu, ∃ n : ℕ, v.border = 0 ∧ v.barGap = 1 ∧
      (p.visuHandler b len).1.visu.n = (Player.fitBars v p.screen.width n).1 ∧
      (n = 0 ↔ p.screen.width / u32 (be b 30 4 + be b 34 4) = 1) := by
  generalize hq : p.screen.width / u32 (be b 30 4 + be b 34 4) = q
  let v := p.visuPlace (Player.visuReset p.visu VISU_SPECTRUM)
  have hspec : Player.spectrum v.mode = true := by
    show Player.spectrum VISU_SPECTRUM = true
    decide
  have hwanted := visuWanted_n p hspec (Int.natCast_nonneg q)
  have hmax : MAX_BARS = 32 := rfl
  obtain ⟨hborder, hgap', hrotate, hwidth⟩ := visuWanted_place p v q
  refine ⟨p.visuWanted v q, (p.visuWanted v q).n.toNat - 1, hborder, hgap'.trans hgap, ?_, ?_⟩
  · have hn : ¬ (p.visuWanted v q).n < 0 := by
      rw [hwanted]
      split <;> omega
    have hextent : Player.extent (p.visuWanted v q) = p.screen.width := by
      rw [Player.extent, hrotate, hwidth]
      rfl
    rw [visuHandler_pitch h4, if_neg hpitch, hq, ← hextent]
    exact visuFinish_n hn
  · rw [hwanted]
    split <;> omega

variable (p len) in
theorem n_of_one (hgap : p.visu.barGap = 1) (h4 : b 4 = VISU_SPECTRUM)
    (hpitch : u32 (be b 30 4 + be b 34 4) ≠ 0)
    (hone : p.screen.width / u32 (be b 30 4 + be b 34 4) = 1) :
    (p.visuHandler b len).1.visu.n ≤ 1 := by
  obtain ⟨v, n, -, -, hn, hzero⟩ := n_of_pitch p len hgap h4 hpitch
  rw [hn, hzero.mpr hone]
  have := fitBars_zero (v := v) p.screen.width
  omega

variable (p len) in
theorem n_of_many (hgap : p.visu.barGap = 1) (h4 : b 4 = VISU_SPECTRUM)
    (hpitch : u32 (be b 30 4 + be b 34 4) ≠ 0) (hwidth : 3 ≤ p.screen.width)
    (hone : p.screen.width / u32 (be b 30 4 + be b 34 4) ≠ 1) :
    2 ≤ (p.visuHandler b len).1.visu.n := by
  obtain ⟨v, n, hborder, hgap', hn, hzero⟩ := n_of_pitch p len hgap h4 hpitch
  obtain ⟨k, rfl⟩ : ∃ k, n = k + 1 := ⟨n - 1, by have := mt hzero.mp hone; omega⟩
  have := two_le_fitBars hborder hgap' p.screen.width (by omega) k
  rw [hn]
  omega

variable (p len) in
theorem n_pos (hgap : p.visu.barGap = 1) (h4 : b 4 = VISU_SPECTRUM)
    (hpitch : u32 (be b 30 4 + be b 34 4) ≠ 0) : 1 ≤ (p.visuHandler b len).1.visu.n := by
  obtain ⟨v, n, hborder, -, hn, -⟩ := n_of_pitch p len hgap h4 hpitch
  have hwidth := p.screen.width_pos
  have := one_le_fitBars hborder p.screen.width (by omega) n
  rw [hn]
  omega

variable (p len) in
theorem n_of_fault (h4 : b 4 = VISU_SPECTRUM) (hpitch : u32 (be b 30 4 + be b 34 4) = 0) :
    (p.visuHandler b len).1.visu.n = p.visu.n := by
  rw [visuHandler_pitch h4, if_pos hpitch]
  rfl

/-- A player with a display of some width. -/
def widePlayer (width : ℕ) (hpos : 0 < width) (hlt : width < 2 ^ 31) : Player :=
  { restingPlayer with
    screen := {
      width := width
      height := 32
      gdsHeight := 64
      width_pos := hpos
      width_lt := hlt
      height_pos := by decide
      height_eq := rfl } }

/-- The bytes of the spacing that are missing can be any number. -/
theorem pitch_of_put {k j : ℕ} (hk : k ≤ 4) (hlen : pkt.length ≤ 38 - k) (hj : j < 256 ^ k) :
    u32 (be (Ring.write (put (38 - k) k j) 0 pkt) 30 4 +
        be (Ring.write (put (38 - k) k j) 0 pkt) 34 4) =
      (u32 (be (padded pkt) 30 4 + be (padded pkt) 34 4) + j) % 2 ^ 32 := by
  have hkeep : ∀ i, i < 38 - k → Ring.write (put (38 - k) k j) 0 pkt i = padded pkt i := by
    intro i hi
    exact write_congr (by rw [put, if_neg (by omega)])
  have hwidth : be (Ring.write (put (38 - k) k j) 0 pkt) 30 4 = be (padded pkt) 30 4 :=
    be_congr fun i hi => hkeep _ (by omega)
  have hspace : be (Ring.write (put (38 - k) k j) 0 pkt) 34 4 = be (padded pkt) 34 4 + j := by
    have hcut : 4 = (4 - k) + k := by omega
    have hoff : 34 + (4 - k) = 38 - k := by omega
    have hhigh : be (Ring.write (put (38 - k) k j) 0 pkt) 34 (4 - k) =
        be (padded pkt) 34 (4 - k) := be_congr fun i hi => hkeep _ (by omega)
    have hlow : be (Ring.write (put (38 - k) k j) 0 pkt) (38 - k) k = j :=
      (be_congr fun i _ => write_of_len (by omega)).trans (be_put hj)
    have hnone : be (padded pkt) (38 - k) k = 0 := be_zero fun i _ => padded_eq_zero (by omega)
    rw [hcut, be_add, be_add, hoff, hhigh, hlow, hnone, Nat.add_zero]
  rw [hwidth, hspace]
  simp only [u32]
  omega

theorem pitch_leaks (h4 : padded pkt 4 = VISU_SPECTRUM)
    (hn : ¬ pitchNeeds (padded pkt) pkt.length) : Leaks Player.visuHandler pkt := by
  simp only [pitchNeeds, not_or, not_and] at hn
  obtain ⟨hshort, hroom⟩ := hn
  obtain ⟨k, hk, hk1, hlen, hpow⟩ : ∃ k, k ≤ 4 ∧ 1 ≤ k ∧ pkt.length ≤ 38 - k ∧
      (256 ^ k = 2 ^ 32 ∨ 256 ^ k = 256 ^ (38 - pkt.length)) := by
    by_cases h34 : pkt.length ≤ 34
    · exact ⟨4, by omega, by omega, by omega, .inl rfl⟩
    · exact ⟨38 - pkt.length, by omega, by omega, by omega, .inr rfl⟩
  have hbig : 256 ≤ 256 ^ k := Nat.le_self_pow (by omega) 256
  have hlt : u32 (be (padded pkt) 30 4 + be (padded pkt) 34 4) < 2 ^ 32 := by
    simp only [u32]
    omega
  generalize hlo : u32 (be (padded pkt) 30 4 + be (padded pkt) 34 4) = lo at *
  have hmode : ∀ j, Ring.write (put (38 - k) k j) 0 pkt 4 = VISU_SPECTRUM := by
    intro j
    rw [← h4]
    exact write_congr (by rw [put, if_neg (by omega)])
  have hpitch : ∀ j < 256 ^ k, u32 (be (Ring.write (put (38 - k) k j) 0 pkt) 30 4 +
      be (Ring.write (put (38 - k) k j) 0 pkt) 34 4) = (lo + j) % 2 ^ 32 := by
    intro j hj
    rw [pitch_of_put hk hlen hj, hlo]
  -- a division by zero, and one by something else
  have hfault : ∀ i < 256 ^ k, ∀ j < 256 ^ k, (lo + i) % 2 ^ 32 = 0 → (lo + j) % 2 ^ 32 ≠ 0 →
      Leaks Player.visuHandler pkt := by
    intro i hi j hj hzero hne
    refine ⟨restingPlayer, not_isolated (fun r => r.1.visu.n) (put (38 - k) k i)
      (put (38 - k) k j) ?_⟩
    have hn := n_of_fault restingPlayer pkt.length (hmode i)
      ((hpitch i hi).trans hzero)
    have hpos := n_pos restingPlayer pkt.length rfl (hmode j)
      (by rw [hpitch j hj]; exact hne)
    have h0 : restingPlayer.visu.n = 0 := rfl
    omega
  by_cases hzero : lo = 0
  · exact hfault 0 (by omega) 1 (by omega) (by omega) (by omega)
  by_cases hhalf : 2 ^ 31 ≤ lo
  · -- the missing bytes can make the sum wrap to zero
    have hover : lo + 256 ^ (38 - pkt.length) > 2 ^ 32 := by
      have := hroom hhalf
      omega
    exact hfault (2 ^ 32 - lo) (by omega) 0 (by omega) (by omega) (by omega)
  · -- the width holds one bar of the one pitch, and more or none of the next
    have hp := hpitch 0 (by omega)
    have hp' := hpitch 1 (by omega)
    rw [Nat.mod_eq_of_lt (by omega)] at hp hp'
    rw [Nat.add_zero] at hp
    by_cases hsmall : lo < 2 ^ 30
    · refine ⟨widePlayer (2 * lo + 1) (by omega) (by omega),
        not_isolated (fun r => r.1.visu.n) (put (38 - k) k 0) (put (38 - k) k 1) ?_⟩
      have hmany := n_of_many (widePlayer (2 * lo + 1) (by omega) (by omega)) pkt.length rfl (hmode 0) (by omega) (show 3 ≤ 2 * lo + 1 by omega) (by
          rw [hp]
          show (2 * lo + 1) / lo ≠ 1
          have hdiv : 2 ≤ (2 * lo + 1) / lo := (Nat.le_div_iff_mul_le (by omega)).mpr (by omega)
          omega)
      have hone := n_of_one (widePlayer (2 * lo + 1) (by omega) (by omega)) pkt.length rfl (hmode 1) (by omega) (by
          rw [hp']
          show (2 * lo + 1) / (lo + 1) = 1
          exact Nat.div_eq_of_lt_le (by omega) (by omega))
      omega
    · refine ⟨widePlayer lo (by omega) (by omega),
        not_isolated (fun r => r.1.visu.n) (put (38 - k) k 0) (put (38 - k) k 1) ?_⟩
      have hone := n_of_one (widePlayer lo (by omega) (by omega)) pkt.length rfl (hmode 0) (by omega) (by
          rw [hp]
          show lo / lo = 1
          exact Nat.div_self (by omega))
      have hmany := n_of_many (widePlayer lo (by omega) (by omega)) pkt.length rfl (hmode 1) (by omega) (show 3 ≤ lo by omega) (by
          rw [hp']
          have hnone : lo / (lo + 1) = 0 := Nat.div_eq_of_lt (by omega)
          show lo / (lo + 1) ≠ 1
          omega)
      omega

end Pitch

theorem visu_leaks (hlen : 4 ≤ pkt.length) (hn : ¬ visuNeeds (padded pkt) pkt.length) :
    Leaks Player.visuHandler pkt := by
  by_cases h4 : pkt.length = 4
  · exact mode_leaks h4
  have hkeep : ∀ {k : ℕ} (v : UInt8), k ≠ 4 → Ring.write (spot k v) 0 pkt 4 = padded pkt 4 :=
    fun v hk => write_spot v (by omega)
  simp only [visuNeeds, not_and, not_forall] at hn
  obtain ⟨hmode, hn⟩ := hn (by omega)
  by_cases hesp : padded pkt 4 &&& VISU_ESP32 ≠ 0
  swap
  · rw [if_neg hesp] at hn
    by_cases hspec : padded pkt 4 = VISU_SPECTRUM
    · rw [if_pos hspec] at hn
      exact pitch_leaks hspec hn
    · -- the last byte of the style
      rw [if_neg hspec] at hn
      have hk := hkeep (k := 13) 1 (by omega)
      refine leaks_of_spot restingPlayer (fun r => r.1.visu.style) 13 1 ?_
      rw [style_of_classical hmode hesp hspec,
        style_of_classical (hk ▸ hmode) (hk ▸ hesp) (hk ▸ hspec)]
      exact int32_spot (by omega)
  rw [if_pos hesp] at hn
  by_cases h5 : pkt.length = 5
  · -- the number of parameters is missing, and with it all of them
    let m : ℕ → UInt8 := fun i => if i = 5 then 4 else 0
    let m' : ℕ → UInt8 := fun i => if i = 5 then 4 else if i = 33 then 1 else 0
    have hm : Ring.write m 0 pkt 5 = 4 := write_of_len (by omega)
    have hm' : Ring.write m' 0 pkt 5 = 4 := write_of_len (by omega)
    have hzero : be (Ring.write m 0 pkt) 30 4 = 0 := be_zero fun i _ => by
      rw [write_of_len (by omega)]
      exact if_neg (by omega)
    have hone : be (Ring.write m' 0 pkt) 30 4 = 1 := by
      have hcut : be (Ring.write m' 0 pkt) 30 3 = 0 := be_zero fun i _ => by
        rw [write_of_len (by omega)]
        simp only [m', if_neg (show 30 + i ≠ 5 by omega), if_neg (show 30 + i ≠ 33 by omega)]
      have hlast : Ring.write m' 0 pkt 33 = 1 := write_of_len (by omega)
      rw [be, hcut, hlast]
      rfl
    have hmode4 : Ring.write m 0 pkt 4 = padded pkt 4 := write_congr rfl
    refine small_leaks m m' (write_congr rfl) (hmode4 ▸ hesp) ?_ ?_ ?_ fun _ => hzero
    · rw [hm]
      decide
    · rw [hm']
      decide
    · rw [hzero, hone]
  replace hn := not_and.mp hn (by omega)
  by_cases hcount : 4 ≤ padded pkt 5
  · -- the last byte of the scale, behind the other parameters
    rw [if_pos hcount] at hn
    simp only [scaleNeeds, not_or, not_and, not_not] at hn
    have hk := hkeep (k := 33) 1 (by omega)
    refine small_leaks (fun _ => 0) (spot 33 1) hk.symm hesp hcount ?_
      (be_spot pkt 30 3 1 (by omega)) hn.2
    rwa [write_spot 1 (by omega)]
  rw [if_neg hcount] at hn
  by_cases hspec : Player.spectrum (padded pkt 4) = true
  · -- the last byte of the scale, on the whole screen
    rw [if_pos hspec] at hn
    simp only [scaleNeeds, not_or, not_and, not_not] at hn
    have hk := hkeep (k := 17) 1 (by omega)
    have hcount' : ¬ 4 ≤ Ring.write (spot 17 1) 0 pkt 5 := by rwa [write_spot 1 (by omega)]
    refine leaks_of_spot restingPlayer (fun r => r.1.visu.spectrumScale) 17 1 ?_
    rw [scale_of_full hesp hcount hspec, scale_of_full (hk ▸ hesp) hcount' (hk ▸ hspec),
      be_spot pkt 14 3 1 (by omega), hn.2 hspec]
    exact clampScale_zero
  · -- the last byte of the style, on the whole screen
    rw [if_neg hspec] at hn
    have hk := hkeep (k := 13) 1 (by omega)
    have hcount' : ¬ 4 ≤ Ring.write (spot 13 1) 0 pkt 5 := by rwa [write_spot 1 (by omega)]
    refine leaks_of_spot restingPlayer (fun r => r.1.visu.style) 13 1 ?_
    rw [style_of_full hesp hcount hspec, style_of_full (hk ▸ hesp) hcount' (hk ▸ hspec)]
    exact int32_spot (by omega)

theorem audo_leaks (hn : ¬ 5 ≤ pkt.length) : Leaks Player.audoHandler pkt := by
  refine leaks_of_spot restingPlayer (fun r => r.1.jackMutesAmp) 4 1 ?_
  have h0 : padded pkt 4 = 0 := padded_eq_zero (by omega)
  have hv : Ring.write (spot 4 1) 0 pkt 4 = 1 := write_of_len (by omega)
  simp [Player.audoHandler, h0, hv, restingPlayer]

theorem eqlz_leaks (hn : ¬ 14 ≤ pkt.length) : Leaks Player.eqlzHandler pkt := by
  refine leaks_of_spot restingPlayer (fun r => r.1.equalizerGain[9]?) 13 1 ?_
  have h0 : padded pkt 13 = 0 := padded_eq_zero (by omega)
  have hv : Ring.write (spot 13 1) 0 pkt 13 = 1 := write_of_len (by omega)
  simp [Player.eqlzHandler, bytesAt, h0, hv]

/-- Where the packet lacks what its handler needs, what is behind it shows. -/
theorem handler_leaks (hlen : 4 ≤ pkt.length) (hmax : pkt.length ≤ MAXBUF)
    {r : List UInt8 × Handler} (hr : r ∈ allHandlers)
    (hn : ¬ Needs r.1 (padded pkt) pkt.length) : Leaks r.2 pkt := by
  rw [mem_allHandlers] at hr
  rcases hr with rfl | rfl | rfl | rfl | rfl | rfl | rfl | rfl | hr
  · exact strm_leaks hlen hn
  · exact cont_leaks hlen hn
  · exact codc_leaks hn
  · exact aude_leaks hn
  · exact audg_leaks hn
  · exact setd_leaks hmax hn
  · exact serv_leaks hlen hn
  · exact absurd trivial hn
  rcases hr with rfl | rfl | rfl | rfl | rfl | rfl | rfl | rfl | rfl | rfl
  · exact vfdc_leaks hn
  · exact grfe_leaks hlen hn
  · exact grfb_leaks hlen hn
  · exact grfs_leaks hlen hn
  · exact grfg_leaks hlen hn
  · exact grfa_leaks hlen hn
  · exact visu_leaks hlen hn
  · exact absurd trivial hn
  · exact audo_leaks hn
  · exact eqlz_leaks hn

/-! ### Reachable leftovers -/

/-- Two reachable states with the same player that the packet tells apart. -/
def Differs (pkt : List UInt8) : Prop :=
  ∃ s s', Reachable s ∧ Reachable s' ∧ s.player = s'.player ∧ s.effect pkt ≠ s'.effect pkt

theorem reachable_start (p : Player) (behind : ℕ → UInt8) : Reachable (clientStart p behind) :=
  ⟨p, behind, [], trivial, rfl⟩

/-- What a packet leaves is there for any player: the other tasks bring it about. -/
theorem reachable_packet (p : Player) (behind : ℕ → UInt8) {left : List UInt8}
    (hfits : (ClientEvent.packet left).Fits) :
    Reachable ⟨p, behindBuffer
      (processed (received (clientStart p behind).buffer left) left.length) behind⟩ :=
  ⟨p, behind, [.packet left, .others p behind], ⟨hfits, trivial, trivial⟩, rfl⟩

/-- Anything can stand in the buffer from byte 4 on. -/
theorem reachable_buffer (p : Player) (m : ℕ → UInt8) :
    ∃ s, Reachable s ∧ s.player = p ∧ ∀ i, 4 ≤ i → s.buffer i = m i := by
  let left := dmxt ++ bytesAt m 4 (MAXBUF - 4)
  have hlen : left.length = MAXBUF := by simp [left, dmxt, bytesAt, MAXBUF]
  have hfits : (ClientEvent.packet left).Fits :=
    ⟨by simp [left, dmxt], Nat.le_of_eq hlen⟩
  refine ⟨_, reachable_packet p m hfits, rfl, ?_⟩
  intro i hi
  show behindBuffer (processed (received (clientStart p m).buffer left) left.length) m i = m i
  have hop : opcode (received (clientStart p m).buffer left) = dmxt := rfl
  have hkeep : processed (received (clientStart p m).buffer left) left.length =
      received (clientStart p m).buffer left := by
    simp only [processed, hop]
    rfl
  rw [hkeep, behindBuffer]
  split
  · rename_i hlt
    have hdmxt : dmxt.length = 4 := rfl
    have hadd : 4 + (i - 4) = i := by omega
    rw [received_of_lt _ (by omega), List.getElem_append_right (by omega)]
    simp only [bytesAt, List.getElem_map, List.getElem_range, hdmxt, hadd]
  · rfl

/-- The same as a block over any content of the buffer. -/
theorem received_eq_write {old m : ℕ → UInt8} (hlen : 4 ≤ pkt.length)
    (hold : ∀ i, 4 ≤ i → old i = m i) : received old pkt = Ring.write m 0 pkt := by
  funext i
  by_cases hi : i < pkt.length
  · exact (agree_write _ _ pkt) i hi
  · rw [received_of_ge (by omega) (by omega), write_of_len (by omega), hold i (by omega)]

/-- A packet with an opcode whose handler leaks. -/
theorem differs_of_leaks (hlen : 4 ≤ pkt.length) {r : List UInt8 × Handler} (hr : r ∈ allHandlers)
    (hop : opcode (padded pkt) = r.1) (hleaks : Leaks r.2 pkt) : Differs pkt := by
  obtain ⟨p, hp⟩ := hleaks
  simp only [Isolated, not_forall] at hp
  obtain ⟨m, m', hne⟩ := hp
  obtain ⟨s, hs, hplayer, hbuf⟩ := reachable_buffer p m
  obtain ⟨s', hs', hplayer', hbuf'⟩ := reachable_buffer p m'
  refine ⟨s, s', hs, hs', hplayer.trans hplayer'.symm, ?_⟩
  rw [Client.effect, Client.effect,
    process_of_opcode hr ((opcode_received s.buffer hlen).trans hop),
    process_of_opcode hr ((opcode_received s'.buffer hlen).trans hop), hplayer, hplayer',
    received_eq_write hlen hbuf, received_eq_write hlen hbuf']
  exact hne

/-! ### Packets shorter than an opcode -/

/-- No opcode has a zero in it. -/
theorem opcode_of_zero {b : ℕ → UInt8} (h3 : b 3 = 0) : ∀ r ∈ allHandlers, opcode b ≠ r.1 := by
  intro r hr hop
  have hall : ∀ op ∈ allHandlers.map Prod.fst, op[3]? ≠ some 0 := by decide
  refine hall r.1 (List.mem_map_of_mem hr) ?_
  rw [← hop]
  show some (b 3) = some 0
  rw [h3]

/-- `process` leaves the first four bytes of the buffer. -/
theorem processed_of_lt {b : ℕ → UInt8} {n : ℤ} {i : ℕ} (hi : i < 4) : processed b n i = b i := by
  rw [processed]
  split
  · exact swap_of_lt hi
  split
  · rw [swap_of_lt (by omega), swap_of_lt (by omega)]
  split
  · exact swap_of_lt hi
  split
  · split
    · rw [swap_of_lt (by omega), swap_of_lt (by omega), swap_of_lt (by omega)]
    · rfl
  split
  · rfl
  · exact Function.update_of_ne (by omega) _ _

/-- What the zeros of the start and the packet `left` leave. -/
def leftBy (left : List UInt8) : ℕ → UInt8 :=
  behindBuffer (processed (received (clientStart restingPlayer fun _ => 0).buffer left) left.length)
    fun _ => 0

/-- A packet cut off in an opcode goes on with what a whole one left, and is handled as that. -/
theorem differs_of_prefix {r : List UInt8 × Handler} (hr : r ∈ allHandlers)
    (hlen : r.1.length = 4) (hpre : pkt <+: r.1) (h2 : 2 ≤ pkt.length) (hlt : pkt.length < 4)
    (rest : List UInt8) (hrest : rest.length ≤ 1)
    (hdo : ∀ b : ℕ → UInt8, (∀ i, 4 ≤ i → b i = leftBy (r.1 ++ rest) i) →
      ∃ p, r.2 p b pkt.length ≠ (p, [])) : Differs pkt := by
  have hlt' : 4 ≤ (r.1 ++ rest).length := by
    rw [List.length_append]
    omega
  have hleft : ∀ (i : ℕ) (hi : i < 4), leftBy (r.1 ++ rest) i = r.1[i] := by
    intro i hi
    rw [leftBy, behindBuffer, if_pos (by simp only [MAXBUF]; omega), processed_of_lt hi,
      received_of_lt _ (by omega), List.getElem_append_left]
  have hop : opcode (received (leftBy (r.1 ++ rest)) pkt) = r.1 := by
    apply List.ext_getElem
    · simp [opcode, bytesAt, hlen]
    · intro i hi hi'
      simp only [opcode, bytesAt, List.getElem_map, List.getElem_range, Nat.zero_add]
      by_cases hin : i < pkt.length
      · rw [received_of_lt _ hin, hpre.getElem hin]
      · rw [received_of_ge (by omega) (by omega), hleft i (by omega)]
  obtain ⟨p, hp⟩ := hdo (received (leftBy (r.1 ++ rest)) pkt) fun i hi =>
    received_of_ge (by omega) (by omega)
  have hfits : (ClientEvent.packet (r.1 ++ rest)).Fits := by
    refine ⟨fun hnil => ?_, ?_⟩
    · rw [hnil] at hlt'
      cases hlt'
    · rw [List.length_append, MAXBUF]
      omega
  refine ⟨_, _, reachable_packet p (fun _ => 0) hfits, reachable_start p fun _ => 0, rfl, ?_⟩
  have hzero : received (clientStart p fun _ => 0).buffer pkt 3 = 0 :=
    received_of_ge (by omega) (by omega)
  show process p (received (leftBy (r.1 ++ rest)) pkt) pkt.length ≠
    process p (received (clientStart p fun _ => 0).buffer pkt) pkt.length
  rw [process_of_opcode hr hop, process_unhandled (opcode_of_zero hzero)]
  exact hp

/-- Opcodes with the same first three bytes have the same beginnings. -/
theorem prefix_of_take {op op' : List UInt8} (hlt : pkt.length < 4) (hpre : pkt <+: op)
    (htake : op.take 3 = op'.take 3) : pkt <+: op' := by
  have hshort : ∀ l : List UInt8, (l.take 3).take pkt.length = l.take pkt.length := by
    intro l
    rw [List.take_take, Nat.min_eq_left (by omega)]
  rw [List.prefix_iff_eq_take] at hpre ⊢
  rw [← hshort op', ← htake, hshort op]
  exact hpre

theorem visuHandler_calls (p : Player) (b : ℕ → UInt8) (len : ℕ) :
    ∃ rest, (p.visuHandler b len).2 = p.visuClean ++ rest := by
  have hfinish : ∀ (v : Visu) (bars : ℤ),
      ∃ rest, (p.visuFinish v bars p.visuClean).2 = p.visuClean ++ rest := by
    intro v bars
    rw [Player.visuFinish]
    split
    · exact ⟨_, rfl⟩
    · exact ⟨_, List.append_assoc ..⟩
  rw [Player.visuHandler]
  split
  · exact ⟨[], (List.append_nil _).symm⟩
  split
  · rw [Player.visuEsp32]
    split
    · exact hfinish _ _
    · exact hfinish _ _
  · rw [Player.visuClassical]
    simp only
    split
    · split
      · exact ⟨_, rfl⟩
      · exact hfinish _ _
    · exact hfinish _ _

/-- An effect with a call. -/
theorem effect_ne {p : Player} {e : Effect} (h : e.2 ≠ []) : e ≠ (p, []) :=
  fun he => h (congrArg (fun r : Effect => r.2) he)

section Short

variable (h2 : 2 ≤ pkt.length) (hlt : pkt.length < 4)
include h2 hlt

theorem strm_differs (hpre : pkt <+: strm) : Differs pkt := by
  refine differs_of_prefix (r := (strm, Player.processStrm)) (by simp [allHandlers, handlers]) rfl
    hpre h2 hlt [0x71] (by decide) fun b hb => ⟨restingPlayer, effect_ne ?_⟩
  have hquit : leftBy (strm ++ [0x71]) 4 = 0x71 := by decide
  simp only [Player.processStrm, hb 4 (by omega), hquit]
  simp [Player.strmFlush]

theorem cont_differs (hpre : pkt <+: cont) : Differs pkt := by
  refine differs_of_prefix (r := (cont, Player.processCont)) (by simp [allHandlers, handlers]) rfl
    hpre h2 hlt [] (by decide) fun b _ => ⟨{ restingPlayer with autostart := 2 }, effect_ne ?_⟩
  simp [Player.processCont]

theorem codc_differs (hpre : pkt <+: codc) : Differs pkt := by
  refine differs_of_prefix (r := (codc, Player.processCodc)) (by simp [allHandlers, handlers]) rfl
    hpre h2 hlt [] (by decide) fun b _ => ⟨restingPlayer, effect_ne ?_⟩
  simp [Player.processCodc]

theorem audg_differs (hpre : pkt <+: audg) : Differs pkt := by
  refine differs_of_prefix (r := (audg, Player.processAudg)) (by simp [allHandlers, handlers]) rfl
    hpre h2 hlt [] (by decide) fun b _ => ⟨restingPlayer, effect_ne ?_⟩
  simp [Player.processAudg]

theorem serv_differs (hpre : pkt <+: serv) : Differs pkt := by
  refine differs_of_prefix (r := (serv, Player.processServ)) (by simp [allHandlers, handlers]) rfl
    hpre h2 hlt [] (by decide) fun b _ => ?_
  -- a server that is another one than before
  refine ⟨{ restingPlayer with newServer := le b 4 4 + 1, squeezenetwork := some (le b 4 4) }, ?_⟩
  intro he
  have hserver := congrArg (fun r : Effect => r.1.newServer) he
  simp [Player.processServ] at hserver

theorem dsco_differs (hpre : pkt <+: dsco) : Differs pkt := by
  refine differs_of_prefix (r := (dsco, Player.processDsco)) (by simp [allHandlers, handlers]) rfl
    hpre h2 hlt [] (by decide) fun b _ => ⟨restingPlayer, fun he => ?_⟩
  have hid : 12 = 9 := congrArg (fun r : Effect => r.1.playerId) he
  omega

theorem vfdc_differs (hpre : pkt <+: vfdc) : Differs pkt := by
  refine differs_of_prefix (r := (vfdc, Player.vfdcHandler))
    (by simp [allHandlers, slimpHandlers, displayHandlers]) rfl hpre h2 hlt [] (by decide)
    fun b _ => ⟨restingPlayer, effect_ne ?_⟩
  simp [Player.vfdcHandler]

theorem grfb_differs (hpre : pkt <+: grfb) : Differs pkt := by
  refine differs_of_prefix (r := (grfb, Player.grfbHandler))
    (by simp [allHandlers, slimpHandlers, displayHandlers]) rfl hpre h2 hlt [] (by decide)
    fun b _ => ⟨restingPlayer, effect_ne ?_⟩
  simp only [Player.grfbHandler]
  split <;> simp

theorem visu_differs (hpre : pkt <+: visu) : Differs pkt := by
  refine differs_of_prefix (r := (visu, Player.visuHandler))
    (by simp [allHandlers, slimpHandlers, displayHandlers]) rfl hpre h2 hlt [] (by decide)
    fun b _ => ⟨{ restingPlayer with visu.row := 32 }, effect_ne ?_⟩
  obtain ⟨rest, hcalls⟩ := visuHandler_calls { restingPlayer with visu.row := 32 } b pkt.length
  rw [hcalls]
  simp [Player.visuClean, restingPlayer]

theorem eqlz_differs (hpre : pkt <+: eqlz) : Differs pkt := by
  refine differs_of_prefix (r := (eqlz, Player.eqlzHandler))
    (by simp [allHandlers, slimpHandlers, displayHandlers]) rfl hpre h2 hlt [] (by decide)
    fun b _ => ⟨restingPlayer, effect_ne ?_⟩
  simp [Player.eqlzHandler]

theorem eager_differs {op : List UInt8} (hop : op ∈ eager) (hpre : pkt <+: op) : Differs pkt := by
  simp only [eager, List.mem_cons, List.not_mem_nil, or_false] at hop
  rcases hop with rfl | rfl | rfl | rfl | rfl | rfl | rfl | rfl | rfl | rfl | rfl | rfl | rfl |
    rfl | rfl | rfl
  · exact strm_differs h2 hlt hpre
  · exact cont_differs h2 hlt hpre
  · exact codc_differs h2 hlt hpre
  · exact audg_differs h2 hlt (prefix_of_take hlt hpre rfl)
  · exact audg_differs h2 hlt hpre
  · exact serv_differs h2 hlt hpre
  · exact dsco_differs h2 hlt hpre
  · exact vfdc_differs h2 hlt hpre
  · exact grfb_differs h2 hlt (prefix_of_take hlt hpre rfl)
  · exact grfb_differs h2 hlt hpre
  · exact grfb_differs h2 hlt (prefix_of_take hlt hpre rfl)
  · exact grfb_differs h2 hlt (prefix_of_take hlt hpre rfl)
  · exact grfb_differs h2 hlt (prefix_of_take hlt hpre rfl)
  · exact visu_differs h2 hlt hpre
  · exact audg_differs h2 hlt (prefix_of_take hlt hpre rfl)
  · exact eqlz_differs h2 hlt hpre

end Short

/-! ### Self-contained packets -/

/-- Only the opcodes of handlers have conditions. -/
theorem needs_unhandled {op : List UInt8} (hop : ∀ r ∈ allHandlers, op ≠ r.1) :
    Needs op = fun _ _ => True := by
  have hsame : needs.map Prod.fst = allHandlers.map Prod.fst := rfl
  have hnone : needs.find? (fun r => r.1 = op) = none := by
    rw [List.find?_eq_none]
    intro r hr heq
    have hmem : r.1 ∈ allHandlers.map Prod.fst := hsame ▸ List.mem_map_of_mem hr
    obtain ⟨r', hr', he⟩ := List.mem_map.mp hmem
    exact hop r' hr' ((of_decide_eq_true heq).symm.trans he.symm)
  rw [Needs, hnone]
  rfl

/-- A packet that is not self-contained is handled differently over different leftovers. -/
theorem differs_of_not_selfContained (hmax : pkt.length ≤ MAXBUF) (hself : ¬ SelfContained pkt) :
    Differs pkt := by
  rw [SelfContained] at hself
  by_cases hlen : pkt.length < 4
  · rw [if_pos hlen] at hself
    simp only [not_or, not_forall, not_not] at hself
    obtain ⟨h2, op, hop, hpre⟩ := hself
    exact eager_differs (by omega) hlen hop hpre
  · rw [if_neg hlen] at hself
    by_cases hr : ∃ r ∈ allHandlers, opcode (padded pkt) = r.1
    · obtain ⟨r, hr, he⟩ := hr
      rw [he] at hself
      exact differs_of_leaks (by omega) hr he (handler_leaks (by omega) hmax hr hself)
    · -- a packet that nobody handles needs nothing
      rw [needs_unhandled fun r hmem he => hr ⟨r, hmem, he⟩] at hself
      exact absurd trivial hself

/-- A packet has the same effect on the player, and the same replies, in any two
reachable states with the same player, whatever earlier packets left in the
receive buffer, exactly if it is self-contained. -/
theorem packet_isolated_iff (hne : pkt ≠ []) (hmax : pkt.length ≤ MAXBUF) :
    (∀ s s', Reachable s → Reachable s' → s.player = s'.player → s.effect pkt = s'.effect pkt) ↔
      SelfContained pkt := by
  constructor
  · intro hall
    by_contra hself
    obtain ⟨s, s', hs, hs', hplayer, hdiff⟩ := differs_of_not_selfContained hmax hself
    exact hdiff (hall s s' hs hs' hplayer)
  · intro hself s s' _ _ hplayer
    rw [Client.effect, Client.effect, hplayer]
    exact hself.process_eq hmax hne _ _ _

/-- The command to stop is one byte, and all of it is there: it does the same
over zeros and over what the longer packet 't' has left. -/
theorem strm_quit_isolated :
    (clientStart restingPlayer fun _ => 0).effect (strm ++ [0x71]) =
      (Client.mk restingPlayer (leftBy (strm ++ [0x74, 0x41]))).effect (strm ++ [0x71]) := by
  have hself : SelfContained (strm ++ [0x71]) := by
    rw [SelfContained, if_neg (by decide)]
    exact ⟨by decide, fun h => absurd h (by decide), fun h => absurd h (by decide)⟩
  have hfits : (ClientEvent.packet (strm ++ [0x74, 0x41])).Fits := by
    constructor <;> decide
  exact (packet_isolated_iff (by decide) (by decide)).mpr hself _ _
    (reachable_start restingPlayer fun _ => 0)
    (reachable_packet restingPlayer (fun _ => 0) hfits) rfl

/-- A display packet of six bytes has one element of display data, which is read
from the bytes 10 and 11: a packet that nothing came of has left an 'A' there. -/
theorem vfdc_not_isolated : ¬ ∀ pkt : List UInt8, pkt ≠ [] → pkt.length ≤ MAXBUF →
    ∀ s s', Reachable s → Reachable s' → s.player = s'.player → s.effect pkt = s'.effect pkt := by
  intro hall
  have hfits : (ClientEvent.packet (dmxt ++ [0, 0, 0, 0, 0, 0, 0x03, 0x41])).Fits := by
    constructor <;> decide
  have he := hall (vfdc ++ [0, 0]) (by decide) (by decide) _ _
    (reachable_start restingPlayer fun _ => 0) (reachable_packet restingPlayer (fun _ => 0) hfits)
    rfl
  have hblank : firstShown ((clientStart restingPlayer fun _ => 0).effect (vfdc ++ [0, 0])) =
      some 0x41 := (congrArg firstShown he).trans (by decide)
  revert hblank
  decide

end SqueezeliteMuse.Slimproto
