/-
SqueezeliteMuse/Isolation.lean

Packets that are handled the same whatever earlier packets left behind them.

For each opcode, a condition on the packet: that what its handler looks at is
in the packet.  Most of them ask for a length, which no handler checks; the
others depend on the fields that select what is read.  Conditions read the
packet with zeros behind it, `padded`.

One lemma for each handler says that under its condition two buffers that agree
on the packet give the same effect.  Main results: `SelfContained.process_eq`
for one packet, and `packets_isolated_run`: two clients that start with the same
player, with anything in their buffers, do the same and stay the same as long
as every packet is self-contained.
-/
import SqueezeliteMuse.Packets

namespace SqueezeliteMuse.Slimproto

open Octets

/-! ### Conditions -/

/-- A packet with zeros behind it. -/
def padded (pkt : List UInt8) : ℕ → UInt8 := Ring.write (fun _ => 0) 0 pkt

/-- strm: the command, and what it takes. -/
def strmNeeds (b : ℕ → UInt8) (len : ℕ) : Prop :=
  4 < len ∧
    ((b 4).toNat = 0x74 ∨ (b 4).toNat = 0x70 ∨ (b 4).toNat = 0x61 ∨ (b 4).toNat = 0x75 →
      22 ≤ len) ∧
    ((b 4).toNat = 0x73 → 6 ≤ len)

/-- audg: `adjust`, and the gains if it is set. -/
def audgNeeds (b : ℕ → UInt8) (len : ℕ) : Prop := 12 < len ∧ (b 12 ≠ 0 → 22 ≤ len)

/-- setd: a player name must end in the packet. -/
def setdNeeds (b : ℕ → UInt8) (len : ℕ) : Prop :=
  5 < len → b 4 = 0 → ∃ i, 5 ≤ i ∧ i < len ∧ b i = 0

/-- grfb: the brightness, or that it is negative. -/
def grfbNeeds (b : ℕ → UInt8) (len : ℕ) : Prop := 6 ≤ len ∨ 5 ≤ len ∧ 0x80 ≤ (b 4).toNat

/-- grfa: how much depends on the length of the artwork. -/
def grfaNeeds (b : ℕ → UInt8) (len : ℕ) : Prop :=
  16 ≤ len ∨ 12 ≤ len ∧ int32 (be b 4 4) < 32 ∨ 8 ≤ len ∧ be b 4 4 = 0

/-- The four-byte scale of a visualizer at `off`, or that it is above a half and
the visualizer a spectrum. -/
def scaleNeeds (b : ℕ → UInt8) (len off : ℕ) : Prop :=
  off + 4 ≤ len ∨ Player.spectrum (b 4) ∧ be b off 4 ≠ 0

/-- The width and the spacing of the bars, or that their sum is too large for
any display, whatever the bytes that are missing. -/
def pitchNeeds (b : ℕ → UInt8) (len : ℕ) : Prop :=
  38 ≤ len ∨ 2 ^ 31 ≤ u32 (be b 30 4 + be b 34 4) ∧
    u32 (be b 30 4 + be b 34 4) + 256 ^ (38 - len) ≤ 2 ^ 32

/-- visu: what is read depends on the mode and the number of parameters. -/
def visuNeeds (b : ℕ → UInt8) (len : ℕ) : Prop :=
  4 < len ∧ (b 4 ≠ 0 →
    if b 4 &&& VISU_ESP32 ≠ 0 then
      5 < len ∧
        if 4 ≤ b 5 then scaleNeeds b len 30
        else if Player.spectrum (b 4) then scaleNeeds b len 14
        else 14 ≤ len
    else if b 4 = VISU_SPECTRUM then pitchNeeds b len
    else 14 ≤ len)

/-- What the handler of each opcode looks at is in the packet. -/
def needs : List (List UInt8 × ((ℕ → UInt8) → ℕ → Prop)) :=
  [(strm, strmNeeds), (cont, fun _ len => 8 ≤ len), (codc, fun _ len => 9 ≤ len),
    (aude, fun _ len => 5 ≤ len), (audg, audgNeeds), (setd, setdNeeds),
    (serv, fun _ len => 8 ≤ len), (dsco, fun _ _ => True), (vfdc, fun _ len => len < 6),
    (grfe, fun _ len => 12 ≤ len), (grfb, grfbNeeds), (grfs, fun _ len => 22 ≤ len),
    (grfg, fun _ len => 8 ≤ len), (grfa, grfaNeeds), (visu, visuNeeds), (dmxt, fun _ _ => True),
    (audo, fun _ len => 5 ≤ len), (eqlz, fun _ len => 14 ≤ len)]

/-- The condition of an opcode. -/
def Needs (op : List UInt8) : (ℕ → UInt8) → ℕ → Prop :=
  ((needs.find? fun r => r.1 = op).map Prod.snd).getD fun _ _ => True

/-- The opcodes whose handlers do something with a packet that is shorter than its opcode. -/
def eager : List (List UInt8) :=
  [strm, cont, codc, aude, audg, serv, dsco, vfdc, grfe, grfb, grfs, grfg, grfa, visu, audo, eqlz]

/-- The packet decides alone what is done with it.  A packet of one byte is
followed by the lower half of its length, which belongs to no opcode. -/
def SelfContained (pkt : List UInt8) : Prop :=
  if pkt.length < 4 then pkt.length ≤ 1 ∨ ∀ op ∈ eager, ¬ pkt <+: op
  else Needs (opcode (padded pkt)) (padded pkt) pkt.length

/-! ### The handlers -/

section Handlers

variable {p : Player} {b b' : ℕ → UInt8} {len : ℕ}

theorem bytesAt_congr (h : Agree len b b') {off n : ℕ} (hn : off + n ≤ len) :
    bytesAt b off n = bytesAt b' off n :=
  h.map_range hn

theorem strmOpen_congr (h : Agree len b b') (hlen : 28 ≤ len) {n : ℕ} (hn : 28 + n ≤ len)
    (calls : List Call) : p.strmOpen b n calls = p.strmOpen b' n calls := by
  simp only [Player.strmOpen, bytesAt_congr h hn, h.le_eq 24 4 (by omega),
    h.le_eq 22 2 (by omega), h.be_eq 18 4 (by omega),
    h 11 (by omega), h 13 (by omega), h 14 (by omega), h 15 (by omega), h 16 (by omega)]

theorem strmStart_congr (h : Agree len b b') (hlen : 6 ≤ len) :
    p.strmStart b len = p.strmStart b' len := by
  by_cases hlong : MAX_HEADER - 1 < u32 (len - 28)
  · simp only [Player.strmStart, hlong, if_true, h 5 (by omega)]
  · -- a header that is not too long is behind a whole struct
    have hbig : 28 ≤ len ∧ 28 + u32 (len - 28) ≤ len := by
      simp only [u32, MAX_HEADER] at hlong ⊢
      omega
    simp only [Player.strmStart, hlong, if_false, h 5 (by omega), h 6 (by omega), h 7 (by omega),
      h 8 (by omega), h 9 (by omega), h 10 (by omega), strmOpen_congr h hbig.1 hbig.2]

theorem processStrm_congr (h : Agree len b b') (hn : strmNeeds b len) :
    p.processStrm b len = p.processStrm b' len := by
  obtain ⟨hlen, hargs, hstart⟩ := hn
  have h4 := h 4 hlen
  rw [h4] at hargs hstart
  simp only [Player.processStrm, h4]
  split
  · rename_i hc
    rw [h.le_eq 18 4 (hargs (.inl hc))]
  · rfl
  · rfl
  · rename_i hc
    rw [h.be_eq 18 4 (hargs (.inr (.inl hc)))]
  · rename_i hc
    rw [h.be_eq 18 4 (hargs (.inr (.inr (.inl hc))))]
  · rename_i hc
    rw [h.be_eq 18 4 (hargs (.inr (.inr (.inr hc))))]
  · rename_i hc
    exact strmStart_congr h (hstart hc)
  · rfl

theorem processCont_congr (h : Agree len b b') (hlen : 8 ≤ len) :
    p.processCont b len = p.processCont b' len := by
  simp only [Player.processCont, h.be_eq 4 4 (by omega)]

theorem processCodc_congr (h : Agree len b b') (hlen : 9 ≤ len) :
    p.processCodc b len = p.processCodc b' len := by
  simp only [Player.processCodc, h 4 (by omega), h 5 (by omega), h 6 (by omega), h 7 (by omega),
    h 8 (by omega)]

theorem processAude_congr (h : Agree len b b') (hlen : 5 ≤ len) :
    p.processAude b len = p.processAude b' len := by
  simp only [Player.processAude, h 4 (by omega)]

theorem processAudg_congr (h : Agree len b b') (hn : audgNeeds b len) :
    p.processAudg b len = p.processAudg b' len := by
  obtain ⟨hlen, hgain⟩ := hn
  have h12 := h 12 hlen
  by_cases hadjust : b 12 = 0
  · simp only [Player.processAudg, ← h12, hadjust, ne_eq, not_true_eq_false, if_false]
  · have hlong := hgain hadjust
    simp only [Player.processAudg, h12, h.be_eq 14 4 (by omega),
      h.be_eq 18 4 (by omega)]

/-- A string that ends in the packet. -/
theorem cstr_congr (h : Agree len b b') {i : ℕ} (hi : i < len) (hnul : b i = 0) (n : ℕ) :
    ∀ off ≤ i, cstr b n off = cstr b' n off := by
  induction n with
  | zero => exact fun _ _ => rfl
  | succ n ih =>
      intro off hoff
      have hb := h off (by omega)
      simp only [cstr, ← hb]
      by_cases hz : b off = 0
      · rw [if_pos hz, if_pos hz]
      · have hne : off ≠ i := fun he => hz (he ▸ hnul)
        rw [if_neg hz, if_neg hz, ih (off + 1) (by omega)]

theorem processSetd_congr (h : Agree len b b') (hlen : 4 ≤ len) (hn : setdNeeds b len) :
    p.processSetd b len = p.processSetd b' len := by
  by_cases h4 : len = 4
  · -- no name, whatever the id
    subst h4
    simp [Player.processSetd]
  have hid := h 4 (by omega)
  by_cases hzero : b 4 = 0
  · by_cases h5 : 5 < len
    · obtain ⟨i, hi, hlt, hnul⟩ := hn h5 hzero
      simp only [Player.processSetd, ← hid, hzero, if_true, cstr_congr h hlt hnul _ 5 hi]
    · simp only [Player.processSetd, ← hid, h5, if_false]
  · simp only [Player.processSetd, ← hid, hzero, if_false]

/-- A string of at most `n` characters. -/
theorem cstr_congr_of_le (h : Agree len b b') (n : ℕ) :
    ∀ off, off + n ≤ len → cstr b n off = cstr b' n off := by
  induction n with
  | zero => exact fun _ _ => rfl
  | succ n ih =>
      intro off hoff
      simp only [cstr, h off (by omega), ih (off + 1) (by omega)]

theorem processServ_congr (h : Agree len b b') (hlen : 8 ≤ len) :
    p.processServ b len = p.processServ b' len := by
  have hcap : (if u32 (len - 8) = 10 then some (SYNC_CAP ++ cstr b 10 8) else none) =
      if u32 (len - 8) = 10 then some (SYNC_CAP ++ cstr b' 10 8) else none := by
    by_cases hten : u32 (len - 8) = 10
    · have h18 : 8 + 10 ≤ len := by
        simp only [u32] at hten
        omega
      rw [cstr_congr_of_le h 10 8 h18]
    · rw [if_neg hten, if_neg hten]
  simp only [Player.processServ, hcap, h 4 (by omega), h 5 (by omega), h 6 (by omega),
    h 7 (by omega), h.le_eq 4 4 (by omega)]

theorem vfdcHandler_congr (hlen : len < 6) : p.vfdcHandler b len = p.vfdcHandler b' len := by
  have hnone : (len - 4) / 2 = 0 := by omega
  simp only [Player.vfdcHandler, hnone, Player.vfdcElements]

/-- With four bytes or more there is a column to draw, and the columns are in the packet. -/
theorem columns_fit (hlen : 12 ≤ len) (hmax : len ≤ MAXBUF) :
    int32 (p.columns len) ≠ 0 ∧ 8 + p.bitmapSize (int32 (p.columns len)) ≤ len ∧
      8 + u32 ((int32 (p.columns len) * p.screen.height).tdiv 8) ≤ len := by
  have hpos := p.screen.height_pos
  have hle : p.screen.height ≤ 32 := by
    rw [p.screen.height_eq]
    exact Nat.min_le_right ..
  have hcols : p.columns len = (len - 8) * 8 / p.screen.height := by
    have hu : u32 (len - 8) = len - 8 := by
      simp only [u32, MAXBUF] at hmax ⊢
      omega
    have hu' : u32 (u32 (len - 8) * 8) = (len - 8) * 8 := by
      rw [hu]
      simp only [u32, MAXBUF] at hmax ⊢
      omega
    rw [Player.columns, hu']
  have hone : 1 ≤ p.columns len := by
    rw [hcols, Nat.le_div_iff_mul_le hpos]
    omega
  have hmul : p.columns len * p.screen.height ≤ (len - 8) * 8 := by
    rw [hcols]
    exact Nat.div_mul_le_self ..
  have hsmall : p.columns len ≤ (len - 8) * 8 :=
    Nat.le_trans (Nat.le_mul_of_pos_right _ hpos) hmul
  have hint : int32 (p.columns len) = (p.columns len : ℤ) := by
    simp only [int32, MAXBUF] at hmax ⊢
    rw [if_pos (by omega)]
  have hdraw : p.columns len * (p.screen.height / 8) * 8 ≤ p.columns len * p.screen.height := by
    rw [Nat.mul_assoc]
    exact Nat.mul_le_mul_left _ (Nat.div_mul_le_self ..)
  refine ⟨?_, ?_, ?_⟩
  · rw [hint]
    omega
  · rw [hint, Player.bitmapSize, if_neg (by omega), Int.toNat_natCast]
    omega
  · rw [hint, ← Int.natCast_mul]
    have htdiv : ((p.columns len * p.screen.height : ℕ) : ℤ).tdiv 8 =
        ((p.columns len * p.screen.height / 8 : ℕ) : ℤ) := rfl
    rw [htdiv]
    simp only [u32, MAXBUF] at hmax ⊢
    omega

theorem grfeHandler_congr (h : Agree len b b') (hlen : 12 ≤ len) (hmax : len ≤ MAXBUF) :
    p.grfeHandler b len = p.grfeHandler b' len := by
  obtain ⟨-, hdraw, hback⟩ := columns_fit (p := p) hlen hmax
  simp only [Player.grfeHandler, Player.visuBack, h 6 (by omega), bytesAt_congr h hdraw,
    bytesAt_congr h hback]

theorem grfbHandler_congr (h : Agree len b b') (hn : grfbNeeds b len) :
    p.grfbHandler b len = p.grfbHandler b' len := by
  by_cases hlen : 6 ≤ len
  · simp only [Player.grfbHandler, h.be_eq 4 2 (by omega)]
  · -- the sign is in the packet
    obtain ⟨h5, hsign⟩ := hn.resolve_left hlen
    have hoff : ∀ c : ℕ → UInt8, c 4 = b 4 → int16 (be c 4 2) ≤ 0 := by
      intro c hc
      have hlt := (c 4).toNat_lt
      have hlt' := (c 5).toNat_lt
      have hbe : be c 4 2 = 256 * (c 4).toNat + (c 5).toNat := by simp [be]
      rw [hbe, int16, hc] at *
      split <;> omega
    have hb := hoff b rfl
    have hb' := hoff b' (h 4 (by omega)).symm
    simp only [Player.grfbHandler, hb, hb', if_true]

theorem scrollSet_congr (h : Agree len b b') (hlen : 22 ≤ len) : p.scrollSet b = p.scrollSet b' := by
  simp only [Player.scrollSet, h 4 (by omega), h 5 (by omega), h.be_eq 6 4 (by omega),
    h.be_eq 10 4 (by omega), h.be_eq 14 2 (by omega),
    h.be_eq 16 2 (by omega), h.be_eq 18 2 (by omega)]

theorem grfsHandler_congr (h : Agree len b b') (hlen : 22 ≤ len) (hmax : len ≤ MAXBUF) :
    p.grfsHandler b len = p.grfsHandler b' len := by
  have hsize : 22 + u32 (len - 22) ≤ len := by
    simp only [u32, MAXBUF] at hmax ⊢
    omega
  simp only [Player.grfsHandler, scrollSet_congr h hlen, h.be_eq 20 2 (by omega),
    bytesAt_congr h hsize]

theorem grfgHandler_congr (h : Agree len b b') (hlen : 8 ≤ len) (hmax : len ≤ MAXBUF) :
    p.grfgHandler b len = p.grfgHandler b' len := by
  have hsize : 8 + u32 (len - 8) ≤ len := by
    simp only [u32, MAXBUF] at hmax ⊢
    omega
  simp only [Player.grfgHandler, h.be_eq 6 2 (by omega), bytesAt_congr h hsize]

theorem artworkConfig_congr (h : Agree len b b') {length : ℤ} (hn : 12 ≤ len ∨ length = 0) :
    p.artworkConfig b length = p.artworkConfig b' length := by
  rcases hn with hlen | rfl
  · simp only [Player.artworkConfig, h.be_eq 8 2 (by omega),
      h.be_eq 10 2 (by omega)]
  · simp [Player.artworkConfig]

theorem grfaHandler_congr (h : Agree len b b') (hn : grfaNeeds b len) (hmax : len ≤ MAXBUF) :
    p.grfaHandler b len = p.grfaHandler b' len := by
  have h8 : 8 ≤ len := by
    rcases hn with h | ⟨h, -⟩ | ⟨h, -⟩ <;> omega
  have hlength := h.be_eq 4 4 (by omega)
  by_cases hshort : int32 (be b 4 4) < 32
  · have hconfig : 12 ≤ len ∨ int32 (be b 4 4) = 0 := by
      rcases hn with hlen | ⟨hlen, -⟩ | ⟨-, hzero⟩
      · exact .inl (by omega)
      · exact .inl hlen
      · exact .inr (by rw [hzero]; rfl)
    simp only [Player.grfaHandler, ← hlength, hshort, if_true, artworkConfig_congr h hconfig]
  · have hlen : 16 ≤ len := by
      rcases hn with hlen | ⟨-, hlt⟩ | ⟨-, hzero⟩
      · exact hlen
      · exact absurd hlt hshort
      · rw [hzero] at hshort
        exact absurd (by decide) hshort
    have hsize : 16 + u32 (len - 16) ≤ len := by
      simp only [u32, MAXBUF] at hmax ⊢
      omega
    have hfirst : p.artworkFirst b = p.artworkFirst b' := by
      rw [Player.artworkFirst, h.be_eq 8 2 (by omega),
        h.be_eq 10 2 (by omega)]
      rfl
    rw [hlength] at hshort
    simp only [Player.grfaHandler, hlength, hshort, if_false, hfirst,
      h.be_eq 12 4 (by omega), bytesAt_congr h hsize]

/-! ### visu -/

/-- A scale above a half is cut to a half before a spectrum is fitted. -/
theorem visuFinish_scale {v : Visu} (hspec : Player.spectrum v.mode = true) {scale scale' : ℕ}
    (hclamp : Player.clampScale scale = Player.clampScale scale') (bars : ℤ)
    (calls : List Call) :
    p.visuFinish { v with spectrumScale := scale } bars calls =
      p.visuFinish { v with spectrumScale := scale' } bars calls := by
  have hwanted : p.visuWanted { v with spectrumScale := scale } bars =
      p.visuWanted { v with spectrumScale := scale' } bars := by
    simp only [Player.visuWanted, Player.visuPrepare, hspec, if_true, hclamp]
  simp only [Player.visuFinish, hwanted]

/-- Of a scale that is not in the packet as a whole, something is: it is above a half. -/
theorem scale_clamped (h : Agree len b b') (hzero : ∀ i, len ≤ i → b i = 0) {off : ℕ}
    (hne : be b off 4 ≠ 0) (hcut : len < off + 4) :
    off < len ∧ Player.clampScale (be b off 4) = Player.clampScale (be b' off 4) := by
  have hlen : off < len := by
    by_contra hle
    apply hne
    have hnil : be b off 4 = be (fun _ => 0) off 4 :=
      be_congr fun i _ => hzero _ (by omega)
    rw [hnil]
    rfl
  obtain ⟨j, k, rfl, hk⟩ : ∃ j k, len = off + j ∧ 4 = j + (k + 1) :=
    ⟨len - off, 3 - (len - off), by omega, by omega⟩
  rw [hk] at hne ⊢
  obtain ⟨d, -, hd⟩ := h.missing (k := k + 1) hzero
  have hcut := be_cut (k := k + 1) hzero
  have hbig : 256 ≤ be b off (j + (k + 1)) := by
    rw [hcut, Nat.pow_succ, Nat.mul_comm (256 ^ k), Nat.mul_assoc]
    refine Nat.le_mul_of_pos_right _ (Nat.pos_of_ne_zero fun hz => hne ?_)
    rw [hcut, Nat.pow_succ, Nat.mul_comm (256 ^ k), Nat.mul_assoc, hz]
  refine ⟨hlen, ?_⟩
  rw [Player.clampScale, Player.clampScale, if_pos (by omega), if_pos (by omega)]

theorem visuSmall_congr (h : Agree len b b') (hlen : 30 ≤ len) (v : Visu) :
    p.visuSmall v b' =
      ({ (p.visuSmall v b).1 with spectrumScale := be b' 30 4 }, (p.visuSmall v b).2) := by
  simp only [Player.visuSmall, h.be_eq 6 4 (by omega),
    h.be_eq 10 4 (by omega), h.be_eq 14 4 (by omega),
    h.be_eq 18 4 (by omega), h.be_eq 22 4 (by omega),
    h.be_eq 26 4 (by omega)]

theorem visuFull_mode (v : Visu) (data : ℕ → UInt8) : (p.visuFull v data).1.mode = v.mode := by
  simp only [Player.visuFull, Player.visuLayout]
  repeat' split
  all_goals rfl

/-- On the whole screen, a spectrum. -/
theorem visuFull_spectrum (h : Agree len b b') (hlen : 14 ≤ len) {v : Visu}
    (hspec : Player.spectrum v.mode = true) :
    p.visuFull v b' =
      ({ (p.visuFull v b).1 with spectrumScale := be b' 14 4 }, (p.visuFull v b).2) := by
  simp only [Player.visuFull, hspec, if_true, h.be_eq 6 4 (by omega),
    h.be_eq 10 4 (by omega)]

/-- On the whole screen, anything else. -/
theorem visuFull_style (h : Agree len b b') (hlen : 14 ≤ len) {v : Visu}
    (hspec : ¬ Player.spectrum v.mode = true) : p.visuFull v b' = p.visuFull v b := by
  rw [Player.visuFull, Player.visuFull, if_neg hspec, if_neg hspec,
    h.be_eq 6 4 (by omega), h.be_eq 10 4 (by omega)]

/-- A pitch that is too large for every display. -/
theorem pitch_congr (h : Agree len b b') (hzero : ∀ i, len ≤ i → b i = 0)
    (hn : pitchNeeds b len) :
    (38 ≤ len) ∨ (2 ^ 31 ≤ u32 (be b 30 4 + be b 34 4) ∧ 2 ^ 31 ≤ u32 (be b' 30 4 + be b' 34 4)) := by
  rcases hn with hlen | ⟨hbig, hroom⟩
  · exact .inl hlen
  by_cases hcut : 38 ≤ len
  · exact .inl hcut
  have hlen : 34 < len := by
    by_contra hle
    have hpow : 256 ^ 4 ≤ 256 ^ (38 - len) := Nat.pow_le_pow_right (by decide) (by omega)
    omega
  obtain ⟨j, k, rfl, hk⟩ : ∃ j k, len = 34 + j ∧ 4 = j + k :=
    ⟨len - 34, 38 - len, by omega, by omega⟩
  obtain ⟨d, hd, hsum⟩ := h.missing (k := k) hzero
  rw [← hk] at hsum
  rw [show 38 - (34 + j) = k by omega] at hroom
  refine .inr ⟨hbig, ?_⟩
  rw [hsum, ← h.be_eq 30 4 (by omega)]
  simp only [u32] at hbig hroom ⊢
  omega

/-- A visualizer whose scale is in the packet, or is cut to a half. -/
theorem scale_congr (h : Agree len b b') (hzero : ∀ i, len ≤ i → b i = 0) {off : ℕ} {v : Visu}
    (hmode : v.mode = b 4) (hn : scaleNeeds b len off) (bars : ℤ) (calls : List Call) :
    p.visuFinish { v with spectrumScale := be b off 4 } bars calls =
      p.visuFinish { v with spectrumScale := be b' off 4 } bars calls := by
  by_cases hlen : off + 4 ≤ len
  · rw [h.be_eq off 4 hlen]
  · obtain ⟨hspec, hne⟩ := hn.resolve_left hlen
    rw [← hmode] at hspec
    exact visuFinish_scale hspec (scale_clamped h hzero hne (by omega)).2 bars calls

theorem scaleNeeds.le_len (hzero : ∀ i, len ≤ i → b i = 0) {off : ℕ} (hn : scaleNeeds b len off) :
    off ≤ len := by
  by_contra hle
  obtain ⟨-, hne⟩ := hn.resolve_left (by omega)
  exact hne (be_zero fun i _ => hzero _ (by omega))

theorem visuEsp32_congr (h : Agree len b b') (hzero : ∀ i, len ≤ i → b i = 0) (h5 : 5 < len)
    (hn : if 4 ≤ b 5 then scaleNeeds b len 30
      else if Player.spectrum (b 4) then scaleNeeds b len 14 else 14 ≤ len)
    {v : Visu} (hmode : v.mode = b 4) (calls : List Call) :
    p.visuEsp32 v b calls = p.visuEsp32 v b' calls := by
  rw [Player.visuEsp32, Player.visuEsp32, ← h 5 h5]
  by_cases hcount : 4 ≤ b 5
  · rw [if_pos hcount] at hn
    rw [if_pos hcount, if_pos hcount, visuSmall_congr h (hn.le_len hzero) v]
    exact scale_congr (v := (p.visuSmall v b).1) h hzero hmode hn _ calls
  rw [if_neg hcount] at hn
  rw [if_neg hcount, if_neg hcount]
  by_cases hspec : Player.spectrum (b 4) = true
  · rw [if_pos hspec] at hn
    rw [← hmode] at hspec
    have hb := visuFull_spectrum (p := p) (h.symm) (hn.le_len hzero) hspec
    rw [visuFull_spectrum h (hn.le_len hzero) hspec, hb]
    exact scale_congr (v := (p.visuFull v b').1) h hzero ((visuFull_mode v b').trans hmode) hn _
      calls
  · rw [if_neg hspec] at hn
    rw [← hmode] at hspec
    rw [visuFull_style h hn hspec]

theorem visuClassical_congr (h : Agree len b b') (hzero : ∀ i, len ≤ i → b i = 0) {v : Visu}
    (hn : if v.mode = VISU_SPECTRUM then pitchNeeds b len else 14 ≤ len) (calls : List Call) :
    p.visuClassical v b calls = p.visuClassical v b' calls := by
  by_cases hspec : v.mode = VISU_SPECTRUM
  · rw [if_pos hspec] at hn
    simp only [Player.visuClassical, hspec, if_true]
    rcases pitch_congr h hzero hn with hlen | ⟨hbig, hbig'⟩
    · simp only [h.be_eq 30 4 (by omega), h.be_eq 34 4 (by omega)]
    · -- no bars, which stands for the greatest number
      have hnone : ∀ pitch, 2 ^ 31 ≤ pitch → p.screen.width / pitch = 0 := fun pitch hp =>
        Nat.div_eq_of_lt (Nat.lt_of_lt_of_le p.screen.width_lt hp)
      rw [if_neg (by omega), if_neg (by omega), hnone _ hbig, hnone _ hbig']
  · rw [if_neg hspec] at hn
    simp only [Player.visuClassical, hspec, if_false, h.be_eq 10 4 (by omega)]

theorem visuHandler_congr (h : Agree len b b') (hzero : ∀ i, len ≤ i → b i = 0)
    (hn : visuNeeds b len) : p.visuHandler b len = p.visuHandler b' len := by
  obtain ⟨h4, hn⟩ := hn
  rw [Player.visuHandler, Player.visuHandler, ← h 4 h4]
  by_cases hblank : b 4 = 0
  · rw [if_pos hblank, if_pos hblank]
  rw [if_neg hblank, if_neg hblank]
  replace hn := hn hblank
  by_cases hesp : b 4 &&& VISU_ESP32 ≠ 0
  · rw [if_pos hesp] at hn
    rw [if_pos hesp, if_pos hesp]
    exact visuEsp32_congr h hzero hn.1 hn.2 rfl _
  · rw [if_neg hesp] at hn
    rw [if_neg hesp, if_neg hesp]
    exact visuClassical_congr h hzero hn _

theorem audoHandler_congr (h : Agree len b b') (hlen : 5 ≤ len) :
    p.audoHandler b len = p.audoHandler b' len := by
  simp only [Player.audoHandler, h 4 (by omega)]

theorem eqlzHandler_congr (h : Agree len b b') (hlen : 14 ≤ len) :
    p.eqlzHandler b len = p.eqlzHandler b' len := by
  simp only [Player.eqlzHandler, bytesAt_congr h (show 4 + 10 ≤ len by omega)]

end Handlers

/-! ### Dispatch -/

/-- Every handler with its opcode. -/
def allHandlers : List (List UInt8 × Handler) := handlers ++ slimpHandlers.flatten

theorem mem_allHandlers {r : List UInt8 × Handler} : r ∈ allHandlers ↔
    r = (strm, Player.processStrm) ∨ r = (cont, Player.processCont) ∨
      r = (codc, Player.processCodc) ∨ r = (aude, Player.processAude) ∨
      r = (audg, Player.processAudg) ∨ r = (setd, Player.processSetd) ∨
      r = (serv, Player.processServ) ∨ r = (dsco, Player.processDsco) ∨
      r = (vfdc, Player.vfdcHandler) ∨ r = (grfe, Player.grfeHandler) ∨
      r = (grfb, Player.grfbHandler) ∨ r = (grfs, Player.grfsHandler) ∨
      r = (grfg, Player.grfgHandler) ∨ r = (grfa, Player.grfaHandler) ∨
      r = (visu, Player.visuHandler) ∨ r = (dmxt, Player.dmxtHandler) ∨
      r = (audo, Player.audoHandler) ∨ r = (eqlz, Player.eqlzHandler) := by
  simp only [allHandlers, handlers, slimpHandlers, displayHandlers, List.flatten_cons,
    List.flatten_nil, List.cons_append, List.nil_append, List.mem_cons, List.not_mem_nil,
    or_false]

section Dispatch

variable {p : Player} {b : ℕ → UInt8} {len : ℕ} {h : Handler} {op : List UInt8}

theorem process_of_handlers (hop : opcode b = op) (h₀ : lookup handlers op = some h) :
    process p b len = h p b len := by
  simp only [process, hop, h₀]

theorem process_of_display (hop : opcode b = op) (h₀ : lookup handlers op = none)
    (h₁ : lookup displayHandlers op = some h) (h₂ : lookup [(audo, Player.audoHandler)] op = none)
    (h₃ : lookup [(eqlz, Player.eqlzHandler)] op = none) : process p b len = h p b len := by
  simp only [process, chain, slimpHandlers, hop, h₀, h₁, h₂, h₃, List.append_nil]

/-- A packet goes to the handler of its opcode, and to no other. -/
theorem process_of_opcode {r : List UInt8 × Handler} (hr : r ∈ allHandlers)
    (hop : opcode b = r.1) : process p b len = r.2 p b len := by
  rw [mem_allHandlers] at hr
  rcases hr with rfl | rfl | rfl | rfl | rfl | rfl | rfl | rfl | hr
  · exact process_of_handlers hop rfl
  · exact process_of_handlers hop rfl
  · exact process_of_handlers hop rfl
  · exact process_of_handlers hop rfl
  · exact process_of_handlers hop rfl
  · exact process_of_handlers hop rfl
  · exact process_of_handlers hop rfl
  · exact process_of_handlers hop rfl
  rcases hr with rfl | rfl | rfl | rfl | rfl | rfl | rfl | rfl | hr
  · exact process_of_display hop rfl rfl rfl rfl
  · exact process_of_display hop rfl rfl rfl rfl
  · exact process_of_display hop rfl rfl rfl rfl
  · exact process_of_display hop rfl rfl rfl rfl
  · exact process_of_display hop rfl rfl rfl rfl
  · exact process_of_display hop rfl rfl rfl rfl
  · exact process_of_display hop rfl rfl rfl rfl
  · exact process_of_display hop rfl rfl rfl rfl
  rcases hr with rfl | rfl
  all_goals
    have h₀ : lookup handlers (opcode b) = none := by rw [hop]; rfl
    have h₁ : lookup displayHandlers (opcode b) = none := by rw [hop]; rfl
    simp only [process, chain, slimpHandlers, h₀, h₁]
    rw [hop]
  · show ((p.audoHandler b len).1, (p.audoHandler b len).2 ++ []) = _
    rw [List.append_nil]
  · show ((p.eqlzHandler b len).1, (p.eqlzHandler b len).2 ++ []) = _
    rw [List.append_nil]

theorem lookup_eq_none {table : List (List UInt8 × Handler)} (hop : ∀ r ∈ table, opcode b ≠ r.1) :
    lookup table (opcode b) = none := by
  rw [lookup, Option.map_eq_none_iff, List.find?_eq_none]
  intro r hr
  simpa using fun he : r.1 = opcode b => hop r hr he.symm

/-- A packet that nobody handles. -/
theorem process_unhandled (hop : ∀ r ∈ allHandlers, opcode b ≠ r.1) :
    process p b len = (p, []) := by
  have hall : ∀ table ∈ handlers :: slimpHandlers, lookup table (opcode b) = none := by
    intro table ht
    refine lookup_eq_none fun r hr => hop r ?_
    rw [allHandlers, ← List.flatten_cons]
    exact List.mem_flatten_of_mem ht hr
  simp only [slimpHandlers, List.mem_cons, List.not_mem_nil, or_false, forall_eq_or_imp,
    forall_eq] at hall
  obtain ⟨h₀, h₁, h₂, h₃⟩ := hall
  simp only [process, chain, slimpHandlers, h₀, h₁, h₂, h₃]

end Dispatch

/-! ### Packets -/

/-- What is in the buffer agrees on the packet with the packet and zeros. -/
theorem agree_received (old : ℕ → UInt8) (pkt : List UInt8) :
    Agree pkt.length (padded pkt) (received old pkt) := agree_write _ _ _

theorem padded_eq_zero {pkt : List UInt8} {i : ℕ} (h : pkt.length ≤ i) : padded pkt i = 0 :=
  Ring.write_of_ge (by omega)

theorem opcode_received (old : ℕ → UInt8) {pkt : List UInt8} (hlen : 4 ≤ pkt.length) :
    opcode (received old pkt) = opcode (padded pkt) :=
  (bytesAt_congr (agree_received old pkt) (by omega)).symm

/-- Behind a packet of two or three bytes stands what was there. -/
theorem received_of_ge {old : ℕ → UInt8} {pkt : List UInt8} {i : ℕ} (h : pkt.length ≤ i)
    (hi : 2 ≤ i) : received old pkt i = old i := by
  rw [received, Ring.write_of_ge (by omega), Ring.write_of_ge (by simpa using hi)]

theorem received_of_lt (old : ℕ → UInt8) {pkt : List UInt8} {i : ℕ} (h : i < pkt.length) :
    received old pkt i = pkt[i] := by
  have hwrite := Ring.write_add
    (m := Ring.write old 0 [UInt8.ofNat (pkt.length / 256), UInt8.ofNat pkt.length]) (p := 0) h
  rwa [Nat.zero_add] at hwrite

/-- A packet that is shorter than an opcode, and with what stands behind it no opcode of a
handler that would do something with it. -/
theorem process_short {p : Player} {b : ℕ → UInt8} {len : ℕ} (hlen : len < 4)
    (h : opcode b ∉ eager) : process p b len = (p, []) := by
  by_cases hop : ∃ r ∈ allHandlers, opcode b = r.1
  swap
  · exact process_unhandled fun r hr he => hop ⟨r, hr, he⟩
  obtain ⟨r, hr, he⟩ := hop
  rw [process_of_opcode hr he]
  have hr' : r.1 ∈ eager ∨ r = (setd, Player.processSetd) ∨ r = (dmxt, Player.dmxtHandler) := by
    rw [mem_allHandlers] at hr
    rcases hr with rfl | rfl | rfl | rfl | rfl | rfl | rfl | rfl | rfl | rfl | rfl | rfl | rfl |
      rfl | rfl | rfl | rfl | rfl <;> simp [eager]
  rcases hr' with hmem | rfl | rfl
  · exact absurd (he ▸ hmem) h
  · -- a name needs five bytes
    have h5 : len ≠ 5 := by omega
    have h5' : ¬ 5 < len := by omega
    simp [Player.processSetd, h5, h5']
  · rfl

/-- A packet shorter than its opcode is the beginning of it. -/
theorem prefix_opcode (old : ℕ → UInt8) {pkt : List UInt8} (hlen : pkt.length < 4) :
    pkt <+: opcode (received old pkt) := by
  rw [List.prefix_iff_eq_take]
  apply List.ext_getElem
  · simp [opcode, bytesAt]
    omega
  · intro i hi hi'
    simp only [opcode, bytesAt, List.getElem_take, List.getElem_map, List.getElem_range,
      Nat.zero_add]
    exact (received_of_lt old hi).symm

/-- Behind a packet of one byte stands its length, which is in no opcode. -/
theorem opcode_of_length_one (old : ℕ → UInt8) {pkt : List UInt8} (hlen : pkt.length = 1) :
    opcode (received old pkt) ∉ eager := by
  have hone : (opcode (received old pkt))[1]? = some 1 := by
    obtain ⟨c, rfl⟩ := List.length_eq_one_iff.mp hlen
    rfl
  intro hmem
  have hnone : ∀ op ∈ eager, op[1]? ≠ some 1 := by decide
  exact hnone _ hmem hone

/-- What is needed of the packet is enough for its handler. -/
theorem handler_congr {pkt : List UInt8} (hlen : 4 ≤ pkt.length) (hmax : pkt.length ≤ MAXBUF)
    {b : ℕ → UInt8} (h : Agree pkt.length (padded pkt) b) {r : List UInt8 × Handler}
    (hr : r ∈ allHandlers) (hn : Needs r.1 (padded pkt) pkt.length)
    (p : Player) : r.2 p (padded pkt) pkt.length = r.2 p b pkt.length := by
  have hzero : ∀ i, pkt.length ≤ i → padded pkt i = 0 := fun i hi => padded_eq_zero hi
  rw [mem_allHandlers] at hr
  rcases hr with rfl | rfl | rfl | rfl | rfl | rfl | rfl | rfl | hr
  · exact processStrm_congr h hn
  · exact processCont_congr h hn
  · exact processCodc_congr h hn
  · exact processAude_congr h hn
  · exact processAudg_congr h hn
  · exact processSetd_congr h hlen hn
  · exact processServ_congr h hn
  · rfl
  rcases hr with rfl | rfl | rfl | rfl | rfl | rfl | rfl | rfl | rfl | rfl
  · exact vfdcHandler_congr hn
  · exact grfeHandler_congr h hn hmax
  · exact grfbHandler_congr h hn
  · exact grfsHandler_congr h hn hmax
  · exact grfgHandler_congr h hn hmax
  · exact grfaHandler_congr h hn hmax
  · exact visuHandler_congr h hzero hn
  · rfl
  · exact audoHandler_congr h hn
  · exact eqlzHandler_congr h hn

/-- A self-contained packet has the same effect, whatever was in the buffer. -/
theorem SelfContained.process_eq {pkt : List UInt8} (hself : SelfContained pkt)
    (hmax : pkt.length ≤ MAXBUF) (hne : pkt ≠ []) (p : Player) (old old' : ℕ → UInt8) :
    process p (received old pkt) pkt.length = process p (received old' pkt) pkt.length := by
  rw [SelfContained] at hself
  by_cases hlen : pkt.length < 4
  · rw [if_pos hlen] at hself
    have hquiet : ∀ old, opcode (received old pkt) ∉ eager := by
      intro old hmem
      rcases hself with hone | hop
      · have hpos := List.length_pos_of_ne_nil hne
        exact opcode_of_length_one old (by omega) hmem
      · exact hop _ hmem (prefix_opcode old hlen)
    rw [process_short hlen (hquiet old), process_short hlen (hquiet old')]
  · rw [if_neg hlen] at hself
    have hop : ∀ old, opcode (received old pkt) = opcode (padded pkt) := fun old =>
      opcode_received old (by omega)
    by_cases hr : ∃ r ∈ allHandlers, opcode (padded pkt) = r.1
    · obtain ⟨r, hr, he⟩ := hr
      rw [he] at hself
      rw [process_of_opcode hr ((hop old).trans he), process_of_opcode hr ((hop old').trans he),
        ← handler_congr (by omega) hmax (agree_received old pkt) hr hself,
        ← handler_congr (by omega) hmax (agree_received old' pkt) hr hself]
    · have hnone : ∀ old, ∀ r ∈ allHandlers, opcode (received old pkt) ≠ r.1 :=
        fun old r hmem he => hr ⟨r, hmem, (hop old).symm.trans he⟩
      rw [process_unhandled (hnone old), process_unhandled (hnone old')]

/-- Two clients with the same player, whatever is in their buffers: as long as
all packets are self-contained, they send and call the same and stay the same. -/
theorem packets_isolated_run {s s' : Client} (hplayer : s.player = s'.player)
    {es : List ClientEvent}
    (hes : ∀ e ∈ es, e.Fits ∧ ∀ pkt, e = .packet pkt → SelfContained pkt) :
    (client.run s es).2 = (client.run s' es).2 ∧
      (client.run s es).1.player = (client.run s' es).1.player := by
  refine client.run_unwound (R := fun s s' => s.player = s'.player)
    (P := fun e => e.Fits ∧ ∀ pkt, e = .packet pkt → SelfContained pkt) ?_ hplayer hes
  intro s s' e heq ⟨hfits, hself⟩
  cases e with
  | packet pkt =>
      have heffect : s.effect pkt = s'.effect pkt := by
        rw [Client.effect, Client.effect, heq]
        exact (hself pkt rfl).process_eq hfits.2 hfits.1 _ _ _
      exact ⟨congrArg (fun r : Effect => r.2) heffect, congrArg (fun r : Effect => r.1) heffect⟩
  | others player behind => exact ⟨rfl, rfl⟩

end SqueezeliteMuse.Slimproto
