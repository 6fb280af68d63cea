/-
SqueezeliteMuse/Mp4Samples.lean

Where in the file `alac_decode` and `helixaac_decode` decode the samples of an MP4 track.

A track has chunks, each somewhere in the file, and a chunk has samples one behind the other.  The
decode functions count samples and keep `pos`, the place of `readp` in the file; behind the last
sample of a chunk they skip to the next, and what is not there yet is skipped later (`consume`).

Main result: `samples_placed`: the n-th call that decodes is given the n-th sample, however the
bytes arrive, unless the first chunk begins behind what is in one piece with the media data when
these are found, and there is enough to decode all the same (`sample_misplaced`).
-/
import SqueezeliteMuse.HeaderChunks
import SqueezeliteMuse.StscExpand

namespace SqueezeliteMuse

open RunLength

/-! ### Tracks -/

/-- The samples of a track, as its tables have them: of each chunk its offset, and the sizes of its
samples. -/
structure Track where
  chunks : List (ℕ × List ℕ)
  some_samples : ∀ c ∈ chunks, c.2 ≠ []
  some_bytes : ∀ c ∈ chunks, ∀ n ∈ c.2, 0 < n
  offset_pos : ∀ c ∈ chunks, 0 < c.1
  inside : ∀ c ∈ chunks, c.1 + c.2.sum < 2 ^ 32
  count_lt : (chunks.flatMap Prod.snd).length < 2 ^ 32

/-- The place of the `n`-th sample of these chunks. -/
def placeIn : List (ℕ × List ℕ) → ℕ → Option ℕ
  | [], _ => none
  | c :: cs, n =>
      if n < c.2.length then some (c.1 + (c.2.take n).sum) else placeIn cs (n - c.2.length)

/-- The samples before the `k`-th of these chunks. -/
def samplesBefore (chunks : List (ℕ × List ℕ)) (k : ℕ) : ℕ :=
  ((chunks.take k).map fun c => c.2.length).sum

namespace Track

variable (t : Track)

/-- The sizes of all samples. -/
def sizes : List ℕ := t.chunks.flatMap Prod.snd

/-- The place of the `n`-th sample in the file. -/
def place (n : ℕ) : Option ℕ := placeIn t.chunks n

/-- `chunkinfo` has the chunks of the track, and an end mark. -/
structure HasTable (table : List ChunkTable) : Prop where
  chunk : ∀ (k : ℕ) (c : ℕ × List ℕ), t.chunks[k]? = some c →
    table[k]? = some ⟨samplesBefore t.chunks k, c.1⟩
  finish : table.getD t.chunks.length ⟨0, 0⟩ = ⟨0, 0⟩

end Track

/-- The first numbers come to no more than all. -/
theorem sum_take_le (sizes : List ℕ) (j : ℕ) : (sizes.take j).sum ≤ sizes.sum := by
  calc (sizes.take j).sum ≤ (sizes.take j).sum + (sizes.drop j).sum := Nat.le_add_right ..
    _ = sizes.sum := by rw [← List.sum_append, List.take_append_drop]

section Places

variable {chunks : List (ℕ × List ℕ)} {c : ℕ × List ℕ} {k j : ℕ}

theorem samplesBefore_succ (h : chunks[k]? = some c) :
    samplesBefore chunks (k + 1) = samplesBefore chunks k + c.2.length := by
  rw [samplesBefore, samplesBefore, List.take_add_one, h, List.map_append, List.sum_append]
  simp

/-- A sample is behind those before it in its chunk. -/
theorem placeIn_eq (h : chunks[k]? = some c) (hj : j < c.2.length) :
    placeIn chunks (samplesBefore chunks k + j) = some (c.1 + (c.2.take j).sum) := by
  induction chunks generalizing k with
  | nil => cases h
  | cons d ds ih =>
    cases k with
    | zero =>
      cases h
      show placeIn (c :: ds) (0 + j) = _
      rw [Nat.zero_add, placeIn, if_pos hj]
    | succ k =>
      have hbefore : samplesBefore (d :: ds) (k + 1) = d.2.length + samplesBefore ds k := by
        rw [samplesBefore, List.take_succ_cons, List.map_cons, List.sum_cons]
        rfl
      have hrest : d.2.length + samplesBefore ds k + j - d.2.length = samplesBefore ds k + j := by
        omega
      rw [hbefore, placeIn, if_neg (by omega), hrest]
      exact ih h

theorem sizes_eq (h : chunks[k]? = some c) (hj : j < c.2.length) :
    (chunks.flatMap Prod.snd)[samplesBefore chunks k + j]? = c.2[j]? := by
  induction chunks generalizing k with
  | nil => cases h
  | cons d ds ih =>
    rw [List.flatMap_cons]
    cases k with
    | zero =>
      cases h
      show (c.2 ++ _)[0 + j]? = _
      rw [Nat.zero_add, List.getElem?_append_left hj]
    | succ k =>
      have hbefore : samplesBefore (d :: ds) (k + 1) = d.2.length + samplesBefore ds k := by
        rw [samplesBefore, List.take_succ_cons, List.map_cons, List.sum_cons]
        rfl
      have hrest : d.2.length + samplesBefore ds k + j - d.2.length = samplesBefore ds k + j := by
        omega
      rw [hbefore, List.getElem?_append_right (by omega), hrest]
      exact ih h

/-- The last chunk has the last samples. -/
theorem samplesBefore_length (chunks : List (ℕ × List ℕ)) :
    samplesBefore chunks chunks.length = (chunks.flatMap Prod.snd).length := by
  rw [samplesBefore, List.take_length, List.length_flatMap]

theorem samplesBefore_le (h : chunks[k]? = some c) :
    samplesBefore chunks k + c.2.length ≤ (chunks.flatMap Prod.snd).length := by
  have hk : k < chunks.length := (List.getElem?_eq_some_iff.mp h).1
  rw [← samplesBefore_succ h, ← samplesBefore_length]
  unfold samplesBefore
  rw [List.take_length, ← List.take_append_drop (k + 1) chunks]
  rw [List.map_append, List.sum_append, List.take_append_drop]
  omega

end Places

/-! ### The tables of a track -/

/-- The boxes stsc and stco say the chunks of the track. -/
structure Track.SaidBy (t : Track) (stsc stco : ℕ → UInt8) : Prop where
  wellFormed : StscWellFormed stsc (stcoEntries stco)
  entries : t.chunks.length = stcoEntries stco
  chunk : ∀ (k : ℕ) (c : ℕ × List ℕ), t.chunks[k]? = some c →
    c.1 = stcoOffset stco k ∧ c.2.length = valueAt (stscRuns stsc) (1 + k)

section Tables

variable {t : Track} {stsc stco m : ℕ → UInt8} {table : List ChunkTable} {k entries : ℕ}

theorem setSamples_behind {step : ℕ} (count : ℕ) {i sample : ℕ} {table : List ChunkTable}
    (hk : i + count ≤ k) : (setSamples step count i sample table).1[k]? = table[k]? := by
  induction count generalizing i sample table with
  | zero => rfl
  | succ count ih =>
    have hother : i ≠ k := by omega
    rw [setSamples, ih (by omega), List.getElem?_modify]
    simp [hother]

/-- The entry behind the chunks is not filled in. -/
theorem fillChunks_behind (n : ℕ) {p last lastSamples sample : ℕ} {table : List ChunkTable}
    (hruns : ∀ r ∈ readRuns m n p, 1 ≤ r.1 ∧ r.1 ≤ entries) (hlast : last ≤ entries) :
    (fillChunks m entries n p last lastSamples sample table)[entries]? = table[entries]? := by
  induction n generalizing p last lastSamples sample table with
  | zero => rfl
  | succ n ih =>
    rw [readRuns] at hruns
    obtain ⟨hone, hmost⟩ := hruns _ (List.mem_cons_self ..)
    dsimp only at hone hmost
    have hlt : unpackN m p < 2 ^ 32 := Octets.be_lt ..
    have hsub : u32Sub (unpackN m p) 1 = unpackN m p - 1 := by unfold u32Sub; omega
    rw [fillChunks, hsub, ih (fun r hr => hruns r (List.mem_cons_of_mem _ hr)) hmost]
    have hclose : (if last ≠ 0 then
        setSamples lastSamples (unpackN m p - 1 - (last - 1)) (last - 1) sample table
        else (table, sample)).1[entries]? = table[entries]? := by
      split
      · exact setSamples_behind _ (by omega)
      · rfl
    split
    · rw [setSamples_behind _ (by omega), hclose]
    · exact hclose

theorem samplesBefore_eq (h : t.SaidBy stsc stco) (hk : k ≤ t.chunks.length) :
    samplesBefore t.chunks k = sumTo (stscRuns stsc) 1 k := by
  induction k with
  | zero => rfl
  | succ k ih =>
    have hc := List.getElem?_eq_getElem (l := t.chunks) (i := k) (by omega)
    rw [samplesBefore_succ hc, ih (by omega), sumTo, (h.chunk k _ hc).2]

/-- The table that is built from the boxes is that of the track. -/
theorem Track.SaidBy.hasTable (h : t.SaidBy stsc stco) :
    t.HasTable (chunkTable stco (some (stash stsc))) where
  chunk := by
    intro k c hc
    have hk := (List.getElem?_eq_some_iff.mp hc).1
    have hentry := chunkTable_tableOf h.wellFormed k (by rw [← h.entries]; exact hk)
    have hall := samplesBefore_le hc
    have hlt := t.count_lt
    rw [hentry, ← samplesBefore_eq h (by omega), ← (h.chunk k c hc).1, Nat.mod_eq_of_lt (by omega)]
  finish := by
    have hruns := stash_runs h.wellFormed
    have hmost : ∀ r ∈ stscRuns stsc, 1 ≤ r.1 ∧ r.1 ≤ stcoEntries stco := by
      intro r hr
      refine ⟨?_, h.wellFormed.most r hr⟩
      have hfirst := h.wellFormed.first
      have hordered := h.wellFormed.ordered
      cases hcases : stscRuns stsc with
      | nil =>
        rw [hcases] at hr
        cases hr
      | cons r₀ rest =>
        rw [hcases] at hr hfirst hordered
        have hone : r₀.1 = 1 := by simpa using hfirst
        rcases List.mem_cons.mp hr with rfl | hr
        · omega
        · have hlater := (List.pairwise_cons.mp hordered).1 r hr
          omega
    rw [h.entries, List.getD_eq_getElem?_getD]
    show ((fillChunks _ (stcoEntries stco) _ 4 0 0 0 _)[stcoEntries stco]?).getD _ = _
    rw [fillChunks_behind _ (by rw [hruns]; exact hmost) (Nat.zero_le _)]
    show ((chunkOffsets stco (stcoEntries stco))[stcoEntries stco]?).getD _ = _
    rw [chunkOffsets, List.getElem?_append_right (by simp)]
    simp

end Tables

/-! ### The parser between two samples -/

/-- `streambuf` has the file from where `pos` is, and all that has arrived. -/
def InFile {κ : Type} (data : List UInt8) (arrived : ℕ) (b : Buffer) (p : Mp4 κ) : Prop :=
  p.pos + bufUsed b = arrived ∧ Carries data p.pos b

/-- The next sample is the `n`-th: what is to be skipped before it, and when its chunk ends. -/
structure AtSample {κ : Type} (t : Track) (data : List UInt8) (arrived : ℕ) (b : Buffer) (p : Mp4 κ)
    (n : ℕ) : Prop where
  file : InFile data arrived b p
  table : ∃ table, p.chunkinfo = some table ∧ t.HasTable table
  there : ∃ k j c, t.chunks[k]? = some c ∧ j < c.2.length ∧ n = samplesBefore t.chunks k + j ∧
    p.nextchunk = k + 1 ∧ (k + 1 < t.chunks.length → p.sample = n + 1) ∧
    p.pos + p.consume = c.1 + (c.2.take j).sum

section Parser

variable {κ : Type} {t : Track} {data : List UInt8} {arrived n : ℕ} {b : Buffer} {p p' : Mp4 κ}

theorem InFile.takes (h : InFile data arrived b p) {m : ℕ} (hm : m ≤ bufUsed b)
    (hpos : p'.pos = p.pos + m) : InFile data arrived (bufIncReadp b m) p' := by
  obtain ⟨harrived, hcarries⟩ := h
  refine ⟨?_, ?_⟩
  · rw [hpos, used_bufIncReadp hcarries.wf hm]
    omega
  · rw [hpos]
    exact hcarries.bufIncReadp hm

/-- What is kept of the samples does not matter here. -/
theorem AtSample.same (h : AtSample t data arrived b p n) (hpos : p'.pos = p.pos)
    (hconsume : p'.consume = p.consume) (hsample : p'.sample = p.sample)
    (hnext : p'.nextchunk = p.nextchunk) (htable : p'.chunkinfo = p.chunkinfo) :
    AtSample t data arrived b p' n := by
  obtain ⟨⟨harrived, hcarries⟩, table, k, j, c, hc, hj, hn, hnextchunk, hcount, hplace⟩ := h
  refine ⟨⟨?_, ?_⟩, ?_, k, j, c, hc, hj, hn, ?_, ?_, ?_⟩
  · rwa [hpos]
  · rwa [hpos]
  · rwa [htable]
  · rwa [hnext]
  · rwa [hsample]
  · rwa [hpos, hconsume]

/-- The sample begins at `readp`, if nothing is to be skipped. -/
theorem AtSample.placed (h : AtSample t data arrived b p n) (hconsume : p.consume = 0) :
    ∀ place ∈ t.place n, arrived - bufUsed b = place ∧ b.content <+: data.drop place := by
  obtain ⟨⟨harrived, hcarries⟩, -, k, j, c, hc, hj, hn, -, -, hplace⟩ := h
  have hat : t.place n = some p.pos := by
    rw [hn, Track.place, placeIn_eq hc hj, ← hplace, hconsume]
    rfl
  intro place hmem
  rw [hat] at hmem
  cases hmem
  exact ⟨by omega, hcarries.bytes⟩

theorem AtSample.lt (h : AtSample t data arrived b p n) : n < t.sizes.length := by
  obtain ⟨-, -, k, j, c, hc, hj, hn, -⟩ := h
  have hle := samplesBefore_le hc
  show n < (t.chunks.flatMap Prod.snd).length
  omega

/-- Bytes to consume are taken. -/
theorem AtSample.reach (h : AtSample t data arrived b p n) {bytes : ℕ} (hle : bytes ≤ bufUsed b) :
    AtSample t data arrived (p.reach b bytes).1 (p.reach b bytes).2 n := by
  obtain ⟨hfile, table, k, j, c, hc, hj, hn, hnext, hcount, hplace⟩ := h
  have hinside := t.inside c (List.mem_of_getElem? hc)
  have hsum := sum_take_le c.2 j
  have hmin : min p.consume bytes ≤ p.consume := Nat.min_le_left ..
  have hpos : (p.reach b bytes).2.pos = p.pos + min p.consume bytes := by
    show (p.pos + min p.consume bytes) % 2 ^ 32 = _
    rw [Nat.mod_eq_of_lt (by omega)]
  refine ⟨hfile.takes (by omega) hpos, table, k, j, c, hc, hj, hn, hnext, hcount, ?_⟩
  rw [hpos]
  show p.pos + min p.consume bytes + (p.consume - min p.consume bytes) = _
  omega

/-! ### Behind a sample -/

theorem le_samplesBefore (hsome : ∀ c ∈ t.chunks, c.2 ≠ []) {k : ℕ} (hk : k ≤ t.chunks.length) :
    k ≤ samplesBefore t.chunks k := by
  induction k with
  | zero => exact Nat.zero_le _
  | succ k ih =>
    have hc := List.getElem?_eq_getElem (l := t.chunks) (i := k) (by omega)
    have hpos := List.length_pos_of_ne_nil (hsome _ (List.mem_of_getElem? hc))
    rw [samplesBefore_succ hc]
    have hbefore := ih (by omega)
    omega

/-- In a chunk, what is consumed is passed. -/
theorem moveOn_within {moves : Bool} {bytes : ℕ}
    (hmore : p.next.offset = 0 ∨ p.sample ≠ p.next.sample)
    (h : p.moveOn b moves bytes = some (b', p')) :
    b' = bufIncReadp b bytes ∧ p'.pos = (p.pos + bytes) % 2 ^ 32 ∧ p'.consume = p.consume ∧
      p'.nextchunk = p.nextchunk ∧ p'.chunkinfo = p.chunkinfo ∧
      (p.next.offset ≠ 0 → p'.sample = (p.sample + 1) % 2 ^ 32) := by
  unfold Mp4.moveOn at h
  have hnot : ¬ (p.next.offset ≠ 0 ∧ p.sample = p.next.sample) := by
    rintro ⟨hne, heq⟩
    rcases hmore with hzero | hother
    · exact hne hzero
    · exact hother heq
  dsimp only at h
  rw [if_neg hnot] at h
  split at h
  · cases h
    refine ⟨rfl, rfl, ?_, ?_, ?_, fun hne => ?_⟩
    · show (ite _ _ _ : Mp4 κ).consume = _
      split <;> rfl
    · show (ite _ _ _ : Mp4 κ).nextchunk = _
      split <;> rfl
    · show (ite _ _ _ : Mp4 κ).chunkinfo = _
      split <;> rfl
    · show (ite _ _ _ : Mp4 κ).sample = _
      rw [if_pos hne]
  · cases h

/-- Behind a chunk, the way to the next is passed, or is to be consumed. -/
theorem moveOn_behind {moves : Bool} {bytes : ℕ} (hoffset : p.next.offset ≠ 0)
    (hlast : p.sample = p.next.sample) (h : p.moveOn b moves bytes = some (b', p')) :
    p.pos < p.next.offset ∧
      p' = { p with
        sample := (p.sample + 1) % 2 ^ 32
        nextchunk := (p.nextchunk + 1) % 2 ^ 32
        pos := p'.pos
        consume := p'.consume } ∧
      (p.next.offset - p.pos ≤ bufUsed b ∧ b' = bufIncReadp b (p.next.offset - p.pos) ∧
          p'.pos = (p.pos + (p.next.offset - p.pos)) % 2 ^ 32 ∧ p'.consume = p.consume ∨
        b' = b ∧ p'.pos = p.pos ∧ p'.consume = p.next.offset - p.pos) := by
  unfold Mp4.moveOn at h
  dsimp only at h
  rw [if_pos ⟨hoffset, hlast⟩, if_pos hoffset] at h
  split at h
  · rename_i hahead
    split at h
    · rename_i hthere
      cases h
      exact ⟨hahead, rfl, .inl ⟨hthere, rfl, rfl, rfl⟩⟩
    · cases h
      exact ⟨hahead, rfl, .inr ⟨rfl, rfl, rfl⟩⟩
  · cases h

theorem next_of_table {table : List ChunkTable} (htable : p.chunkinfo = some table) :
    p.next = table.getD p.nextchunk ⟨0, 0⟩ := by
  unfold Mp4.next
  rw [htable]

/-- Behind a sample is the next one, or it was the last. -/
theorem AtSample.moveOn (h : AtSample t data arrived b p n) {moves : Bool} {bytes : ℕ}
    (hconsume : p.consume = 0) (hsize : t.sizes[n]? = some bytes) (hle : bytes ≤ bufUsed b)
    (hmove : p.moveOn b moves bytes = some (b', p')) :
    AtSample t data arrived b' p' (n + 1) ∨ t.sizes.length ≤ n + 1 := by
  have hlt := h.lt
  have hcountlt : t.sizes.length < 2 ^ 32 := t.count_lt
  obtain ⟨hfile, ⟨table, htable, hchunks⟩, k, j, c, hc, hj, hn, hnext, hcount, hplace⟩ := h
  have hinside := t.inside c (List.mem_of_getElem? hc)
  have hsizej : c.2[j]? = some bytes := by
    rw [← sizes_eq hc hj, ← hn]
    exact hsize
  have hsucc : (c.2.take (j + 1)).sum = (c.2.take j).sum + bytes := by
    rw [List.take_add_one, hsizej, List.sum_append]
    simp
  have hsum := sum_take_le c.2 (j + 1)
  have hinfo := next_of_table htable
  have hbefore := samplesBefore_succ hc
  -- what comes next in the same chunk
  have hwithin : (p.next.offset = 0 ∨ p.sample ≠ p.next.sample) → j + 1 < c.2.length →
      (k + 1 < t.chunks.length → p.next.offset ≠ 0) →
      AtSample t data arrived b' p' (n + 1) := by
    intro hmore hj' hcounts
    obtain ⟨rfl, hpos, hconsume', hnext', htable', hsample'⟩ := moveOn_within hmore hmove
    have hpos' : p'.pos = p.pos + bytes := by
      rw [hpos, Nat.mod_eq_of_lt (by omega)]
    refine ⟨hfile.takes hle hpos', ⟨table, by rw [htable', htable], hchunks⟩, k, j + 1, c, hc, hj',
      by omega, by rw [hnext', hnext], fun hk => ?_, ?_⟩
    · have hsample := hcount hk
      have hle := le_samplesBefore t.some_samples (k := k + 1) (by omega)
      have hall := samplesBefore_le hc
      have hlen : (t.chunks.flatMap Prod.snd).length = t.sizes.length := rfl
      rw [hsample' (hcounts hk), Nat.mod_eq_of_lt (by omega)]
      omega
    · rw [hpos', hconsume', hsucc]
      omega
  by_cases hk : k + 1 < t.chunks.length
  · -- a chunk comes next
    obtain ⟨d, hd⟩ : ∃ d, t.chunks[k + 1]? = some d := ⟨_, List.getElem?_eq_getElem hk⟩
    have hdpos := t.offset_pos d (List.mem_of_getElem? hd)
    have hdinside := t.inside d (List.mem_of_getElem? hd)
    have hdsome := t.some_samples d (List.mem_of_getElem? hd)
    have hentry : p.next = ⟨samplesBefore t.chunks (k + 1), d.1⟩ := by
      rw [hinfo, hnext, List.getD_eq_getElem?_getD, hchunks.chunk _ _ hd]
      rfl
    have hsample := hcount hk
    by_cases hj' : j + 1 < c.2.length
    · refine .inl (hwithin (.inr ?_) hj' fun _ => ?_)
      · rw [hentry, hsample]
        show n + 1 ≠ samplesBefore t.chunks (k + 1)
        omega
      · rw [hentry]
        show d.1 ≠ 0
        omega
    · left
      have hoffset : p.next.offset = d.1 := by rw [hentry]
      have hlast : p.sample = p.next.sample := by
        rw [hentry, hsample]
        show n + 1 = samplesBefore t.chunks (k + 1)
        omega
      obtain ⟨hahead, hp', hskip⟩ := moveOn_behind (by omega) hlast hmove
      have hall := samplesBefore_le hd
      have hlen : (t.chunks.flatMap Prod.snd).length = t.sizes.length := rfl
      have hdlen := List.length_pos_of_ne_nil hdsome
      have hle' := le_samplesBefore t.some_samples (k := k + 1) (by omega)
      have hnext' : p'.nextchunk = k + 2 := by
        rw [hp']
        show (p.nextchunk + 1) % 2 ^ 32 = _
        rw [hnext, Nat.mod_eq_of_lt (by omega)]
      have hsample' : p'.sample = n + 2 := by
        rw [hp']
        show (p.sample + 1) % 2 ^ 32 = _
        rw [hsample, Nat.mod_eq_of_lt (by omega)]
      have htable' : p'.chunkinfo = some table := by
        rw [hp']
        exact htable
      have hthere : ∃ k' j' c', t.chunks[k']? = some c' ∧ j' < c'.2.length ∧
          n + 1 = samplesBefore t.chunks k' + j' ∧ p'.nextchunk = k' + 1 ∧
          (k' + 1 < t.chunks.length → p'.sample = n + 1 + 1) ∧
          d.1 = c'.1 + (c'.2.take j').sum :=
        ⟨k + 1, 0, d, hd, hdlen, by omega, hnext', fun _ => hsample', by simp⟩
      obtain ⟨k', j', c', hc', hj'', hn', hnextchunk', hcount', hat⟩ := hthere
      rcases hskip with ⟨hroom, rfl, hpos', hconsume'⟩ | ⟨rfl, hpos', hconsume'⟩
      · have hpos'' : p'.pos = p.pos + (p.next.offset - p.pos) := by
          rw [hpos', Nat.mod_eq_of_lt (by omega)]
        refine ⟨hfile.takes hroom hpos'', ⟨table, htable', hchunks⟩, k', j', c', hc', hj'', hn',
          hnextchunk', hcount', ?_⟩
        omega
      · have hfile' : InFile data arrived b' p' := by
          obtain ⟨harrived, hcarries⟩ := hfile
          unfold InFile
          rw [hpos']
          exact ⟨harrived, hcarries⟩
        refine ⟨hfile', ⟨table, htable', hchunks⟩, k', j', c', hc', hj'', hn', hnextchunk',
          hcount', ?_⟩
        omega
  · -- the last chunk
    have hlast : k + 1 = t.chunks.length := by
      have hlt' := (List.getElem?_eq_some_iff.mp hc).1
      omega
    have hentry : p.next = ⟨0, 0⟩ := by
      rw [hinfo, hnext, hlast]
      exact hchunks.finish
    by_cases hj' : j + 1 < c.2.length
    · refine .inl (hwithin (.inl ?_) hj' fun hk' => absurd hk' hk)
      rw [hentry]
    · right
      have hall := samplesBefore_length t.chunks
      rw [← hlast] at hall
      show (t.chunks.flatMap Prod.snd).length ≤ n + 1
      omega

end Parser

/-! ### The header -/

/-- What a parser has at the first byte of audio: the tables of the track, at its first chunk.
`sized` is what the codec knows of the sizes. -/
structure AudioOf {κ : Type} (t : Track) (sized : ℕ → κ → Prop) (audio : Mp4 κ) : Prop where
  table : ∃ table, audio.chunkinfo = some table ∧ t.HasTable table
  first : ∃ c, t.chunks[0]? = some c ∧ audio.pos = c.1
  codec : sized 0 audio.codec

/-- A file that stco can tell the places of, whose header says the tables of the track. -/
structure MediaFile {κ : Type} (c : Mp4Codec κ) (data : List UInt8) (p₀ : Mp4 κ) (t : Track)
    (sized : ℕ → κ → Prop) : Prop where
  short : data.length < 2 ^ 32
  header : ∃ audio, HeaderOf c data 0 p₀ (some audio) ∧ AudioOf t sized audio

/-- The header is being read, and says the tables of the track. -/
structure InHeader {κ : Type} (c : Mp4Codec κ) (t : Track) (sized : ℕ → κ → Prop)
    (data : List UInt8) (arrived : ℕ) (b : Buffer) (p : Mp4 κ) : Prop where
  file : InFile data arrived b p
  some_file : arrived < 2 ^ 32
  header : ∃ audio, HeaderOf c data (p.pos + p.consume) p.ahead (some audio) ∧ AudioOf t sized audio

/-- In a call that comes to the media data, the first chunk begins in what is in one piece with
them, or there is too little to decode. -/
def startClear {κ : Type} (c : Mp4Codec κ) (few : Buffer → κ → Prop) :
    ℕ → ℕ → Buffer → Mp4 κ → Prop
  | 0, _, _, _ => True
  | fuel + 1, bytes, b, p =>
      8 ≤ bytes →
        (boxOf b.peek = .mdat →
          (p.pass 8).firstSkip ≤ bytes - 8 ∨ few (bufIncReadp b 8) (c.start p.codec)) ∧
        match boxStep c bytes b p with
        | .done _ _ _ => True
        | .next bytes b p => startClear c few fuel bytes b p

instance startClear.decide {κ : Type} (c : Mp4Codec κ) (few : Buffer → κ → Prop)
    [∀ b l, Decidable (few b l)] :
    (fuel bytes : ℕ) → (b : Buffer) → (p : Mp4 κ) → Decidable (startClear c few fuel bytes b p)
  | 0, _, _, _ => isTrue trivial
  | fuel + 1, bytes, b, p =>
      have : Decidable (match boxStep c bytes b p with
          | .done _ _ _ => True
          | .next bytes b p => startClear c few fuel bytes b p) :=
        match boxStep c bytes b p with
        | .done _ _ _ => isTrue trivial
        | .next bytes b p => startClear.decide c few fuel bytes b p
      inferInstanceAs (Decidable (8 ≤ bytes →
        (boxOf b.peek = .mdat →
          (p.pass 8).firstSkip ≤ bytes - 8 ∨ few (bufIncReadp b 8) (c.start p.codec)) ∧ _))

section Header

variable {κ : Type} {c : Mp4Codec κ} {t : Track} {sized : ℕ → κ → Prop} {data : List UInt8}
variable {arrived bytes q : ℕ} {b b' : Buffer} {p p' audio : Mp4 κ} {few : Buffer → κ → Prop}

/-- The first sample is next, of the first chunk. -/
theorem headerOf_start {result : Option (Mp4 κ)} (h : HeaderOf c data q p result) :
    ∀ audio, result = some audio → audio.sample = 1 ∧ audio.nextchunk = 1 := by
  induction h with
  | media => rintro _ ⟨⟩; exact ⟨rfl, rfl⟩
  | noTrack => exact fun _ h => (nomatch h)
  | error => exact fun _ h => (nomatch h)
  | box _ _ _ _ _ ih => exact ih

/-- What is left by media data that are found: all before the first chunk is passed, or is to be
consumed and there is too little to decode. -/
structure Found.Start (few : Buffer → κ → Prop) (data : List UInt8) (arrived : ℕ) (b : Buffer)
    (p : Mp4 κ) : Prop where
  file : InFile data arrived b p
  first : p.consume ≠ 0 → ∃ table, p.chunkinfo = some table ∧
    p.pos + p.consume = (table.getD 0 ⟨0, 0⟩).offset
  few : p.consume ≠ 0 → few b p.codec

theorem mediaStep_start (hfile : InFile data arrived b p) (hlt : arrived < 2 ^ 32)
    (hle : bytes ≤ bufContRead b) (h8 : 8 ≤ bytes) (hp : p.consume = 0)
    (hclear : (p.pass 8).firstSkip ≤ bytes - 8 ∨ few (bufIncReadp b 8) (c.start p.codec))
    (hstep : mediaStep c bytes b p = .done .media b' p') : Found.Start few data arrived b' p' := by
  have hused := hfile.2.wf.contRead_le_used
  have hpos : (p.pos + 8) % 2 ^ 32 = p.pos + 8 := by
    have harrived := hfile.1
    rw [Nat.mod_eq_of_lt (by omega)]
  have hbehind : InFile data arrived (bufIncReadp b 8) (p.pass 8) := hfile.takes (by omega) hpos
  unfold mediaStep at hstep
  dsimp only at hstep
  split at hstep
  · cases hstep
  · split at hstep
    · -- all before the first chunk is there
      rename_i hskip
      cases hstep
      have hroom := used_bufIncReadp hfile.2.wf (n := 8) (by omega)
      have harrived := hbehind.1
      have hpass : (p.pass 8).firstSkip ≤ bufUsed (bufIncReadp b 8) := by
        show (p.pass 8).firstSkip ≤ _
        have hthere : (p.pass 8).firstSkip ≤ bytes - 8 := hskip
        omega
      refine ⟨hbehind.takes hpass ?_, fun hne => absurd hp hne, fun hne => absurd hp hne⟩
      show ((p.pos + 8) % 2 ^ 32 + (p.pass 8).firstSkip) % 2 ^ 32 = _
      exact Nat.mod_eq_of_lt (by
        show (p.pass 8).pos + _ < _
        omega)
    · rename_i hskip
      cases hstep
      have hfew := hclear.resolve_left hskip
      refine ⟨hbehind, fun hne => ?_, fun _ => hfew⟩
      have hsome : (p.pass 8).firstSkip ≠ 0 := hne
      show ∃ table, p.chunkinfo = some table ∧ (p.pass 8).pos + (p.pass 8).firstSkip = _
      unfold Mp4.firstSkip at hsome ⊢
      split at hsome
      · rename_i table htable
        refine ⟨table, htable, ?_⟩
        omega
      · exact absurd rfl hsome

/-- Media data are not parsed. -/
theorem boxStep_mdat (hmedia : c.config ≠ .mdat) (hbox : boxOf b.peek = .mdat) :
    boxStep c bytes b p = mediaStep c bytes b p := by
  have hkept : keptBox c (boxOf b.peek) = false := by
    rw [hbox]
    exact keptBox_mdat hmedia
  unfold boxStep
  dsimp only
  rw [parseBox_of_not_kept hkept, ite_self, hbox]
  rfl

/-- What is passed of a box is passed in the file. -/
theorem passBox_inFile {len : ℕ} (hfile : InFile data arrived b p) (hlt : arrived < 2 ^ 32)
    (hle : bytes ≤ bufContRead b) {box : Box}
    (hwaits : bytes < boxConsume box len → box ∈ c.waits → len ≤ b.size →
      InFile data arrived (bufUnwrap c.malloc len b len) p) :
    match passBox c bytes b p box len with
    | .done .failed _ _ => True
    | .done .media _ _ => False
    | .done .more b' p' => InFile data arrived b' p'
    | .next bytes' b' p' => InFile data arrived b' p' ∧ bytes' ≤ bufContRead b' ∧
        p'.consume = p.consume := by
  have hused := hfile.2.wf.contRead_le_used
  have harrived := hfile.1
  have hmod : ∀ m ≤ bytes, (p.pos + m) % 2 ^ 32 = p.pos + m := fun m hm =>
    Nat.mod_eq_of_lt (by omega)
  unfold passBox
  by_cases hall : boxConsume box len ≤ bytes
  · rw [if_pos hall]
    refine ⟨hfile.takes (by omega) (hmod _ hall), ?_, rfl⟩
    have hrest := contRead_bufIncReadp (n := boxConsume box len) hfile.2.wf
    omega
  rw [if_neg hall]
  by_cases hwait : box ∈ c.waits
  · rw [if_neg (not_not.mpr hwait)]
    by_cases hsize : len ≤ b.size
    · rw [if_neg (by omega)]
      exact hwaits (by omega) hwait hsize
    · rw [if_pos (by omega)]
      trivial
  · rw [if_pos hwait]
    show InFile data arrived (bufIncReadp b bytes) { p with
      pos := (p.pos + bytes) % 2 ^ 32, consume := boxConsume box len - bytes }
    exact hfile.takes (by omega) (hmod _ (Nat.le_refl _))

/-- A round leaves the parser where `readp` is in the file. -/
theorem boxStep_inFile (hmedia : c.config ≠ .mdat) (hfile : InFile data arrived b p)
    (hlt : arrived < 2 ^ 32) (hle : bytes ≤ bufContRead b) (h8 : 8 ≤ bytes) (hp : p.consume = 0)
    (hround : RoundClear c bytes b p)
    (hclear : boxOf b.peek = .mdat →
      (p.pass 8).firstSkip ≤ bytes - 8 ∨ few (bufIncReadp b 8) (c.start p.codec)) :
    match boxStep c bytes b p with
    | .done .failed _ _ => True
    | .done .media b' p' => Found.Start few data arrived b' p'
    | .done .more b' p' => InFile data arrived b' p'
    | .next bytes' b' p' => InFile data arrived b' p' ∧ bytes' ≤ bufContRead b' ∧
        p'.consume = 0 := by
  by_cases hmdat : boxOf b.peek = .mdat
  · rw [boxStep_mdat hmedia hmdat]
    rcases hstep : mediaStep c bytes b p with ⟨found, b', p'⟩ | ⟨bytes', b', p'⟩
    · cases found with
      | failed => trivial
      | media => exact mediaStep_start hfile hlt hle h8 hp (hclear hmdat) hstep
      | more => exact absurd hstep mediaStep_ne_more
    · exact absurd hstep mediaStep_ne_next
  · rcases boxStep_cases c bytes b p with ⟨p', hstep⟩ | ⟨p₁, hspot, hstep⟩
    · rw [hstep]
      trivial
    · rw [hstep, if_neg hmdat]
      have hpos : p₁.pos = p.pos := congrArg Prod.fst hspot
      have hconsume : p₁.consume = 0 := (congrArg Prod.snd hspot).trans hp
      have hfile₁ : InFile data arrived b p₁ := by
        unfold InFile
        rw [hpos]
        exact hfile
      have hwaits : bytes < boxConsume (boxOf b.peek) (unpackN b.peek 0) →
          boxOf b.peek ∈ c.waits → unpackN b.peek 0 ≤ b.size →
          InFile data arrived (unwrapped c b) p₁ := by
        intro hfew hwait _
        obtain ⟨-, hwf, -, hcontent⟩ := hround.waits hfew hwait
        refine ⟨?_, hwf, ?_⟩
        · rw [← Buffer.Wf.length_content, hcontent, Buffer.Wf.length_content]
          exact hfile₁.1
        · rw [hcontent]
          exact hfile₁.2.bytes
      have hpass := passBox_inFile (c := c) hfile₁ hlt hle hwaits
      revert hpass
      rcases passBox c bytes b p₁ (boxOf b.peek) (unpackN b.peek 0) with
        ⟨found, b', p'⟩ | ⟨bytes', b', p'⟩
      · cases found with
        | failed => exact fun _ => trivial
        | media => exact False.elim
        | more => exact id
      · rintro ⟨hfile', hle', hconsume'⟩
        exact ⟨hfile', hle', hconsume'.trans hconsume⟩

/-- Where a call leaves the parser, by what it finds. -/
def HeaderLeaves (few : Buffer → κ → Prop) (data : List UInt8) (arrived : ℕ) :
    Found → Buffer → Mp4 κ → Prop
  | .failed, _, _ => True
  | .media, b, p => Found.Start few data arrived b p
  | .more, b, p => InFile data arrived b p

theorem headerLoop_inFile (hmedia : c.config ≠ .mdat) {fuel : ℕ}
    (hfile : InFile data arrived b p) (hlt : arrived < 2 ^ 32) (hle : bytes ≤ bufContRead b)
    (hp : p.consume = 0) (hround : roundsClear c fuel bytes b p)
    (hclear : startClear c few fuel bytes b p) {found : Found}
    (hloop : headerLoop c fuel bytes b p = some (found, b', p')) :
    HeaderLeaves few data arrived found b' p' := by
  induction fuel generalizing bytes b p with
  | zero => exact hround.elim
  | succ fuel ih =>
    rw [headerLoop] at hloop
    split at hloop
    · cases hloop
      exact hfile
    · rename_i h8
      obtain ⟨hround, hrounds⟩ := hround.resolve_left h8
      obtain ⟨hstart, hrest⟩ := hclear (by omega)
      have hbox := boxStep_inFile hmedia hfile hlt hle (by omega) hp hround hstart
      rcases hstep : boxStep c bytes b p with ⟨found', b₁, p₁⟩ | ⟨bytes', b₁, p₁⟩
      · rw [hstep] at hbox hloop
        cases hloop
        cases found with
        | failed => trivial
        | media => exact hbox
        | more => exact hbox
      · rw [hstep] at hbox hloop hrounds hrest
        exact ih hbox.1 hbox.2.1 hbox.2.2 hrounds.2 hrest hloop

/-- What a call finds that is clear: the header goes on, or the first sample is next. -/
theorem InHeader.call (hwhole : ∀ len, boxConsume c.config len = len) (hmedia : c.config ≠ .mdat)
    (h : InHeader c t sized data arrived b p) (hp : p.consume = 0) (hcall : CallClear c b p)
    (hclear : startClear c few (bufContRead b + 1) (bufContRead b) b p) :
    (∃ b' p', readMp4Header c b p = some (.more, b', p') ∧
        InHeader c t sized data arrived b' p') ∨
      ∃ b' p', readMp4Header c b p = some (.media, b', p') ∧
        AtSample t data arrived b' p' 0 ∧ sized 0 p'.codec ∧
        (p'.consume ≠ 0 → few b' p'.codec) := by
  obtain ⟨hfile, hlt, audio, haudio, ⟨table, htable, hchunks⟩, ⟨first, hfirst, hat⟩, hsized⟩ := h
  have harrived := hfile.1
  obtain ⟨found, b', p', hread, htells⟩ :=
    readMp4Header_tells hwhole hmedia hfile.2 hp (by omega) hcall
  have hloop : headerLoop c (bufContRead b + 1) (bufContRead b) b p = some (found, b', p') := by
    rw [← hread, readMp4Header, Nat.min_eq_right hfile.2.wf.contRead_le_used]
  have hleaves := headerLoop_inFile hmedia hfile hlt (Nat.le_refl _) hp hcall.rounds hclear hloop
  cases found with
  | failed => exact absurd (haudio.unique htells) (by simp)
  | more =>
    obtain ⟨q', hgoes⟩ := htells
    have hplace : q' = p'.pos := by
      have htaken := hgoes.taken
      have harrived' := hleaves.1
      omega
    refine .inl ⟨b', p', hread, hleaves, hlt, audio, ?_, ⟨table, htable, hchunks⟩,
      ⟨first, hfirst, hat⟩, hsized⟩
    rw [← hplace]
    exact (hgoes.same _).mpr haudio
  | media =>
    -- the parser is where the header says
    have hsame : p'.ahead = audio := (Option.some.inj (haudio.unique htells)).symm
    have hinfo : p'.chunkinfo = some table := by
      rw [← htable, ← hsame]
      rfl
    have hcodec : p'.codec = audio.codec := by
      rw [← hsame]
      rfl
    obtain ⟨hsample, hnext⟩ := headerOf_start haudio audio rfl
    rw [← hsame] at hsample hnext
    have hsome := List.length_pos_of_ne_nil (t.some_samples _ (List.mem_of_getElem? hfirst))
    refine .inr ⟨b', p', hread, ⟨hleaves.file, ⟨table, hinfo, hchunks⟩, 0, 0, first, hfirst, hsome,
      rfl, hnext, fun _ => hsample, ?_⟩, by rwa [hcodec], hleaves.few⟩
    show p'.pos + p'.consume = first.1 + 0
    have hmod : (p'.pos + p'.consume) % 2 ^ 32 = first.1 := by
      rw [← hat, ← hsame]
      rfl
    by_cases hconsume : p'.consume = 0
    · have harrived' := hleaves.file.1
      rw [Nat.mod_eq_of_lt (by omega)] at hmod
      omega
    · obtain ⟨table', htable', hoffset⟩ := hleaves.first hconsume
      rw [hinfo] at htable'
      cases htable'
      rw [List.getD_eq_getElem?_getD, hchunks.chunk 0 first hfirst] at hoffset
      exact hoffset

/-- Bytes to consume are taken as the header is read. -/
theorem InHeader.reach (h : InHeader c t sized data arrived b p) (hle : bytes ≤ bufUsed b) :
    InHeader c t sized data arrived (p.reach b bytes).1 (p.reach b bytes).2 := by
  obtain ⟨hfile, hlt, audio, haudio, htrack⟩ := h
  have harrived := hfile.1
  have hmin : min p.consume bytes ≤ bytes := Nat.min_le_right ..
  have hpos : (p.reach b bytes).2.pos = p.pos + min p.consume bytes := by
    show (p.pos + min p.consume bytes) % 2 ^ 32 = _
    rw [Nat.mod_eq_of_lt (by omega)]
  have hgoes := reach_goesOn (c := c) (p := p) hfile.2 hle
  refine ⟨hfile.takes (by omega) hpos, hlt, audio, ?_, htrack⟩
  rw [hpos]
  exact (hgoes.same _).mpr haudio

end Header

/-! ### Boxes that stand alone -/

section Alone

variable {create : List UInt8 → AlacInfo} {malloc : ℕ → Bool} {m : ℕ → UInt8} {n len : ℕ}
variable {p : Mp4 Alac}

theorem boxOf_congr {m' : ℕ → UInt8} (h : ∀ i < max 8 len, m' i = m i) : boxOf m' = boxOf m := by
  unfold boxOf
  rw [h 4 (by omega), h 5 (by omega), h 6 (by omega), h 7 (by omega)]

theorem unpackN_congr {m' : ℕ → UInt8} (h : ∀ i < max 8 len, m' i = m i) {q : ℕ}
    (hq : q + 4 ≤ len) : unpackN m' q = unpackN m q :=
  Octets.be_congr_of fun i hi => h (q + i) (by omega)

/-- What is kept of stsz is in the box, if its sizes are. -/
theorem alone_stsz (hbox : boxOf m = .stsz) (h16 : 16 ≤ len)
    (hsizes : unpackN m 12 = 0 → 20 + 4 * unpackN m 16 ≤ len) :
    Alone (alacCodec create malloc) m n len p := by
  intro m' n' hm _
  have hsame : alacSizes m' p.codec = alacSizes m p.codec := by
    unfold alacSizes
    rw [unpackN_congr hm (q := 12) (by omega)]
    split
    · rename_i hzero
      have hall := hsizes hzero
      rw [unpackN_congr hm (q := 16) (by omega)]
      have hlist : (List.range (unpackN m 16)).map (fun i => unpackN m' (20 + 4 * i)) =
          (List.range (unpackN m 16)).map fun i => unpackN m (20 + 4 * i) := by
        apply List.map_congr_left
        intro i hi
        have hi := List.mem_range.mp hi
        exact unpackN_congr hm (by omega)
      rw [hlist]
    · rfl
  have hconfig : ¬ Box.stsz = (alacCodec create malloc).config := by simp [alacCodec]
  unfold parseBox
  rw [boxOf_congr hm, hbox, if_neg hconfig, if_neg hconfig]
  show some { p with codec := alacSizes m' p.codec } = some { p with codec := alacSizes m p.codec }
  rw [hsame]

/-- What is kept of stsc is the box. -/
theorem alone_stsc {κ : Type} {c : Mp4Codec κ} {p : Mp4 κ} (hconfig : c.config ≠ .stsc)
    (hbox : boxOf m = .stsc) (h12 : 12 ≤ len) (hlen : len < 2 ^ 32) : Alone c m n len p := by
  intro m' n' hm _
  have hsub : u32Sub len 12 = len - 12 := by unfold u32Sub; omega
  have hlist : (List.range (u32Sub len 12)).map (fun i => m' (12 + i)) =
      (List.range (u32Sub len 12)).map fun i => m (12 + i) := by
    apply List.map_congr_left
    intro i hi
    have hi := List.mem_range.mp hi
    exact hm _ (by omega)
  unfold parseBox
  rw [boxOf_congr hm, hbox, if_neg hconfig.symm, if_neg hconfig.symm]
  dsimp only
  rw [hlist]

/-- What is kept of stco is in the box, if its offsets are. -/
theorem alone_stco {κ : Type} {c : Mp4Codec κ} {p : Mp4 κ} (hconfig : c.config ≠ .stco)
    (hbox : boxOf m = .stco) (h16 : 16 + 4 * unpackN m 12 ≤ len) : Alone c m n len p := by
  intro m' n' hm _
  have hentries : unpackN m' 12 = unpackN m 12 := unpackN_congr hm (by omega)
  have hoffsets : chunkOffsets m' (unpackN m 12) = chunkOffsets m (unpackN m 12) := by
    unfold chunkOffsets
    congr 1
    apply List.map_congr_left
    intro i hi
    have hi := List.mem_range.mp hi
    rw [unpackN_congr hm (q := 16 + 4 * i) (by omega)]
  have htable : chunkTable m' p.stsc = chunkTable m p.stsc := by
    unfold chunkTable
    rw [hentries, hoffsets]
  unfold parseBox
  rw [boxOf_congr hm, hbox, if_neg hconfig.symm, if_neg hconfig.symm]
  dsimp only
  rw [hentries, htable]

end Alone

/-! ### What the decoders are given -/

/-- The stream that `alac_to_pcm` is given the start of, if it is called. -/
def alacBlockGiven (stream : StreamState) (s : AlacStream) : Option Buffer :=
  match s.mp4.codec.size with
  | none => none
  | some size =>
      if stream.toend ∧ (bufUsed s.streambuf = 0 ∨ size = 0) then none
      else if bufUsed s.streambuf < size then none
      else some s.streambuf

/-- The same in a call of `alac_decode`. -/
def alacGiven (create : List UInt8 → AlacInfo) (malloc : ℕ → Bool) (stream : StreamState)
    (s : AlacStream) : Option Buffer :=
  if s.mp4.consume ≠ 0 then none
  else if s.newStream then
    match alacReadMp4Header create malloc s.streambuf s.mp4 with
    | some (.media, b, p) => alacBlockGiven stream ⟨p, false, b⟩
    | _ => none
  else alacBlockGiven stream s

/-- The stream that `AACDecode` is given the start of, behind a header. -/
def helixFoundGiven (b : Buffer) : Option Buffer :=
  if bufUsed b < WRAPBUF_LEN then none else some b

/-- The same in a call of `helixaac_decode`. -/
def helixDecodeGiven (malloc : ℕ → Bool) (stream : StreamState) (e : HelixAnswers)
    (s : HelixStream) : Option Buffer :=
  if stream.toend ∧ bufUsed s.streambuf = 0 then none
  else if s.mp4.consume ≠ 0 then none
  else if s.newStream then
    if s.adts then
      match e.sync.filter (· < min (bufUsed s.streambuf) (bufContRead s.streambuf)) with
      | some n => if e.header then helixFoundGiven (bufIncReadp s.streambuf n) else none
      | none => none
    else
      match helixReadMp4Header malloc s.streambuf s.mp4 with
      | some (.media, b, _) => helixFoundGiven b
      | _ => none
  else some s.streambuf

/-- The stream that the decoder proper is given the start of, if it is called. -/
def Codec.given (d : DecodeSetup) (stream : StreamState) (e : DecodePass) : Codec → Option Buffer
  | .pcm _ => none
  | .alac s => alacGiven d.create d.malloc stream s
  | .helixaac s => helixDecodeGiven d.malloc stream e.helix s

/-- What alac has of stsz when the next sample is the `n`-th. -/
def Alac.HasSizes (t : Track) (n : ℕ) (l : Alac) : Prop :=
  (l.defaultBlockSize ≠ 0 ∧ ∀ size ∈ t.sizes, size = l.defaultBlockSize) ∨
    (l.defaultBlockSize = 0 ∧ l.blockSize = some (t.sizes ++ [0]) ∧ l.blockIndex = n)

/-- Between the start of a stream and its end: the next sample is the `n`-th. -/
inductive Stage {κ : Type} (c : Mp4Codec κ) (t : Track) (sized : ℕ → κ → Prop) (data : List UInt8)
    (arrived : ℕ) : ℕ → Bool → Buffer → Mp4 κ → Prop
  | header {b : Buffer} {p : Mp4 κ} : InHeader c t sized data arrived b p →
      Stage c t sized data arrived 0 true b p
  | sample {n : ℕ} {b : Buffer} {p : Mp4 κ} : AtSample t data arrived b p n → sized n p.codec →
      Stage c t sized data arrived n false b p
  | finished {n : ℕ} {newStream : Bool} {b : Buffer} {p : Mp4 κ} : t.sizes.length ≤ n →
      Stage c t sized data arrived n newStream b p

/-- What a call gives to the decoder is where the `n`-th sample is, and then the next one comes. -/
structure CallAfter {σ : Type} (t : Track) (data : List UInt8) (arrived n : ℕ)
    (stage : ℕ → σ → Prop) (given : Option Buffer) (result : Option (Decoded σ)) : Prop where
  placed : ∀ x ∈ given, ∀ place ∈ t.place n,
    arrived - bufUsed x = place ∧ x.content <+: data.drop place
  next : ∀ r ∈ result, r.state = .running → stage (n + given.toList.length) r.next

/-- The next sample of an alac stream is the `n`-th. -/
def AlacStream.AtStage (create : List UInt8 → AlacInfo) (malloc : ℕ → Bool) (t : Track)
    (data : List UInt8) (arrived n : ℕ) (s : AlacStream) : Prop :=
  Stage (alacCodec create malloc) t (Alac.HasSizes t) data arrived n s.newStream s.streambuf s.mp4

/-- The next sample of an MP4 stream of aac is the `n`-th. -/
def HelixStream.AtStage (malloc : ℕ → Bool) (t : Track) (data : List UInt8) (arrived n : ℕ)
    (s : HelixStream) : Prop :=
  (t.sizes.length ≤ n ∨ s.adts = false) ∧
    Stage (helixCodec malloc) t (fun _ _ => True) data arrived n s.newStream s.streambuf s.mp4

section Calls

variable {κ : Type} {c : Mp4Codec κ} {t : Track} {sized : ℕ → κ → Prop} {data : List UInt8}
variable {arrived bytes n : ℕ} {b b' : Buffer} {p p' : Mp4 κ} {stream : StreamState}

/-- There is no place behind the last sample. -/
theorem placeIn_none (chunks : List (ℕ × List ℕ)) {n : ℕ}
    (h : (chunks.flatMap Prod.snd).length ≤ n) : placeIn chunks n = none := by
  induction chunks generalizing n with
  | nil => rfl
  | cons c cs ih =>
    rw [List.flatMap_cons, List.length_append] at h
    rw [placeIn, if_neg (by omega)]
    exact ih (by omega)

/-- Behind the last sample nothing is said of a place. -/
theorem CallAfter.finished {σ : Type} {stage : ℕ → σ → Prop} {given : Option Buffer}
    {result : Option (Decoded σ)} (hover : t.sizes.length ≤ n) (hstage : ∀ m s, n ≤ m → stage m s) :
    CallAfter t data arrived n stage given result := by
  refine ⟨fun x _ place hplace => ?_, fun r _ _ => hstage _ _ (Nat.le_add_right ..)⟩
  have hnone : t.place n = none := placeIn_none t.chunks hover
  rw [hnone] at hplace
  cases hplace

/-- What is decoded changes nothing but what is kept of the samples. -/
theorem trim_same (p : Mp4 κ) (frames : ℕ) : ∃ empty skip samples,
    (p.trim frames).1 = { p with empty := empty, skip := skip, samples := samples } := by
  unfold Mp4.trim
  by_cases hskip : p.skip ≠ 0
  · simp only [if_pos hskip]
    split <;> exact ⟨_, _, _, rfl⟩
  · simp only [if_neg hskip]
    split <;> exact ⟨_, _, _, rfl⟩

theorem moveOn_codec {moves : Bool} (h : p.moveOn b moves bytes = some (b', p')) :
    p'.codec = p.codec := by
  by_cases hend : p.next.offset ≠ 0 ∧ p.sample = p.next.sample
  · rw [(moveOn_behind hend.1 hend.2 h).2.1]
  · unfold Mp4.moveOn at h
    dsimp only at h
    rw [if_neg hend] at h
    split at h
    · cases h
      show (ite _ _ _ : Mp4 κ).codec = _
      split <;> rfl
    · cases h

theorem AtSample.trim (h : AtSample t data arrived b p n) (frames : ℕ) :
    AtSample t data arrived b (p.trim frames).1 n := by
  obtain ⟨empty, skip, samples, htrim⟩ := trim_same p frames
  rw [htrim]
  exact h.same rfl rfl rfl rfl rfl

/-- Behind a sample that was decoded. -/
theorem AtSample.stage (h : AtSample t data arrived b p n) {moves : Bool}
    (hconsume : p.consume = 0) (hsize : t.sizes[n]? = some bytes) (hle : bytes ≤ bufUsed b)
    (hmove : p.moveOn b moves bytes = some (b', p')) (hsized : sized (n + 1) p'.codec) :
    Stage c t sized data arrived (n + 1) false b' p' := by
  rcases h.moveOn hconsume hsize hle hmove with hnext | hover
  · exact .sample hnext hsized
  · exact .finished hover

/-- The stage does not depend on what is kept of the samples. -/
theorem Stage.trim (h : Stage c t sized data arrived n false b p) (frames : ℕ) :
    Stage c t sized data arrived n false b (p.trim frames).1 := by
  cases h with
  | sample hat hsized =>
    refine .sample (hat.trim frames) ?_
    obtain ⟨empty, skip, samples, htrim⟩ := trim_same p frames
    rw [htrim]
    exact hsized
  | finished hover => exact .finished hover

/-! ### alac -/

theorem Alac.HasSizes.size {l : Alac} (h : l.HasSizes t n) (hn : n < t.sizes.length) :
    l.size = t.sizes[n]? := by
  have hget := List.getElem?_eq_getElem hn
  rw [hget]
  rcases h with ⟨hne, hall⟩ | ⟨hzero, hblocks, hindex⟩
  · rw [Alac.size, if_pos hne, hall _ (List.getElem_mem hn)]
  · rw [Alac.size, if_neg (not_not.mpr hzero), hblocks, hindex]
    show (t.sizes ++ [0])[n]? = _
    rw [List.getElem?_append_left hn, hget]

/-- The codec of alac, behind a block of this size. -/
theorem Alac.HasSizes.succ {l : Alac} {size : ℕ} (h : l.HasSizes t n) (hsize : l.size = some size)
    (hpos : 0 < size) : Alac.HasSizes t (n + 1)
      (if size ≠ l.defaultBlockSize then { l with blockIndex := l.blockIndex + 1 } else l) := by
  rcases h with ⟨hne, hall⟩ | ⟨hzero, hblocks, hindex⟩
  · rw [Alac.size, if_pos hne] at hsize
    cases hsize
    rw [if_neg (not_not.mpr rfl)]
    exact .inl ⟨hne, hall⟩
  · rw [if_pos (by omega)]
    exact .inr ⟨hzero, hblocks, by rw [← hindex]⟩

/-- What a block is decoded from. -/
theorem alacBlock_after {create : List UInt8 → AlacInfo} {malloc : ℕ → Bool} {s : AlacStream}
    (toPcm : Option ℕ) (hnew : s.newStream = false)
    (hat : AtSample t data arrived s.streambuf s.mp4 n)
    (hsized : s.mp4.codec.HasSizes t n)
    (hfew : s.mp4.consume ≠ 0 → ∀ size ∈ s.mp4.codec.size, bufUsed s.streambuf < size) :
    CallAfter t data arrived n (AlacStream.AtStage create malloc t data arrived)
      (alacBlockGiven stream s) (alacBlock stream toPcm s) := by
  have hlt := hat.lt
  obtain ⟨size, hget⟩ : ∃ size, t.sizes[n]? = some size := ⟨_, List.getElem?_eq_getElem hlt⟩
  have hsize : s.mp4.codec.size = some size := (hsized.size hlt).trans hget
  have hpos : 0 < size := by
    obtain ⟨c, hc, hmem⟩ := List.mem_flatMap.mp (List.mem_of_getElem? hget)
    exact t.some_bytes c hc size hmem
  have hsame : AlacStream.AtStage create malloc t data arrived n s := by
    unfold AlacStream.AtStage
    rw [hnew]
    exact .sample hat hsized
  unfold alacBlockGiven alacBlock
  rw [hsize]
  dsimp only
  split
  · -- the end of the stream
    refine ⟨fun x hx => (nomatch hx), fun r hr hrun => ?_⟩
    cases hr
    exact absurd hrun (by simp)
  split
  · -- not enough data
    refine ⟨fun x hx => (nomatch hx), fun r hr _ => ?_⟩
    cases hr
    exact hsame
  · rename_i hend hroom
    have hconsume : s.mp4.consume = 0 := by
      by_contra hne
      exact hroom (hfew hne size hsize)
    refine ⟨fun x hx => ?_, fun r hr hrun => ?_⟩
    · cases hx
      exact hat.placed hconsume
    · cases toPcm with
      | none =>
        cases hr
        exact absurd hrun (by simp)
      | some frames =>
        dsimp only at hr
        split at hr
        · cases hr
          exact absurd hrun (by simp)
        · rename_i b₁ p₁ hmove
          cases hr
          have hat' : AtSample t data arrived s.streambuf
              { s.mp4 with codec := if size ≠ s.mp4.codec.defaultBlockSize then
                { s.mp4.codec with blockIndex := s.mp4.codec.blockIndex + 1 }
                else s.mp4.codec } n := hat.same rfl rfl rfl rfl rfl
          have hsized' : p₁.codec.HasSizes t (n + 1) := by
            rw [moveOn_codec hmove]
            exact hsized.succ hsize hpos
          have hstage : Stage (alacCodec create malloc) t (Alac.HasSizes t) data arrived (n + 1)
              false b₁ p₁ := hat'.stage hconsume hget (by omega) hmove hsized'
          show Stage _ _ _ _ _ _ s.newStream _ _
          rw [hnew]
          exact hstage.trim frames

/-- What a call of `alac_decode` decodes from. -/
theorem alacDecode_after {create : List UInt8 → AlacInfo} {malloc : ℕ → Bool} {s : AlacStream}
    (stream : StreamState) (toPcm : Option ℕ)
    (h : s.AtStage create malloc t data arrived n)
    (hclear : s.newStream = true → s.mp4.consume = 0 →
      CallClear (alacCodec create malloc) s.streambuf s.mp4 ∧
        startClear (alacCodec create malloc) (fun b l => ∀ size ∈ l.size, bufUsed b < size)
          (bufContRead s.streambuf + 1) (bufContRead s.streambuf) s.streambuf s.mp4) :
    CallAfter t data arrived n (AlacStream.AtStage create malloc t data arrived)
      (alacGiven create malloc stream s) (alacDecode create malloc stream toPcm s) := by
  obtain ⟨p, newStream, b⟩ := s
  unfold AlacStream.AtStage at h
  dsimp only at h hclear
  unfold alacGiven alacDecode
  dsimp only
  cases h with
  | header hheader =>
    by_cases hconsume : p.consume ≠ 0
    · rw [if_pos hconsume, if_pos hconsume]
      refine ⟨fun x hx => (by cases hx), fun r hr _ => ?_⟩
      cases hr
      exact .header (hheader.reach (Nat.le_refl _))
    · rw [if_neg hconsume, if_neg hconsume, if_pos rfl, if_pos rfl]
      obtain ⟨hcall, hstart⟩ := hclear rfl (not_not.mp hconsume)
      rcases hheader.call (fun _ => rfl) (by simp [alacCodec]) (not_not.mp hconsume) hcall
        hstart with ⟨b', p', hread, hmore⟩ | ⟨b', p', hread, hat, hsized, hfew⟩
      · rw [alacReadMp4Header, hread]
        refine ⟨fun x hx => (by cases hx), fun r hr _ => ?_⟩
        cases hr
        exact .header hmore
      · rw [alacReadMp4Header, hread]
        exact alacBlock_after (s := ⟨p', false, b'⟩) toPcm rfl hat hsized hfew
  | sample hat hsized =>
    by_cases hconsume : p.consume ≠ 0
    · rw [if_pos hconsume, if_pos hconsume]
      refine ⟨fun x hx => (by cases hx), fun r hr _ => ?_⟩
      cases hr
      exact .sample (hat.reach (Nat.le_refl _)) hsized
    · rw [if_neg hconsume, if_neg hconsume]
      exact alacBlock_after (s := ⟨p, false, b⟩) toPcm rfl hat hsized
        fun hne => absurd hne hconsume
  | finished hover => exact .finished hover fun m _ hm => .finished (by omega)

/-! ### helix-aac -/

/-- What a frame is decoded from, if the decoder takes a sample. -/
theorem helixFrame_after {malloc : ℕ → Bool} {s : HelixStream} {e : HelixAnswers}
    (hadts : s.adts = false) (hnew : s.newStream = false)
    (hat : AtSample t data arrived s.streambuf s.mp4 n) (hconsume : s.mp4.consume = 0)
    (htakes : ∀ size ∈ t.sizes[n]?, min e.takes (helixGiven s.streambuf) = size) :
    CallAfter t data arrived n (HelixStream.AtStage malloc t data arrived)
      (some s.streambuf) (some (helixFrame e s)) := by
  have hlt := hat.lt
  obtain ⟨size, hget⟩ : ∃ size, t.sizes[n]? = some size := ⟨_, List.getElem?_eq_getElem hlt⟩
  have hsize := htakes size hget
  have hle := helixGiven_le s.streambuf
  have hmin : min e.takes (helixGiven s.streambuf) ≤ helixGiven s.streambuf := Nat.min_le_right ..
  refine ⟨fun x hx => ?_, fun r hr hrun => ?_⟩
  · cases hx
    exact hat.placed hconsume
  · cases hr
    unfold helixFrame at hrun ⊢
    dsimp only at hrun ⊢
    split at hrun
    · cases hrun
    · rename_i b₁ p₁ hmove
      rw [hsize] at hmove hmin
      have hstage : Stage (helixCodec malloc) t (fun _ _ => True) data arrived (n + 1)
          false b₁ p₁ :=
        hat.stage hconsume hget (by omega) hmove trivial
      split
      · refine ⟨.inr hadts, ?_⟩
        show Stage _ _ _ _ _ _ s.newStream _ _
        rw [hnew]
        cases hstage with
        | sample hnext => exact .sample (hnext.same rfl rfl rfl rfl rfl) trivial
        | finished hover => exact .finished hover
      · refine ⟨.inr hadts, ?_⟩
        show Stage _ _ _ _ _ _ s.newStream _ _
        rw [hnew]
        exact hstage.trim _

/-- What a call of `helixaac_decode` decodes from, if the decoder takes a sample. -/
theorem helixDecode_after {malloc : ℕ → Bool} {s : HelixStream} {e : HelixAnswers}
    (stream : StreamState) (h : s.AtStage malloc t data arrived n)
    (hclear : s.newStream = true → s.mp4.consume = 0 →
      CallClear (helixCodec malloc) s.streambuf s.mp4 ∧
        startClear (helixCodec malloc) (fun b _ => bufUsed b < WRAPBUF_LEN)
          (bufContRead s.streambuf + 1) (bufContRead s.streambuf) s.streambuf s.mp4)
    (htakes : ∀ x ∈ helixDecodeGiven malloc stream e s, ∀ size ∈ t.sizes[n]?,
      min e.takes (helixGiven x) = size) :
    CallAfter t data arrived n (HelixStream.AtStage malloc t data arrived)
      (helixDecodeGiven malloc stream e s) (helixDecode malloc stream e s) := by
  -- behind the last sample there is nothing to say
  have hafter (hover : t.sizes.length ≤ n) :
      CallAfter t data arrived n (HelixStream.AtStage malloc t data arrived)
        (helixDecodeGiven malloc stream e s) (helixDecode malloc stream e s) :=
    .finished hover fun m _ hm => ⟨.inl (by omega), .finished (by omega)⟩
  obtain ⟨hover | hadts, h⟩ := h
  · exact hafter hover
  obtain ⟨p, adts, newStream, b⟩ := s
  dsimp only at h hclear hadts
  subst hadts
  by_cases hover : t.sizes.length ≤ n
  · exact hafter hover
  unfold helixDecodeGiven at htakes ⊢
  unfold helixDecode
  dsimp only at htakes ⊢
  by_cases hend : stream.toend = true ∧ bufUsed b = 0
  · rw [if_pos hend, if_pos hend]
    refine ⟨fun x hx => (by cases hx), fun r hr hrun => ?_⟩
    cases hr
    exact absurd hrun (by simp)
  rw [if_neg hend] at htakes ⊢
  rw [if_neg hend]
  cases h with
  | header hheader =>
    by_cases hconsume : p.consume ≠ 0
    · rw [if_pos hconsume, if_pos hconsume]
      refine ⟨fun x hx => (by cases hx), fun r hr _ => ?_⟩
      cases hr
      exact ⟨.inr rfl, .header (hheader.reach (Nat.min_le_left ..))⟩
    · rw [if_neg hconsume, if_pos rfl, if_neg (by decide)] at htakes ⊢
      rw [if_neg hconsume, if_pos rfl, if_neg (by decide)]
      obtain ⟨hcall, hstart⟩ := hclear rfl (not_not.mp hconsume)
      rcases hheader.call (fun _ => rfl) (by simp [helixCodec]) (not_not.mp hconsume) hcall
        hstart with ⟨b', p', hread, hmore⟩ | ⟨b', p', hread, hat, -, hfew⟩
      · rw [helixReadMp4Header, hread]
        refine ⟨fun x hx => (by cases hx), fun r hr _ => ?_⟩
        cases hr
        exact ⟨.inr rfl, .header hmore⟩
      · rw [helixReadMp4Header, hread] at htakes ⊢
        dsimp only at htakes ⊢
        unfold helixFoundGiven helixFound at *
        dsimp only
        by_cases hroom : bufUsed b' < WRAPBUF_LEN
        · -- come back later
          rw [if_pos hroom, if_pos hroom]
          refine ⟨fun x hx => (by cases hx), fun r hr _ => ?_⟩
          cases hr
          exact ⟨.inr rfl, .sample hat trivial⟩
        · rw [if_neg hroom] at htakes ⊢
          rw [if_neg hroom]
          have hconsume' : p'.consume = 0 := by
            by_contra hne
            exact hroom (hfew hne)
          exact helixFrame_after (s := ⟨p', false, false, b'⟩) rfl rfl hat hconsume'
            (htakes b' rfl)
  | sample hat hsized =>
    by_cases hconsume : p.consume ≠ 0
    · rw [if_pos hconsume, if_pos hconsume]
      refine ⟨fun x hx => (by cases hx), fun r hr _ => ?_⟩
      cases hr
      exact ⟨.inr rfl, .sample (hat.reach (Nat.min_le_left ..)) hsized⟩
    · rw [if_neg hconsume, if_neg (by decide)] at htakes ⊢
      rw [if_neg hconsume, if_neg (by decide)]
      exact helixFrame_after (s := ⟨p, false, false, b⟩) rfl rfl hat (not_not.mp hconsume)
        (htakes b rfl)
  | finished hall => exact absurd hall hover

end Calls

/-! ### A track is played -/

namespace Codec

def withStreambuf : Codec → Buffer → Codec
  | .pcm s, b => .pcm { s with streambuf := b }
  | .alac s, b => .alac { s with streambuf := b }
  | .helixaac s, b => .helixaac { s with streambuf := b }

/-- A call that reads the header is clear, and clear to start. -/
def startClear (d : DecodeSetup) : Codec → Prop
  | .pcm _ => True
  | .alac s => s.newStream = true → s.mp4.consume = 0 →
      CallClear (alacCodec d.create d.malloc) s.streambuf s.mp4 ∧
        SqueezeliteMuse.startClear (alacCodec d.create d.malloc)
          (fun b l => ∀ size ∈ l.size, bufUsed b < size)
          (bufContRead s.streambuf + 1) (bufContRead s.streambuf) s.streambuf s.mp4
  | .helixaac s => s.newStream = true → s.mp4.consume = 0 →
      CallClear (helixCodec d.malloc) s.streambuf s.mp4 ∧
        SqueezeliteMuse.startClear (helixCodec d.malloc) (fun b _ => bufUsed b < WRAPBUF_LEN)
          (bufContRead s.streambuf + 1) (bufContRead s.streambuf) s.streambuf s.mp4

/-- The AAC decoder takes the `n`-th sample. -/
def takes (d : DecodeSetup) (t : Track) (n : ℕ) (stream : StreamState) (e : DecodePass) :
    Codec → Prop
  | .helixaac s => ∀ x ∈ helixDecodeGiven d.malloc stream e.helix s, ∀ size ∈ t.sizes[n]?,
      min e.helix.takes (helixGiven x) = size
  | _ => True

/-- The next sample is the `n`-th. -/
def AtStage (d : DecodeSetup) (t : Track) (data : List UInt8) (arrived n : ℕ) : Codec → Prop
  | .pcm _ => False
  | .alac s => s.AtStage d.create d.malloc t data arrived n
  | .helixaac s => s.AtStage d.malloc t data arrived n

end Codec

/-- The decoder, with how much of the file has arrived, the calls that decode so far, and whether
decoding goes on. -/
structure TrackPlay where
  codec : Codec
  arrived : ℕ
  decoded : ℕ
  running : Bool

/-- `n` more bytes of the file arrive, or the decode function is called. -/
inductive PlayEvent
  | fill (n : ℕ)
  | call (stream : StreamState) (e : DecodePass)

/-- A call of the decode function: what the decoder proper is given, as its place in the file and
the bytes from there on. -/
def playCall (d : DecodeSetup) (stream : StreamState) (e : DecodePass) (s : TrackPlay) :
    TrackPlay × List (ℕ × List UInt8) :=
  let given := (s.codec.given d stream e).toList
  (match s.codec.decode d stream e with
    | none => { s with decoded := s.decoded + given.length, running := false }
    | some r =>
        { s with
          codec := r.next
          decoded := s.decoded + given.length
          running := r.state = .running },
    given.map fun b => (s.arrived - bufUsed b, b.content))

/-- The bytes of a file arrive in any amounts, and the decode function is called at any time, until
it says that it is done. -/
def playMachine (d : DecodeSetup) (data : List UInt8) :
    Runs.Machine TrackPlay PlayEvent (ℕ × List UInt8) where
  step s
    | .fill n =>
        let bs := (data.drop s.arrived).take n
        if n ≤ min (bufSpace s.codec.streambuf) (bufContWrite s.codec.streambuf) ∧
            s.arrived + n ≤ data.length then
          ({ s with
              codec := s.codec.withStreambuf
                (bufIncWritep (bufStore s.codec.streambuf bs) bs.length)
              arrived := s.arrived + n }, [])
        else (s, [])
    | .call stream e => if s.running then playCall d stream e s else (s, [])

/-- The condition on a call. -/
def PlayEvent.clear (d : DecodeSetup) (s : TrackPlay) : PlayEvent → Prop
  | .fill _ => True
  | .call _ _ => s.running = true → s.codec.startClear d

/-- What is assumed of the AAC decoder in a call. -/
def PlayEvent.takes (d : DecodeSetup) (t : Track) (s : TrackPlay) : PlayEvent → Prop
  | .fill _ => True
  | .call stream e => s.running = true → s.codec.takes d t s.decoded stream e

/-- A stream has been opened: nothing has arrived. -/
structure NewStream {κ : Type} (b : Buffer) (p : Mp4 κ) : Prop where
  wf : b.Wf
  empty : b.content = []
  pos : p.pos = 0
  consume : p.consume = 0

/-- A codec is at the start of the file of a track. -/
def Codec.Opens (d : DecodeSetup) (data : List UInt8) (t : Track) : Codec → Prop
  | .pcm _ => False
  | .alac s => s.newStream = true ∧ NewStream s.streambuf s.mp4 ∧
      MediaFile (alacCodec d.create d.malloc) data s.mp4 t (Alac.HasSizes t)
  | .helixaac s => s.adts = false ∧ s.newStream = true ∧ NewStream s.streambuf s.mp4 ∧
      MediaFile (helixCodec d.malloc) data s.mp4 t fun _ _ => True

/-- A track is about to be played. -/
structure TrackPlay.Opened (d : DecodeSetup) (data : List UInt8) (t : Track) (s : TrackPlay) :
    Prop where
  arrived : s.arrived = 0
  decoded : s.decoded = 0
  codec : s.codec.Opens d data t

/-- The next call that decodes is for the next sample. -/
structure TrackPlay.Inv (d : DecodeSetup) (data : List UInt8) (t : Track) (s : TrackPlay) :
    Prop where
  short : data.length < 2 ^ 32
  stage : s.running = true → s.codec.AtStage d t data s.arrived s.decoded

section Play

variable {κ : Type} {c : Mp4Codec κ} {t : Track} {sized : ℕ → κ → Prop} {data : List UInt8}
variable {arrived n m : ℕ} {b : Buffer} {p : Mp4 κ} {d : DecodeSetup} {s : TrackPlay}

theorem InFile.fill (h : InFile data arrived b p) (hroom : m ≤ min (bufSpace b) (bufContWrite b))
    (hle : arrived + m ≤ data.length) {bs : List UInt8} (hbs : bs = (data.drop arrived).take m) :
    InFile data (arrived + m) (bufIncWritep (bufStore b bs) bs.length) p := by
  obtain ⟨hcarries, hused⟩ := h.2.fill h.1 hroom hle hbs
  exact ⟨hused, hcarries⟩

/-- Bytes that arrive change nothing of what comes next. -/
theorem Stage.fill {newStream : Bool} (h : Stage c t sized data arrived n newStream b p)
    (hshort : data.length < 2 ^ 32) (hroom : m ≤ min (bufSpace b) (bufContWrite b))
    (hle : arrived + m ≤ data.length) {bs : List UInt8} (hbs : bs = (data.drop arrived).take m) :
    Stage c t sized data (arrived + m) n newStream (bufIncWritep (bufStore b bs) bs.length) p := by
  cases h with
  | header hheader =>
    obtain ⟨hfile, -, haudio⟩ := hheader
    exact .header ⟨hfile.fill hroom hle hbs, by omega, haudio⟩
  | sample hat hsized =>
    obtain ⟨hfile, htable, hthere⟩ := hat
    exact .sample ⟨hfile.fill hroom hle hbs, htable, hthere⟩ hsized
  | finished hover => exact .finished hover

theorem inv_fill (h : s.Inv d data t) (m : ℕ) :
    (((playMachine d data).step s (.fill m)).1).Inv d data t := by
  obtain ⟨hshort, hstage⟩ := h
  unfold playMachine
  dsimp only
  split
  · rename_i hroom
    refine ⟨hshort, fun hrun => ?_⟩
    have hnow := hstage hrun
    obtain ⟨codec, arrived, decoded, running⟩ := s
    cases codec with
    | pcm s => exact hnow.elim
    | alac s => exact Stage.fill hnow hshort hroom.1 hroom.2 rfl
    | helixaac s => exact ⟨hnow.1, Stage.fill hnow.2 hshort hroom.1 hroom.2 rfl⟩
  · exact ⟨hshort, hstage⟩

/-- A call is given what the next sample begins with. -/
theorem inv_call {stream : StreamState} {e : DecodePass} (h : s.Inv d data t)
    (hrun : s.running = true) (hclear : s.codec.startClear d)
    (htakes : s.codec.takes d t s.decoded stream e) :
    CallAfter t data s.arrived s.decoded (Codec.AtStage d t data s.arrived)
      (s.codec.given d stream e) (s.codec.decode d stream e) := by
  have hstage := h.stage hrun
  obtain ⟨codec, arrived, decoded, running⟩ := s
  cases codec with
  | pcm s => exact hstage.elim
  | alac s =>
    obtain ⟨hplaced, hnext⟩ := alacDecode_after stream e.toPcm hstage hclear
    refine ⟨hplaced, fun r hr hr' => ?_⟩
    obtain ⟨r', hdecoded, rfl⟩ := Option.map_eq_some_iff.mp hr
    exact hnext r' hdecoded hr'
  | helixaac s =>
    obtain ⟨hplaced, hnext⟩ := helixDecode_after stream hstage hclear htakes
    refine ⟨hplaced, fun r hr hr' => ?_⟩
    obtain ⟨r', hdecoded, rfl⟩ := Option.map_eq_some_iff.mp hr
    exact hnext r' hdecoded hr'

namespace Codec

/-- The header is found, or there is none. -/
def Found : Codec → Prop
  | .pcm _ => True
  | .alac s => s.newStream = false
  | .helixaac s => s.newStream = false

instance : (codec : Codec) → Decidable codec.Found
  | .pcm _ => isTrue trivial
  | .alac s => inferInstanceAs (Decidable (s.newStream = false))
  | .helixaac s => inferInstanceAs (Decidable (s.newStream = false))

theorem Found.startClear {codec : Codec} (h : codec.Found) : codec.startClear d := by
  cases codec with
  | pcm s => trivial
  | alac s => exact fun hnew => absurd (h.symm.trans hnew) (by decide)
  | helixaac s => exact fun hnew => absurd (h.symm.trans hnew) (by decide)

end Codec

theorem alacBlock_newStream {stream : StreamState} {toPcm : Option ℕ} {s : AlacStream}
    {r : Decoded AlacStream} (h : alacBlock stream toPcm s = some r) :
    r.next.newStream = s.newStream := by
  unfold alacBlock at h
  split at h
  · cases h
  dsimp only at h
  split at h
  · cases h
    rfl
  split at h
  · cases h
    rfl
  split at h
  · cases h
    rfl
  · split at h <;> cases h <;> rfl

theorem helixFrame_newStream (e : HelixAnswers) (s : HelixStream) :
    (helixFrame e s).next.newStream = s.newStream := by
  unfold helixFrame
  dsimp only
  split
  · rfl
  · split <;> rfl

/-- A header that is found stays so. -/
theorem decode_found {stream : StreamState} {e : DecodePass} {codec : Codec} {r : Decoded Codec}
    (hfound : codec.Found) (h : codec.decode d stream e = some r) : r.next.Found := by
  cases codec with
  | pcm s =>
    obtain ⟨r', -, rfl⟩ := Option.map_eq_some_iff.mp h
    trivial
  | alac s =>
    obtain ⟨r', hdecoded, rfl⟩ := Option.map_eq_some_iff.mp h
    have hnew : s.newStream = false := hfound
    have hnot : ¬ s.newStream = true := by simp [hnew]
    unfold alacDecode at hdecoded
    dsimp only at hdecoded
    rw [if_neg hnot] at hdecoded
    split at hdecoded
    · cases hdecoded
      exact hnew
    · exact (alacBlock_newStream hdecoded).trans hnew
  | helixaac s =>
    obtain ⟨r', hdecoded, rfl⟩ := Option.map_eq_some_iff.mp h
    have hnew : s.newStream = false := hfound
    have hnot : ¬ s.newStream = true := by simp [hnew]
    unfold helixDecode at hdecoded
    dsimp only at hdecoded
    rw [if_neg hnot] at hdecoded
    split at hdecoded
    · cases hdecoded
      exact hnew
    split at hdecoded
    · cases hdecoded
      exact hnew
    · cases hdecoded
      exact (helixFrame_newStream e.helix s).trans hnew

/-- Once the header is found, every call is clear. -/
theorem along_found (es : List PlayEvent) (hfound : s.codec.Found) :
    (playMachine d data).Along (PlayEvent.clear d) s es := by
  induction es generalizing s with
  | nil => trivial
  | cons e es ih =>
    cases e with
    | fill m =>
      refine ⟨trivial, ih ?_⟩
      unfold playMachine
      dsimp only
      split
      · obtain ⟨codec, arrived, decoded, running⟩ := s
        cases codec <;> exact hfound
      · exact hfound
    | call stream e =>
      refine ⟨fun _ => hfound.startClear, ih ?_⟩
      unfold playMachine
      dsimp only
      split
      · unfold playCall
        dsimp only
        split
        · exact hfound
        · rename_i r hr
          exact decode_found hfound hr
      · exact hfound

/-- Nothing is assumed where alac decodes. -/
theorem along_takes_alac (es : List PlayEvent) (halac : ∃ l, s.codec = .alac l) :
    (playMachine d data).Along (PlayEvent.takes d t) s es := by
  induction es generalizing s with
  | nil => trivial
  | cons e es ih =>
    obtain ⟨codec, arrived, decoded, running⟩ := s
    obtain ⟨l, rfl⟩ := halac
    cases e with
    | fill m =>
      refine ⟨trivial, ih ?_⟩
      unfold playMachine
      dsimp only
      split <;> exact ⟨_, rfl⟩
    | call stream e =>
      refine ⟨fun _ => trivial, ih ?_⟩
      unfold playMachine
      dsimp only
      split
      · unfold playCall
        dsimp only
        split
        · exact ⟨l, rfl⟩
        · rename_i r hr
          obtain ⟨r', -, rfl⟩ := Option.map_eq_some_iff.mp hr
          exact ⟨_, rfl⟩
      · exact ⟨l, rfl⟩

/-- Once decoding is over, nothing is decoded. -/
theorem run_over (es : List PlayEvent) (hrun : s.running = false) :
    ((playMachine d data).run s es).2 = [] := by
  induction es generalizing s with
  | nil => rfl
  | cons e es ih =>
    have hstep : ((playMachine d data).step s e).2 = [] ∧
        ((playMachine d data).step s e).1.running = false := by
      cases e with
      | fill m =>
        unfold playMachine
        dsimp only
        split <;> exact ⟨rfl, hrun⟩
      | call stream e =>
        unfold playMachine
        dsimp only
        rw [hrun]
        exact ⟨rfl, hrun⟩
    rw [Runs.Machine.run, hstep.1, ih hstep.2]
    rfl

/-- What is decoded along a run that is clear. -/
theorem run_placed (es : List PlayEvent) (h : s.Inv d data t)
    (hclear : (playMachine d data).Along (PlayEvent.clear d) s es)
    (htakes : (playMachine d data).Along (PlayEvent.takes d t) s es) {n : ℕ} {x : ℕ × List UInt8}
    (hx : ((playMachine d data).run s es).2[n]? = some x) :
    ∀ place ∈ t.place (s.decoded + n), x.1 = place ∧ x.2 <+: data.drop place := by
  induction es generalizing s n with
  | nil => cases hx
  | cons e es ih =>
    rw [Runs.Machine.run] at hx
    cases e with
    | fill m =>
      have hlog : ((playMachine d data).step s (.fill m)).2 = [] := by
        unfold playMachine
        dsimp only
        split <;> rfl
      have hdecoded : ((playMachine d data).step s (.fill m)).1.decoded = s.decoded := by
        unfold playMachine
        dsimp only
        split <;> rfl
      rw [hlog] at hx
      rw [← hdecoded]
      exact ih (inv_fill h m) hclear.2 htakes.2 hx
    | call stream e =>
      by_cases hrun : s.running = true
      · obtain ⟨hplaced, hnext⟩ := inv_call h hrun (hclear.1 hrun) (htakes.1 hrun)
        have hstep : (playMachine d data).step s (.call stream e) = playCall d stream e s :=
          if_pos hrun
        have hdecoded : (playCall d stream e s).1.decoded =
            s.decoded + (s.codec.given d stream e).toList.length := by
          unfold playCall
          dsimp only
          split <;> rfl
        have hinv : (playCall d stream e s).1.Inv d data t := by
          refine ⟨h.short, fun hgoes => ?_⟩
          unfold playCall at hgoes ⊢
          dsimp only at hgoes ⊢
          split at hgoes
          · cases hgoes
          · rename_i r hr
            exact hnext r hr (of_decide_eq_true hgoes)
        obtain ⟨-, hclear⟩ := hclear
        obtain ⟨-, htakes⟩ := htakes
        rw [hstep] at hx hclear htakes
        have hafter := @ih _ hinv hclear htakes
        cases hgiven : s.codec.given d stream e with
        | none =>
          rw [hgiven] at hdecoded
          have hlog : (playCall d stream e s).2 = [] := by
            unfold playCall
            rw [hgiven]
            rfl
          rw [hlog] at hx
          rw [hdecoded] at hafter
          exact hafter hx
        | some buffer =>
          rw [hgiven] at hdecoded hplaced
          have hlog : (playCall d stream e s).2 =
              [(s.arrived - bufUsed buffer, buffer.content)] := by
            unfold playCall
            rw [hgiven]
            rfl
          rw [hlog] at hx
          cases n with
          | zero =>
            cases hx
            exact hplaced buffer rfl
          | succ n =>
            have hcount : s.decoded + (n + 1) = s.decoded + 1 + n := by omega
            rw [hcount]
            rw [hdecoded] at hafter
            exact hafter hx
      · have hstep : (playMachine d data).step s (.call stream e) = (s, []) := if_neg hrun
        have hnone : ((playMachine d data).run s es).2 = [] :=
          run_over es (eq_false_of_ne_true hrun)
        rw [hstep, hnone] at hx
        cases hx

theorem NewStream.inFile (h : NewStream b p) : InFile data 0 b p := by
  obtain ⟨hwf, hempty, hpos, -⟩ := h
  have hused : bufUsed b = 0 := by
    rw [← Buffer.Wf.length_content, hempty]
    rfl
  refine ⟨by omega, hwf, ?_⟩
  rw [hempty]
  exact List.nil_prefix

/-- At the start of a file its header is next. -/
theorem NewStream.stage (h : NewStream b p) (hfile : MediaFile c data p t sized) :
    Stage c t sized data 0 0 true b p := by
  obtain ⟨hshort, audio, haudio, htrack⟩ := hfile
  refine .header ⟨h.inFile, by decide, audio, ?_, htrack⟩
  have hpos := h.pos
  rw [h.consume, ahead_of_consume h.consume (by omega), hpos]
  exact haudio

theorem TrackPlay.Opened.inv (h : s.Opened d data t) : s.Inv d data t := by
  obtain ⟨codec, arrived, decoded, running⟩ := s
  obtain ⟨harrived, hdecoded, hopens⟩ := h
  dsimp only at harrived hdecoded hopens
  subst harrived hdecoded
  cases codec with
  | pcm s => exact hopens.elim
  | alac s =>
    obtain ⟨hnew, hstream, hfile⟩ := hopens
    refine ⟨hfile.short, fun _ => ?_⟩
    show Stage _ _ _ _ _ _ s.newStream _ _
    rw [hnew]
    exact hstream.stage hfile
  | helixaac s =>
    obtain ⟨hadts, hnew, hstream, hfile⟩ := hopens
    refine ⟨hfile.short, fun _ => ⟨.inr hadts, ?_⟩⟩
    show Stage _ _ _ _ _ _ s.newStream _ _
    rw [hnew]
    exact hstream.stage hfile

/-- Of a file that has the tables of a track, the `n`-th call that decodes is given the file from
the `n`-th sample on, whenever the bytes arrive and the decode function is called, if the calls that
read the header are clear and the AAC decoder takes a sample at a time. -/
theorem samples_placed (d : DecodeSetup) (data : List UInt8) (t : Track) (s : TrackPlay)
    (es : List PlayEvent) (hopen : s.Opened d data t)
    (hclear : (playMachine d data).Along (PlayEvent.clear d) s es)
    (htakes : (playMachine d data).Along (PlayEvent.takes d t) s es) :
    ∀ n x, ((playMachine d data).run s es).2[n]? = some x →
      ∀ place ∈ t.place n, x.1 = place ∧ x.2 <+: data.drop place := by
  intro n x hx
  have hplaced := run_placed es hopen.inv hclear htakes hx
  rwa [hopen.decoded, Nat.zero_add] at hplaced

end Play

/-! ### An example -/

/-- What a header says, computed. -/
def headerWalk {κ : Type} (c : Mp4Codec κ) (data : List UInt8) : ℕ → ℕ → Mp4 κ → Option (Mp4 κ)
  | 0, _, _ => none
  | fuel + 1, q, p =>
      let box := boxOf (streamFrom data q)
      let len := unpackN (streamFrom data q) 0
      if q + 8 ≤ data.length then
        if box = .mdat then if p.play = 0 then none else some (p.atAudio c)
        else if keptBox c box = true → q + len ≤ data.length then
          match parseBox c (streamFrom data q) (data.length - q) len (p.count box) with
          | none => none
          | some p' =>
              headerWalk c data fuel (q + boxConsume box len) (p'.pass (boxConsume box len))
        else none
      else none

theorem headerOf_walk {κ : Type} {c : Mp4Codec κ} {data : List UInt8} {audio : Mp4 κ} (fuel : ℕ)
    {q : ℕ} {p : Mp4 κ} (h : headerWalk c data fuel q p = some audio) :
    HeaderOf c data q p (some audio) := by
  induction fuel generalizing q p with
  | zero => cases h
  | succ fuel ih =>
    unfold headerWalk at h
    dsimp only at h
    split at h
    · rename_i hroom
      split at h
      · rename_i hmdat
        split at h
        · cases h
        · rename_i hplay
          cases h
          exact .media hroom hmdat hplay
      · rename_i hother
        split at h
        · rename_i hthere
          split at h
          · cases h
          · rename_i p' hparse
            exact .box hroom hother hthere hparse (ih h)
        · cases h
    · cases h

section Example

/-- An alac file: a track of two chunks, each of two samples of four bytes behind a gap. -/
def gapBytes : List UInt8 :=
  [0, 0, 0, 8] ++ ascii ['t', 'r', 'a', 'k'] ++ ([0, 0, 0, 36] ++ ascii ['a', 'l', 'a', 'c'] ++
    List.replicate 28 0) ++ ([0, 0, 0, 20] ++ ascii ['s', 't', 's', 'z'] ++
    [0, 0, 0, 0, 0, 0, 0, 4, 0, 0, 0, 4]) ++ ([0, 0, 0, 28] ++ ascii ['s', 't', 's', 'c'] ++
    [0, 0, 0, 0, 0, 0, 0, 1, 0, 0, 0, 1, 0, 0, 0, 2, 0, 0, 0, 1]) ++
    ([0, 0, 0, 24] ++ ascii ['s', 't', 'c', 'o'] ++
    [0, 0, 0, 0, 0, 0, 0, 2, 0, 0, 0, 130, 0, 0, 0, 141]) ++
    ([0, 0, 0, 33] ++ ascii ['m', 'd', 'a', 't']) ++ List.replicate 6 0 ++
    [1, 1, 1, 1, 2, 2, 2, 2] ++ [0, 0, 0] ++ [3, 3, 3, 3, 4, 4, 4, 4]

/-- The track of this file. -/
def gapTrack : Track where
  chunks := [(130, [4, 4]), (141, [4, 4])]
  some_samples := by decide
  some_bytes := by decide
  offset_pos := by decide
  inside := by decide
  count_lt := by decide

/-- What the parser has at its first sample. -/
def gapAudio : Mp4 Alac where
  consume := 0
  pos := 130
  sample := 1
  nextchunk := 1
  stsc := none
  skip := 0
  samples := 0
  sttssamples := 0
  empty := false
  chunkinfo := some [⟨0, 130⟩, ⟨2, 141⟩, ⟨0, 0⟩]
  trak := 1
  play := 1
  codec := ⟨some [], 4352, 16, 44100, 2, none, 4, 0⟩

theorem gapTrack_table : gapTrack.HasTable [⟨0, 130⟩, ⟨2, 141⟩, ⟨0, 0⟩] where
  chunk
    | 0, _, h => by cases h; rfl
    | 1, _, h => by cases h; rfl
    | _ + 2, _, h => by cases h
  finish := rfl

theorem gapBytes_file :
    MediaFile (alacCodec someSetup.create someSetup.malloc) gapBytes alacOpen gapTrack
      (Alac.HasSizes gapTrack) where
  short := by decide +kernel
  header := ⟨gapAudio, headerOf_walk 6 (by decide +kernel), ⟨_, rfl, gapTrack_table⟩,
    ⟨(130, [4, 4]), rfl, rfl⟩, .inl ⟨by decide, by decide⟩⟩

/-- This file about to be played, with a ring of so many bytes. -/
def gapPlay (size : ℕ) : TrackPlay :=
  ⟨.alac ⟨alacOpen, true, bufInit ⟨0, fun _ => 0⟩ size⟩, 0, 0, true⟩

theorem opened_gapPlay {size : ℕ} (h : 0 < size) :
    (gapPlay size).Opened someSetup gapBytes gapTrack :=
  ⟨rfl, rfl, rfl, ⟨wf_bufInit _ h, content_bufInit _ _, rfl, rfl⟩, gapBytes_file⟩

/-- A call in which a block is decoded, if it comes to that. -/
def blockCall : PlayEvent := .call .streamingHttp { roomyPass with toPcm := some 1 }

/-- The gap before the second chunk arrives in two pieces. -/
def gapEvents : List PlayEvent :=
  [.fill 139, blockCall, blockCall, blockCall, .fill 10, blockCall, blockCall]

/-- A box of the file is all there. -/
theorem roundClear_stsz {b : Buffer} {p : Mp4 Alac} {bytes : ℕ} (hbox : boxOf b.peek = .stsz)
    (hlen : unpackN b.peek 0 = 20) (hdefault : unpackN b.peek 12 ≠ 0) (hall : 20 < bytes) :
    RoundClear trackReader.codec bytes b p where
  kept := by
    rw [hlen]
    exact fun _ => .inl ⟨hall, alone_stsz hbox (by decide) fun hzero => absurd hzero hdefault⟩
  waits := by
    rw [hbox, hlen]
    exact fun hfew => absurd hfew (by simp only [boxConsume]; omega)

theorem roundClear_stsc {b : Buffer} {p : Mp4 Alac} {bytes : ℕ} (hbox : boxOf b.peek = .stsc)
    (hlen : unpackN b.peek 0 = 28) (hall : 28 < bytes) :
    RoundClear trackReader.codec bytes b p where
  kept := by
    rw [hlen]
    exact fun _ => .inl ⟨hall, alone_stsc (by decide) hbox (by decide) (by decide)⟩
  waits := by
    rw [hbox, hlen]
    exact fun hfew => absurd hfew (by simp only [boxConsume]; omega)

theorem roundClear_stco {b : Buffer} {p : Mp4 Alac} {bytes : ℕ} (hbox : boxOf b.peek = .stco)
    (hlen : unpackN b.peek 0 = 24) (hentries : unpackN b.peek 12 = 2) (hall : 24 < bytes) :
    RoundClear trackReader.codec bytes b p where
  kept := by
    rw [hlen]
    exact fun _ => .inl ⟨hall, alone_stco (by decide) hbox (by omega)⟩
  waits := by
    rw [hbox, hlen]
    exact fun hfew => absurd hfew (by simp only [boxConsume]; omega)

/-- The ring when the first piece is there. -/
def gapFilled : Buffer :=
  bufIncWritep (bufStore (bufInit ⟨0, fun _ => 0⟩ 160) (gapBytes.take 139)) 139

/-- The call that reads the header of the file is clear. -/
theorem gap_clear : CallClear trackReader.codec gapFilled alacOpen where
  head _ := by decide
  waits hw := absurd hw (by decide)
  rounds := by
    show roundsClear _ 140 139 _ _
    refine roundsClear_next (roundClear_other (by decide) (by decide)) rfl
      (by decide) ?_
    refine roundsClear_next (roundClear_track (by decide) (by decide)
      (by decide)) rfl (by decide) ?_
    refine roundsClear_next (roundClear_stsz (by decide) (by decide)
      (by decide) (by decide)) rfl (by decide) ?_
    refine roundsClear_next (roundClear_stsc (by decide) (by decide)
      (by decide)) rfl (by decide) ?_
    refine roundsClear_next (roundClear_stco (by decide) (by decide)
      (by decide) (by decide)) rfl (by decide) ?_
    exact roundsClear_done ⟨fun hk => absurd hk (by decide),
      fun _ hw => absurd hw (by decide)⟩ rfl

/-- The first event, at a ring that is new. -/
theorem gap_fill : ((playMachine someSetup gapBytes).step (gapPlay 160) (.fill 139)).1 =
    ⟨.alac ⟨alacOpen, true, gapFilled⟩, 139, 0, true⟩ := by
  have hroom : 139 ≤ min (bufSpace (gapPlay 160).codec.streambuf)
        (bufContWrite (gapPlay 160).codec.streambuf) ∧
      (gapPlay 160).arrived + 139 ≤ gapBytes.length := by decide +kernel
  have hlen : ((gapBytes.drop 0).take 139).length = 139 := by decide +kernel
  unfold playMachine
  dsimp only
  rw [if_pos hroom]
  show TrackPlay.mk (.alac ⟨alacOpen, true, bufIncWritep _ ((gapBytes.drop 0).take 139).length⟩)
    _ _ _ = _
  rw [hlen]
  rfl

theorem gap_along : (playMachine someSetup gapBytes).Along (PlayEvent.clear someSetup)
    (gapPlay 160) gapEvents := by
  refine ⟨trivial, ?_⟩
  rw [gap_fill]
  refine ⟨fun _ _ _ => ⟨gap_clear, by decide⟩, ?_⟩
  exact along_found _ (by decide)

/-- The third sample is decoded from its place, with the gap before it skipped in two pieces. -/
theorem samples_placed_gap :
    (((playMachine someSetup gapBytes).run (gapPlay 160) gapEvents).2.getD 2 (0, [])).1 = 141 ∧
      (((playMachine someSetup gapBytes).run (gapPlay 160) gapEvents).2.getD 2 (0, [])).2 <+:
        gapBytes.drop 141 :=
  samples_placed someSetup gapBytes gapTrack (gapPlay 160) gapEvents (opened_gapPlay (by decide))
    gap_along (along_takes_alac _ ⟨_, rfl⟩) 2 _ (by decide +kernel) 141 rfl

/-- A sample is decoded from the wrong place: when the first chunk begins behind what has arrived
with the media data, what is to be skipped is kept for the next call, but a block is decoded at
once. -/
theorem sample_misplaced :
    ¬ ∀ (d : DecodeSetup) (data : List UInt8) (t : Track) (s : TrackPlay) (es : List PlayEvent),
      s.Opened d data t → (playMachine d data).Along (PlayEvent.takes d t) s es →
      ∀ n x, ((playMachine d data).run s es).2[n]? = some x →
        ∀ place ∈ t.place n, x.1 = place ∧ x.2 <+: data.drop place := by
  intro hall
  have hplaced := hall someSetup gapBytes gapTrack (gapPlay 160) [.fill 128, blockCall]
    (opened_gapPlay (by decide)) (along_takes_alac _ ⟨_, rfl⟩) 0 (124, [0, 0, 0, 0])
    (by decide +kernel) 130 rfl
  exact absurd hplaced.1 (by decide)

end Example

end SqueezeliteMuse
