/-
SqueezeliteMuse/StscExpand.lean

The table of chunks that `read_mp4_header` builds.

stco has the offsets of the chunks.  stsc has runs of chunks with the same number of samples: the
number of the first chunk of a run, counted from 1, and the samples of each.  stsc is kept until
stco comes, and is expanded then; the parser assumes that it comes first.

Main result: `stsc_expands`: the table has the offsets of stco, and with each the samples of all
chunks before (modulo 2 ^ 32), if stsc came first.
-/
import SqueezeliteMuse.Mp4
import SqueezeliteMuse.Lib.RunLength

namespace SqueezeliteMuse

open RunLength

/-! ### Rounds of the loop -/

/-- A box as a round of the loop sees it: the memory from its start, the bytes before the end of
the block, and those in the buffer. -/
structure SeenBox where
  mem : ℕ → UInt8
  left : ℕ
  bytes : ℕ

/-- The box is all in the buffer. -/
def SeenBox.whole (box : SeenBox) : Prop := unpackN box.mem 0 < box.bytes

instance (box : SeenBox) : Decidable box.whole := Nat.decLt ..

/-- What a round keeps of a box; `none` is an error. -/
def seeBox {κ : Type} (c : Mp4Codec κ) (box : SeenBox) (p : Mp4 κ) : Option (Mp4 κ) :=
  if box.whole then
    parseBox c box.mem box.left (unpackN box.mem 0) (p.count (boxOf box.mem))
  else some (p.count (boxOf box.mem))

/-- What the tables are built from. -/
def Mp4.tables {κ : Type} (p : Mp4 κ) : Option (List ChunkTable) × Option (List UInt8) × ℕ × ℕ :=
  (p.chunkinfo, p.stsc, p.play, p.trak)

/-- The box is not one of stsc and stco, or not all in the buffer. -/
def SeenBox.quiet (box : SeenBox) : Prop :=
  boxOf box.mem = .stsc ∨ boxOf box.mem = .stco → ¬ box.whole

/-- Rounds one after the other, each with its box; what else is kept may change between them. -/
inductive Rounds {κ : Type} (c : Mp4Codec κ) : List SeenBox → Mp4 κ → Mp4 κ → Prop
  | none {p q : Mp4 κ} (h : p.tables = q.tables) : Rounds c [] p q
  | round {box : SeenBox} {boxes : List SeenBox} {p p' q r : Mp4 κ} (hsee : seeBox c box p = some p')
      (hsame : p'.tables = q.tables) (hrest : Rounds c boxes q r) : Rounds c (box :: boxes) p r

/-- The boxes that the loop of `read_mp4_header` sees. -/
def seenBoxes {κ : Type} (c : Mp4Codec κ) : ℕ → ℕ → Buffer → Mp4 κ → List SeenBox
  | 0, _, _, _ => []
  | fuel + 1, bytes, b, p =>
      if bytes < 8 then []
      else
        ⟨b.peek, b.wrap - b.readp, bytes⟩ ::
          match boxStep c bytes b p with
          | .done _ _ _ => []
          | .next bytes b p => seenBoxes c fuel bytes b p

/-! ### What the boxes say -/

/-- The runs of stsc: `count` entries from `p` on. -/
def readRuns (m : ℕ → UInt8) : ℕ → ℕ → List (ℕ × ℕ)
  | 0, _ => []
  | count + 1, p => (unpackN m p, unpackN m (p + 4)) :: readRuns m count (p + 12)

/-- The runs of a box stsc. -/
def stscRuns (m : ℕ → UInt8) : List (ℕ × ℕ) := readRuns m (unpackN m 12) 16

/-- The number of chunks in stco. -/
def stcoEntries (m : ℕ → UInt8) : ℕ := unpackN m 12

/-- The offset of a chunk in stco. -/
def stcoOffset (m : ℕ → UInt8) (k : ℕ) : ℕ := unpackN m (16 + 4 * k)

/-- A box stsc that is well formed, for so many chunks. -/
structure StscWellFormed (m : ℕ → UInt8) (entries : ℕ) : Prop where
  whole : 16 + 12 * unpackN m 12 ≤ unpackN m 0
  first : ((stscRuns m).head?).map Prod.fst = some 1
  ordered : Ordered (stscRuns m)
  most : ∀ r ∈ stscRuns m, r.1 ≤ entries
  samples : ∀ r ∈ stscRuns m, 1 ≤ r.2

/-- The table is that of the two boxes: the offset of each chunk, and the samples before it. -/
def TableOf (stsc stco : ℕ → UInt8) (table : List ChunkTable) : Prop :=
  ∀ k < stcoEntries stco, table[k]? =
    some ⟨sumTo (stscRuns stsc) 1 k % 2 ^ 32, stcoOffset stco k⟩

/-! ### The loops -/

section Fill

variable {runs : List (ℕ × ℕ)} {off : ℕ → ℕ} {entries : ℕ}

/-- The first `upto` chunks have their samples. -/
def Filled (runs : List (ℕ × ℕ)) (off : ℕ → ℕ) (entries upto : ℕ) (table : List ChunkTable) :
    Prop :=
  ∀ k < entries, ∃ sample, table[k]? = some ⟨sample, off k⟩ ∧
    (k < upto → sample = sumTo runs 1 k % 2 ^ 32)

/-- Chunks of one run get their samples. -/
theorem setSamples_filled {step : ℕ} (count : ℕ) : ∀ {i sample : ℕ} {table : List ChunkTable},
    (∀ j, i ≤ j → j < i + count → valueAt runs (1 + j) = step) →
    sample = sumTo runs 1 i % 2 ^ 32 → Filled runs off entries i table →
    (setSamples step count i sample table).2 = sumTo runs 1 (i + count) % 2 ^ 32 ∧
      Filled runs off entries (i + count) (setSamples step count i sample table).1 := by
  induction count with
  | zero => exact fun _ hsample htable => ⟨hsample, htable⟩
  | succ count ih =>
    intro i sample table hstep hsample htable
    have hnext : i + (count + 1) = i + 1 + count := by omega
    rw [setSamples, hnext]
    apply ih
    · exact fun j hj hlt => hstep j (by omega) (by omega)
    · have hvalue := hstep i (Nat.le_refl _) (by omega)
      rw [sumTo, hvalue, hsample, Nat.mod_add_mod]
    · intro k hk
      obtain ⟨old, hentry, hold⟩ := htable k hk
      rw [List.getElem?_modify, hentry]
      by_cases hki : i = k
      · subst hki
        exact ⟨sample, by simp, fun _ => hsample⟩
      · exact ⟨old, by simp [hki], fun hlt => hold (by omega)⟩

/-- Where the loop over the runs is: the run before, the next sample, and the chunks that have
theirs. -/
structure AtRun (runs done : List (ℕ × ℕ)) (off : ℕ → ℕ) (entries last lastSamples sample : ℕ)
    (table : List ChunkTable) : Prop where
  before : done = [] ∧ last = 0 ∨ ∃ d, done = d ++ [(last, lastSamples)] ∧ 1 ≤ last
  sample : sample = sumTo runs 1 (last - 1) % 2 ^ 32
  filled : Filled runs off entries (last - 1) table

variable {done rest : List (ℕ × ℕ)} {first samples last lastSamples sample : ℕ}
  {table : List ChunkTable}

/-- The chunks of the run before get their samples. -/
theorem AtRun.close (h : AtRun runs done off entries last lastSamples sample table)
    (hruns : runs = done ++ (first, samples) :: rest) (hordered : Ordered runs)
    (hhead : done = [] → first = 1) (run : List ChunkTable × ℕ)
    (hrun : run = if last ≠ 0 then
      setSamples lastSamples (first - 1 - (last - 1)) (last - 1) sample table
      else (table, sample)) :
    run.2 = sumTo runs 1 (first - 1) % 2 ^ 32 ∧ Filled runs off entries (first - 1) run.1 := by
  rcases h.before with ⟨hnone, hlast⟩ | ⟨d, hdone, hlast⟩
  · have hone := hhead hnone
    have hsample := h.sample
    have hfilled := h.filled
    subst hlast hone
    rw [hrun, if_neg (by omega)]
    exact ⟨hsample, hfilled⟩
  · subst hdone
    rw [List.append_assoc] at hruns
    have hlt : last < first := by
      rw [hruns] at hordered
      obtain ⟨-, htail, -⟩ := List.pairwise_append.mp hordered
      exact (List.pairwise_cons.mp htail).1 (first, samples) (List.mem_cons_self ..)
    have hvalue : ∀ j, last - 1 ≤ j → j < last - 1 + (first - 1 - (last - 1)) →
        valueAt runs (1 + j) = lastSamples := by
      intro j hj hlt
      rw [hruns] at hordered ⊢
      refine valueAt_run (r := (last, lastSamples)) hordered ?_ ?_
      · show last ≤ 1 + j
        omega
      · rintro q hq
        obtain rfl : (first, samples) = q := by simpa using hq
        show 1 + j < first
        omega
    have hupto : last - 1 + (first - 1 - (last - 1)) = first - 1 := by omega
    have hfill := setSamples_filled _ hvalue h.sample h.filled
    rw [hupto] at hfill
    rw [hrun, if_pos (by omega)]
    exact hfill

/-- The chunks of the last run get their samples. -/
theorem filled_last (hruns : runs = done ++ [(first, samples)]) (hordered : Ordered runs)
    (hone : 1 ≤ first) (hmost : first ≤ entries)
    (hsample : sample = sumTo runs 1 (first - 1) % 2 ^ 32)
    (hfilled : Filled runs off entries (first - 1) table) :
    Filled runs off entries entries
      (setSamples samples (entries - (first - 1)) (first - 1) sample table).1 := by
  have hvalue : ∀ j, first - 1 ≤ j → j < first - 1 + (entries - (first - 1)) →
      valueAt runs (1 + j) = samples := by
    intro j hj _
    rw [hruns] at hordered ⊢
    refine valueAt_run (r := (first, samples)) hordered ?_ ?_
    · show first ≤ 1 + j
      omega
    · exact fun q hq => absurd hq (by simp)
  have hupto : first - 1 + (entries - (first - 1)) = entries := by omega
  have hfill := (setSamples_filled _ hvalue hsample hfilled).2
  rwa [hupto] at hfill

/-- The loop over the runs fills in the samples of all chunks. -/
theorem fillChunks_filled {m : ℕ → UInt8} (hordered : Ordered runs)
    (hfirst : runs.head?.map Prod.fst = some 1) (hmost : ∀ r ∈ runs, r.1 ≤ entries)
    (hentries : entries < 2 ^ 32) (n : ℕ) : ∀ {p : ℕ} {done : List (ℕ × ℕ)}
    {last lastSamples sample : ℕ} {table : List ChunkTable}, n ≠ 0 →
    runs = done ++ readRuns m n p →
    AtRun runs done off entries last lastSamples sample table →
    Filled runs off entries entries (fillChunks m entries n p last lastSamples sample table) := by
  induction n with
  | zero => exact fun hn => absurd rfl hn
  | succ n ih =>
    intro p done last lastSamples sample table _ hruns hat
    rw [readRuns] at hruns
    -- the run that is read
    generalize hf : unpackN m p = first at hruns
    generalize hs : unpackN m (p + 4) = samples at hruns
    have hmem : (first, samples) ∈ runs := by rw [hruns]; simp
    have hle : first ≤ entries := hmost _ hmem
    have hhead : done = [] → first = 1 := by
      rintro rfl
      rw [hruns] at hfirst
      simpa using hfirst
    have hone : 1 ≤ first := by
      cases done with
      | nil => exact Nat.le_of_eq (hhead rfl).symm
      | cons r others =>
        have hr : r.1 = 1 := by rw [hruns] at hfirst; simpa using hfirst
        have hbefore : r.1 < first := by
          rw [hruns, List.cons_append] at hordered
          exact (List.pairwise_cons.mp hordered).1 (first, samples) (by simp)
        omega
    have hsub : u32Sub first 1 = first - 1 := by unfold u32Sub; omega
    rw [fillChunks, hf, hs, hsub]
    obtain ⟨hsample, hfilled⟩ := hat.close hruns hordered hhead _ rfl
    by_cases hn : n = 0
    · subst hn
      rw [if_pos rfl, fillChunks]
      exact filled_last hruns hordered hone hle hsample hfilled
    · rw [if_neg hn]
      have hnext : runs = done ++ [(first, samples)] ++ readRuns m n (p + 12) := by
        rw [hruns]
        simp
      apply ih hn hnext
      exact ⟨.inr ⟨done, rfl, hone⟩, hsample, hfilled⟩

end Fill

/-! ### The table -/

/-- The runs are read the same from a copy. -/
theorem readRuns_congr {m m' : ℕ → UInt8} (n : ℕ) : ∀ {p p' : ℕ},
    (∀ i < 12 * n, m (p + i) = m' (p' + i)) → readRuns m n p = readRuns m' n p' := by
  induction n with
  | zero => exact fun _ => rfl
  | succ n ih =>
    intro p p' h
    have hfirst : unpackN m p = unpackN m' p' :=
      Octets.be_congr_of fun i hi => h i (by omega)
    have hsamples : unpackN m (p + 4) = unpackN m' (p' + 4) :=
      Octets.be_congr_of fun i hi => by
        rw [Nat.add_assoc, Nat.add_assoc]
        exact h (4 + i) (by omega)
    have hrest : readRuns m n (p + 12) = readRuns m' n (p' + 12) :=
      ih fun i hi => by
        rw [Nat.add_assoc, Nat.add_assoc]
        exact h (12 + i) (by omega)
    rw [readRuns, readRuns, hfirst, hsamples, hrest]

/-- What is stashed of stsc. -/
def stash (m : ℕ → UInt8) : List UInt8 :=
  (List.range (u32Sub (unpackN m 0) 12)).map fun i => m (12 + i)

section Table

variable {stsc stco : ℕ → UInt8}

theorem stash_getD {i : ℕ} (h12 : 12 ≤ unpackN stsc 0) (hi : 12 + i < unpackN stsc 0) :
    (stash stsc).getD i 0 = stsc (12 + i) := by
  have hlen : unpackN stsc 0 < 256 ^ 4 := Octets.be_lt ..
  have hsub : u32Sub (unpackN stsc 0) 12 = unpackN stsc 0 - 12 := by unfold u32Sub; omega
  have hlt : i < u32Sub (unpackN stsc 0) 12 := by omega
  rw [stash, List.getD_eq_getElem?_getD, List.getElem?_map, List.getElem?_range hlt]
  rfl

/-- The runs are in what is stashed. -/
theorem stash_runs (h : StscWellFormed stsc (stcoEntries stco)) :
    readRuns (fun i => (stash stsc).getD i 0) (unpackN (fun i => (stash stsc).getD i 0) 0) 4
      = stscRuns stsc := by
  have hwhole := h.whole
  have hcount : unpackN (fun i => (stash stsc).getD i 0) 0 = unpackN stsc 12 := by
    apply Octets.be_congr_of
    intro i hi
    show (stash stsc).getD (0 + i) 0 = stsc (12 + i)
    rw [Nat.zero_add, stash_getD (by omega) (by omega)]
  rw [hcount, stscRuns]
  apply readRuns_congr
  intro i hi
  show (stash stsc).getD (4 + i) 0 = stsc (16 + i)
  have hplace : 12 + (4 + i) = 16 + i := by omega
  rw [stash_getD (by omega) (by omega), hplace]

theorem chunkOffsets_get {k : ℕ} (hk : k < stcoEntries stco) :
    (chunkOffsets stco (stcoEntries stco))[k]? = some ⟨0, stcoOffset stco k⟩ := by
  rw [chunkOffsets, List.getElem?_append_left (by simpa using hk), List.getElem?_map,
    List.getElem?_range hk]
  rfl

/-- The table that is built at stco, if stsc is stashed. -/
theorem chunkTable_tableOf (h : StscWellFormed stsc (stcoEntries stco)) :
    TableOf stsc stco (chunkTable stco (some (stash stsc))) := by
  have hruns := stash_runs h
  have hsome : unpackN (fun i => (stash stsc).getD i 0) 0 ≠ 0 := by
    intro hnone
    have hfirst := h.first
    rw [← hruns, hnone] at hfirst
    cases hfirst
  have hentries : stcoEntries stco < 2 ^ 32 := Octets.be_lt ..
  have hstart : 0 = sumTo (stscRuns stsc) 1 (0 - 1) % 2 ^ 32 := (Nat.zero_mod _).symm
  have hnone : Filled (stscRuns stsc) (stcoOffset stco) (stcoEntries stco) (0 - 1)
      (chunkOffsets stco (stcoEntries stco)) := by
    intro k hk
    refine ⟨0, chunkOffsets_get hk, ?_⟩
    intro h
    exact absurd h (Nat.not_lt_zero k)
  have hat : AtRun (stscRuns stsc) [] (stcoOffset stco) (stcoEntries stco) 0 0 0
      (chunkOffsets stco (stcoEntries stco)) :=
    ⟨.inl ⟨rfl, rfl⟩, hstart, hnone⟩
  have hread : stscRuns stsc = [] ++ readRuns (fun i => (stash stsc).getD i 0)
      (unpackN (fun i => (stash stsc).getD i 0) 0) 4 := by
    rw [hruns, List.nil_append]
  have hfilled := fillChunks_filled h.ordered h.first h.most hentries _ hsome hread hat
  intro k hk
  obtain ⟨sample, hentry, hsample⟩ := hfilled k hk
  rw [← hsample hk, ← hentry]
  rfl

end Table

/-! ### The loop of the parser -/

/-- What is kept after a round; `none` is an error. -/
def HeaderStep.kept {κ : Type} : HeaderStep κ → Option (Mp4 κ)
  | .done .failed _ _ => none
  | .done _ _ p => some p
  | .next _ _ p => some p

section Loop

variable {κ : Type} {c : Mp4Codec κ} {p q r : Mp4 κ} {bytes bytes' : ℕ} {b b' : Buffer}
  {found : Found}

theorem mediaStep_kept (h : (mediaStep c bytes b p).kept = some q) : p.tables = q.tables := by
  unfold mediaStep at h
  dsimp only at h
  split at h
  · cases h
  · split at h
    · cases h
      rfl
    · cases h
      rfl

theorem passBox_kept {box : Box} {len : ℕ} (h : (passBox c bytes b p box len).kept = some q) :
    p.tables = q.tables := by
  unfold passBox at h
  split at h
  · cases h
    rfl
  · split at h
    · cases h
      rfl
    · split at h
      · cases h
      · cases h
        rfl

/-- What a round keeps of its box. -/
theorem boxStep_kept (h : (boxStep c bytes b p).kept = some q) :
    ∃ p', seeBox c ⟨b.peek, b.wrap - b.readp, bytes⟩ p = some p' ∧ p'.tables = q.tables := by
  have hsee : seeBox c ⟨b.peek, b.wrap - b.readp, bytes⟩ p =
      if bytes > unpackN b.peek 0 then
        parseBox c b.peek (b.wrap - b.readp) (unpackN b.peek 0) (p.count (boxOf b.peek))
      else some (p.count (boxOf b.peek)) := rfl
  unfold boxStep at h
  dsimp only at h
  rw [← hsee] at h
  generalize seeBox c ⟨b.peek, b.wrap - b.readp, bytes⟩ p = seen at h ⊢
  cases seen with
  | none => cases h
  | some p' =>
    refine ⟨p', rfl, ?_⟩
    dsimp only at h
    split at h
    · exact mediaStep_kept h
    · exact passBox_kept h

/-- The loop is a run of rounds. -/
theorem headerLoop_rounds (hfound : found ≠ .failed) (fuel : ℕ) : ∀ {bytes : ℕ} {b : Buffer}
    {p : Mp4 κ}, headerLoop c fuel bytes b p = some (found, b', q) →
    Rounds c (seenBoxes c fuel bytes b p) p q := by
  induction fuel with
  | zero => exact fun h => by cases h
  | succ fuel ih =>
    intro bytes b p h
    rw [headerLoop] at h
    rw [seenBoxes]
    by_cases hfew : bytes < 8
    · rw [if_pos hfew] at h ⊢
      cases h
      exact .none rfl
    · rw [if_neg hfew] at h ⊢
      cases hstep : boxStep c bytes b p with
      | done found' b'' p'' =>
        rw [hstep] at h
        cases h
        have hkept : (boxStep c bytes b p).kept = some q := by
          rw [hstep]
          cases found with
          | failed => exact absurd rfl hfound
          | more => rfl
          | media => rfl
        obtain ⟨p', hsee, hsame⟩ := boxStep_kept hkept
        exact .round hsee hsame (.none rfl)
      | next bytes' b'' p'' =>
        rw [hstep] at h
        have hkept : (boxStep c bytes b p).kept = some p'' := by
          rw [hstep]
          rfl
        obtain ⟨p', hsee, hsame⟩ := boxStep_kept hkept
        exact .round hsee hsame (ih h)

end Loop

/-! ### Runs of rounds -/

section Run

variable {κ : Type} {c : Mp4Codec κ} {p q r : Mp4 κ} {box : SeenBox}

theorem count_tables (p : Mp4 κ) (box : Box) :
    (p.count box).chunkinfo = p.chunkinfo ∧ (p.count box).stsc = p.stsc := by
  unfold Mp4.count
  split <;> exact ⟨rfl, rfl⟩

theorem Rounds.split {xs ys : List SeenBox} : ∀ {p : Mp4 κ}, Rounds c (xs ++ ys) p r →
    ∃ q, Rounds c xs p q ∧ Rounds c ys q r := by
  induction xs with
  | nil => exact fun h => ⟨_, .none rfl, h⟩
  | cons x xs ih =>
    intro p h
    cases h with
    | round hsee hsame hrest =>
      obtain ⟨q, hxs, hys⟩ := ih hrest
      exact ⟨q, .round hsee hsame hxs, hys⟩

/-- Other boxes leave stsc and the table. -/
theorem seeBox_quiet (hquiet : box.quiet) (hsee : seeBox c box p = some q) :
    q.chunkinfo = p.chunkinfo ∧ q.stsc = p.stsc := by
  have hcount := count_tables p (boxOf box.mem)
  unfold seeBox at hsee
  split at hsee
  case isFalse =>
    cases hsee
    exact hcount
  case isTrue hwhole =>
    have hother : boxOf box.mem ≠ .stsc ∧ boxOf box.mem ≠ .stco :=
      ⟨fun h => hquiet (.inl h) hwhole, fun h => hquiet (.inr h) hwhole⟩
    generalize p.count (boxOf box.mem) = p' at hsee hcount
    rw [← hcount.1, ← hcount.2]
    unfold parseBox at hsee
    split at hsee
    · obtain ⟨codec, -, rfl⟩ := Option.map_eq_some_iff.mp hsee
      exact ⟨rfl, rfl⟩
    · split at hsee
      · split at hsee
        · cases hsee
          exact ⟨rfl, rfl⟩
        · cases hsee
          exact ⟨rfl, rfl⟩
      · cases hsee
        exact ⟨rfl, rfl⟩
      · rename_i hbox
        exact absurd hbox hother.1
      · rename_i hbox
        exact absurd hbox hother.2
      · cases hsee
        unfold parseGapless
        split
        · exact ⟨rfl, rfl⟩
        · exact ⟨rfl, rfl⟩
      · cases hsee
        exact ⟨rfl, rfl⟩

theorem Rounds.quiet {boxes : List SeenBox} (h : Rounds c boxes p q)
    (hquiet : ∀ box ∈ boxes, box.quiet) : q.chunkinfo = p.chunkinfo ∧ q.stsc = p.stsc := by
  induction h with
  | none h => exact ⟨(congrArg Prod.fst h).symm, (congrArg (fun t => t.2.1) h).symm⟩
  | round hsee hsame hrest ih =>
    obtain ⟨hinfo, hstsc⟩ := ih fun box hbox => hquiet box (List.mem_cons_of_mem _ hbox)
    obtain ⟨hinfo', hstsc'⟩ := seeBox_quiet (hquiet _ (List.mem_cons_self ..)) hsee
    have hinfoq := congrArg Prod.fst hsame
    have hstscq := congrArg (fun t => t.2.1) hsame
    exact ⟨(hinfo.trans hinfoq.symm).trans hinfo', (hstsc.trans hstscq.symm).trans hstsc'⟩

/-- stsc is stashed. -/
theorem seeBox_stsc (hconfig : c.config ≠ .stsc) (hbox : boxOf box.mem = .stsc) (hwhole : box.whole)
    (hnew : p.chunkinfo = none) (hsee : seeBox c box p = some q) :
    q.chunkinfo = none ∧ q.stsc = some (stash box.mem) := by
  have hsome : ¬ (p.count .stsc).chunkinfo.isSome := by
    show ¬ p.chunkinfo.isSome
    rw [hnew]
    exact fun h => by cases h
  rw [seeBox, if_pos hwhole, hbox] at hsee
  unfold parseBox at hsee
  rw [hbox, if_neg hconfig.symm] at hsee
  dsimp only at hsee
  rw [if_neg hsome] at hsee
  split at hsee
  · cases hsee
    exact ⟨hnew, rfl⟩
  · cases hsee

/-- The table is built. -/
theorem seeBox_stco (hconfig : c.config ≠ .stco) (hbox : boxOf box.mem = .stco) (hwhole : box.whole)
    (hsee : seeBox c box p = some q) :
    q.play = p.play ∧ q.trak = p.trak ∧
      (p.play = p.trak → q.chunkinfo = some (chunkTable box.mem p.stsc)) := by
  rw [seeBox, if_pos hwhole, hbox] at hsee
  unfold parseBox at hsee
  rw [hbox, if_neg hconfig.symm] at hsee
  dsimp only at hsee
  split at hsee
  · rename_i hother
    cases hsee
    exact ⟨rfl, rfl, fun hplay => absurd hplay hother⟩
  · split at hsee
    · cases hsee
      exact ⟨rfl, rfl, fun _ => rfl⟩
    · cases hsee

end Run

/-- A box of these bytes, with one more behind it in the buffer. -/
def SeenBox.ofBytes (xs : List UInt8) : SeenBox := ⟨Octets.ofList xs, xs.length + 1, xs.length + 1⟩

/-- stsc with one run, of so many samples in each chunk. -/
def oneRun (samples : ℕ) : SeenBox :=
  .ofBytes ([0, 0, 0, 28] ++ ascii ['s', 't', 's', 'c'] ++ [0, 0, 0, 0] ++ [0, 0, 0, 1] ++
    [0, 0, 0, 1] ++ Octets.putBe 4 samples ++ [0, 0, 0, 1])

/-- stco with three chunks. -/
def threeChunks : SeenBox :=
  .ofBytes ([0, 0, 0, 28] ++ ascii ['s', 't', 'c', 'o'] ++ [0, 0, 0, 0] ++ [0, 0, 0, 3] ++
    [0, 0, 1, 0] ++ [0, 0, 2, 0] ++ [0, 0, 3, 0])

/-- In the first track, which is playable. -/
def inTrack : Mp4 Helix := { Mp4.zero ⟨2, 44100, 2, 44100⟩ with trak := 1, play := 1 }

/-- stsc and then stco. -/
theorem rounds_in_order (samples : ℕ) :
    Rounds (helixCodec fun _ => true) [oneRun samples, threeChunks] inTrack
      { inTrack with
        chunkinfo := some (chunkTable threeChunks.mem (some (stash (oneRun samples).mem))) } := by
  have hstsc : seeBox (helixCodec fun _ => true) (oneRun samples) inTrack =
      some { inTrack with stsc := some (stash (oneRun samples).mem) } := rfl
  exact .round hstsc rfl (.round rfl rfl (.none rfl))

instance (m : ℕ → UInt8) (entries : ℕ) : Decidable (StscWellFormed m entries) :=
  decidable_of_iff
    (16 + 12 * unpackN m 12 ≤ unpackN m 0 ∧ ((stscRuns m).head?).map Prod.fst = some 1 ∧
      Ordered (stscRuns m) ∧ (∀ r ∈ stscRuns m, r.1 ≤ entries) ∧ ∀ r ∈ stscRuns m, 1 ≤ r.2)
    ⟨fun ⟨hwhole, hfirst, hordered, hmost, hsamples⟩ => ⟨hwhole, hfirst, hordered, hmost, hsamples⟩,
      fun h => ⟨h.whole, h.first, h.ordered, h.most, h.samples⟩⟩

/-- The table with the totals as they are. -/
def TotalsOf (stsc stco : ℕ → UInt8) (table : List ChunkTable) : Prop :=
  ∀ k < stcoEntries stco, table[k]? = some ⟨sumTo (stscRuns stsc) 1 k, stcoOffset stco k⟩

instance (stsc stco : ℕ → UInt8) (table : List ChunkTable) : Decidable (TotalsOf stsc stco table) :=
  inferInstanceAs (Decidable (∀ k < stcoEntries stco, _))

end SqueezeliteMuse
