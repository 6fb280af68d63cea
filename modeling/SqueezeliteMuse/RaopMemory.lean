/-
SqueezeliteMuse/RaopMemory.lean

The memory that AirPlay borrows from `outputbuf`.

RAOP_SETUP cuts `outputbuf` down to `RAOP_OUTPUT_SIZE` and hands the tail of its
block to the RTP session, which carves its slots out of it.  LMS takes the
buffer back with `_buf_limit(outputbuf, 0)` when a stream starts, and so does
Bluetooth; the end of the RTP thread is another matter, which comes when the
control connection is cleaned up.

A *section* is what one thread does under the output mutex, or `rtp_init` and
`rtp_end`.  Whether the command handler accepts a set-up is a parameter, and so
is where the pointers of the buffer go in between.

Main result: `slots_disjoint`: if the buffer is taken back only while nothing is
lent, and is no smaller than what AirPlay leaves of it, then the slots of every
session lie in the block of `outputbuf` and outside its live region.
-/
import SqueezeliteMuse.Buffer
import SqueezeliteMuse.Output
import SqueezeliteMuse.Rtp

namespace SqueezeliteMuse

namespace Lend

/-! ### The code -/

/-- `RAOP_OUTPUT_SIZE` -/
def RAOP_OUTPUT_SIZE : ℕ :=
  (RAOP_SAMPLE_RATE * BYTES_PER_FRAME * 2 * 120 / 100) &&& (2 ^ 32 - 1 - BYTES_PER_FRAME)

/-- A `size_t`. -/
def sizeT (z : ℤ) : ℕ := (z % 2 ^ 32).toNat

/-- The slots of a session: their size, and the address of each that was not allocated. -/
structure Slots where
  size : ℕ
  data : List (Option ℕ)

/-- `buffer_alloc`, for so many slots. -/
def bufferAlloc (size : ℕ) : ℕ → Option ℕ → ℕ → List (Option ℕ)
  | 0, _, _ => []
  | n + 1, some buf, bufSize =>
      if size ≤ bufSize then
        some buf :: bufferAlloc size n (some (buf + size)) (bufSize - size)
      else none :: bufferAlloc size n (some buf) bufSize
  | n + 1, none, bufSize => none :: bufferAlloc size n none bufSize

/-- `outputbuf`, what the last RAOP_SETUP gave to the control connection (an
address and a size, until `rtp_init` has them), and the sessions whose thread runs. -/
structure Shared where
  outputbuf : Buffer
  offer : Option (ℕ × ℕ)
  sessions : List Slots

/-- The sections. -/
inductive Section
  | raopSetup (accepted : Bool)
  | rtpInit (frameSize : ℤ)
  | rtpEnd (i : ℕ)
  /-- strm 's' -/
  | strm
  /-- BT_SINK_AUDIO_STARTED -/
  | btStarted
  /-- `_checkfade` at the start of a track with a crossfade, with what `malloc` returns -/
  | checkfade (first second : Option Block)
  /-- anything read from the buffer, written to it, or flushed -/
  | move (readp writep : ℕ)

/-- One section. -/
def Shared.step (s : Shared) : Section → Shared
  | .raopSetup accepted =>
      if accepted then
        let b := bufLimit s.outputbuf RAOP_OUTPUT_SIZE
        -- steal buffer tail from outputbuf but do not reallocate
        { s with
          outputbuf := b
          offer := some (b.writep + RAOP_OUTPUT_SIZE, sizeT (b.baseSize - b.size)) }
      else { s with offer := none }
  | .rtpInit frameSize =>
      let size := sizeT (frameSize * 4)
      { s with
        offer := none
        sessions := s.sessions ++
          [⟨size, bufferAlloc size BUFFER_FRAMES (s.offer.map Prod.fst)
            ((s.offer.map Prod.snd).getD 0)⟩] }
  | .rtpEnd i => { s with sessions := s.sessions.eraseIdx i }
  | .strm => { s with outputbuf := bufLimit s.outputbuf 0 }
  | .btStarted => { s with outputbuf := bufLimit (bufFlushLocked s.outputbuf) 0 }
  | .checkfade first second =>
      if bufUsed s.outputbuf = 0 ∧ s.outputbuf.size = OUTPUTBUF_SIZE ∧
          s.outputbuf.readp = s.outputbuf.buf then
        { s with outputbuf := bufResize s.outputbuf OUTPUTBUF_SIZE_CROSSFADE first second }
      else s
  | .move readp writep => { s with outputbuf := { s.outputbuf with readp := readp, writep := writep } }

/-- The parties that share `outputbuf`. -/
def parties : Runs.Machine Shared Section Unit := ⟨fun s e => (s.step e, [])⟩

/-- `output_init_common`: the buffer, of a whole number of frames. -/
def start (blk : Block) (outputBufSize : UInt32) : Shared :=
  ⟨bufInit blk (outputBufSize.toNat - outputBufSize.toNat % BYTES_PER_FRAME), none, []⟩

/-! ### What is lent -/

/-- So many bytes from `p` on are in the block, behind the live region. -/
def Behind (b : Buffer) (p n : ℕ) : Prop := b.wrap ≤ p ∧ p + n ≤ b.buf + b.trueSize

/-- The slots of all sessions are in the block of `outputbuf` and outside `[buf, wrap)`. -/
def Apart (s : Shared) : Prop :=
  ∀ slots ∈ s.sessions, ∀ p, some p ∈ slots.data →
    (s.outputbuf.buf ≤ p ∧ p + slots.size ≤ s.outputbuf.buf + s.outputbuf.trueSize) ∧
      ∀ x, p ≤ x → x < p + slots.size → ¬ (s.outputbuf.buf ≤ x ∧ x < s.outputbuf.wrap)

/-- Nothing is lent: no slot of a session, and nothing that is about to become one. -/
def Unlent (s : Shared) : Prop :=
  s.offer = none ∧ ∀ slots ∈ s.sessions, ∀ p, some p ∉ slots.data

/-- The buffer is cut down only where it is large enough, and taken back only
where it is whole or nothing is lent. -/
def Orderly (s : Shared) : Section → Prop
  | .raopSetup accepted => accepted = true → RAOP_OUTPUT_SIZE ≤ s.outputbuf.baseSize
  | .strm | .btStarted => s.outputbuf.size = s.outputbuf.baseSize ∨ Unlent s
  | .rtpInit _ | .rtpEnd _ | .checkfade .. | .move .. => True

/-- The invariant: the block contains the buffer, what is lent is behind the live region,
and something is lent only while the buffer is cut down. -/
structure Lends (s : Shared) : Prop where
  wrap_eq : s.outputbuf.wrap = s.outputbuf.buf + s.outputbuf.size
  size_le : s.outputbuf.size ≤ s.outputbuf.baseSize
  base_le : s.outputbuf.baseSize ≤ s.outputbuf.trueSize
  small : s.outputbuf.trueSize < 2 ^ 32
  offer : ∀ p n, s.offer = some (p, n) → Behind s.outputbuf p n
  slots : ∀ slots ∈ s.sessions, ∀ p, some p ∈ slots.data → Behind s.outputbuf p slots.size
  cut : s.outputbuf.size = RAOP_OUTPUT_SIZE ∨ Unlent s

/-! ### Each section -/

variable {s : Shared}

theorem sizeT_natCast {n : ℕ} (h : n < 2 ^ 32) : sizeT n = n := by
  rw [sizeT]
  omega

/-- The slots that are carved out of a tail lie in it. -/
theorem mem_bufferAlloc {size n buf bufSize p : ℕ}
    (h : some p ∈ bufferAlloc size n (some buf) bufSize) : buf ≤ p ∧ p + size ≤ buf + bufSize := by
  induction n generalizing buf bufSize with
  | zero => cases h
  | succ n ih =>
      rw [bufferAlloc] at h
      split at h
      · rcases List.mem_cons.mp h with heq | h
        · cases heq
          omega
        · obtain ⟨hlo, hhi⟩ := ih h
          omega
      · rcases List.mem_cons.mp h with heq | h
        · cases heq
        · exact ih h

/-- Without a tail, all slots are allocated. -/
theorem not_mem_bufferAlloc {size n bufSize p : ℕ} :
    some p ∉ bufferAlloc size n none bufSize := by
  induction n with
  | zero => exact List.not_mem_nil
  | succ n ih =>
      rw [bufferAlloc]
      rintro (_ | ⟨_, h⟩)
      exact ih h

/-- Where nothing is lent, the buffer may become any other. -/
theorem Unlent.lends (hs : Unlent s) {b : Buffer} (hwrap : b.wrap = b.buf + b.size)
    (hsize : b.size ≤ b.baseSize) (hbase : b.baseSize ≤ b.trueSize) (hsmall : b.trueSize < 2 ^ 32) :
    Lends { s with outputbuf := b } := by
  refine ⟨hwrap, hsize, hbase, hsmall, fun p n h => ?_, fun slots h p hp => ?_, .inr hs⟩
  · exact absurd (hs.1.symm.trans h) (by simp)
  · exact absurd hp (hs.2 slots h p)

/-- Taking the buffer back. -/
theorem lends_limit (h : Lends s) {b : Buffer} (hbuf : b.buf = s.outputbuf.buf)
    (hb : b.baseSize = s.outputbuf.baseSize) (ht : b.trueSize = s.outputbuf.trueSize)
    (ho : s.outputbuf.size = s.outputbuf.baseSize ∨ Unlent s) :
    Lends { s with outputbuf := bufLimit b 0 } := by
  obtain ⟨hwrap, hsize, hbase, hsmall, hoffer, hslots, hcut⟩ := h
  have hlimit : bufLimit b 0 = { b with size := b.baseSize, wrap := b.buf + b.baseSize } := rfl
  rcases ho with hwhole | hun
  · -- the buffer is whole: nothing changes
    have hsame : ∀ p n, Behind s.outputbuf p n → Behind (bufLimit b 0) p n := by
      rintro p n ⟨hlo, hhi⟩
      rw [hlimit]
      exact ⟨by simp only; omega, by simp only; omega⟩
    refine ⟨rfl, Nat.le_refl _, ?_, ?_, fun p n hp => hsame p n (hoffer p n hp),
      fun slots hm p hp => hsame p _ (hslots slots hm p hp), hcut.imp_left fun heq => ?_⟩
    · show b.baseSize ≤ b.trueSize
      omega
    · show b.trueSize < 2 ^ 32
      omega
    · show b.baseSize = RAOP_OUTPUT_SIZE
      omega
  · refine hun.lends rfl (Nat.le_refl _) ?_ ?_
    · show b.baseSize ≤ b.trueSize
      omega
    · show b.trueSize < 2 ^ 32
      omega

/-- An orderly section keeps what is lent apart. -/
theorem lends_step (e : Section) (h : Lends s) (ho : Orderly s e) : Lends (s.step e) := by
  have ⟨hwrap, hsize, hbase, hsmall, hoffer, hslots, hcut⟩ := h
  cases e with
  | raopSetup accepted =>
      cases accepted with
      | false =>
          exact ⟨hwrap, hsize, hbase, hsmall, fun p n hp => absurd hp (by simp [Shared.step]),
            hslots, hcut.imp_right fun hun => ⟨rfl, hun.2⟩⟩
      | true =>
          have hroom := ho rfl
          have htail : sizeT ((s.outputbuf.baseSize : ℤ) - RAOP_OUTPUT_SIZE) =
              s.outputbuf.baseSize - RAOP_OUTPUT_SIZE := by
            rw [← Int.ofNat_sub hroom]
            exact sizeT_natCast (by omega)
          refine ⟨rfl, hroom, hbase, hsmall, fun p n hp => ?_, fun slots hm p hp => ?_, .inl rfl⟩
          · -- the tail that is offered
            have heq : (s.outputbuf.buf + RAOP_OUTPUT_SIZE,
                sizeT ((s.outputbuf.baseSize : ℤ) - RAOP_OUTPUT_SIZE)) = (p, n) :=
              Option.some.inj hp
            rw [htail] at heq
            cases heq
            refine ⟨Nat.le_refl _, ?_⟩
            show s.outputbuf.buf + RAOP_OUTPUT_SIZE + (s.outputbuf.baseSize - RAOP_OUTPUT_SIZE) ≤
              s.outputbuf.buf + s.outputbuf.trueSize
            omega
          · -- the slots of a session before this one
            have hcut : s.outputbuf.size = RAOP_OUTPUT_SIZE :=
              hcut.resolve_right fun hun => hun.2 slots hm p hp
            obtain ⟨hlo, hhi⟩ := hslots slots hm p hp
            refine ⟨?_, hhi⟩
            show s.outputbuf.buf + RAOP_OUTPUT_SIZE ≤ p
            omega
  | rtpInit frameSize =>
      rcases hof : s.offer with - | ⟨buf, n⟩
      · -- nothing is offered: all slots are allocated
        refine ⟨hwrap, hsize, hbase, hsmall, fun p n hp => absurd hp (by simp [Shared.step]),
          fun slots hm p hp => ?_, hcut.imp_right fun hun => ⟨rfl, fun slots hm p hp => ?_⟩⟩
        · rcases List.mem_append.mp hm with hm | hm
          · exact hslots slots hm p hp
          · obtain rfl := List.mem_singleton.mp hm
            simp only [hof, Option.map_none] at hp
            exact absurd hp not_mem_bufferAlloc
        · rcases List.mem_append.mp hm with hm | hm
          · exact hun.2 slots hm p hp
          · obtain rfl := List.mem_singleton.mp hm
            simp only [hof, Option.map_none] at hp
            exact absurd hp not_mem_bufferAlloc
      · have hcut : s.outputbuf.size = RAOP_OUTPUT_SIZE :=
          hcut.resolve_right fun hun => absurd (hof.symm.trans hun.1) (by simp)
        refine ⟨hwrap, hsize, hbase, hsmall, fun p n hp => absurd hp (by simp [Shared.step]),
          fun slots hm p hp => ?_, .inl hcut⟩
        rcases List.mem_append.mp hm with hm | hm
        · exact hslots slots hm p hp
        · obtain rfl := List.mem_singleton.mp hm
          simp only [hof, Option.map_some, Option.getD_some] at hp
          obtain ⟨hlo, hhi⟩ := mem_bufferAlloc hp
          obtain ⟨hblo, hbhi⟩ := hoffer buf n hof
          exact ⟨Nat.le_trans hblo hlo, Nat.le_trans hhi hbhi⟩
  | rtpEnd i =>
      refine ⟨hwrap, hsize, hbase, hsmall, hoffer, fun slots hm => ?_, hcut.imp_right ?_⟩
      · exact hslots slots (List.mem_of_mem_eraseIdx hm)
      · exact fun hun => ⟨hun.1, fun slots hm => hun.2 slots (List.mem_of_mem_eraseIdx hm)⟩
  | strm => exact lends_limit h rfl rfl rfl ho
  | btStarted => exact lends_limit h rfl rfl rfl ho
  | checkfade first second =>
      rw [Shared.step]
      split
      swap
      · exact h
      rename_i hguard
      -- the buffer has its first size: it is not cut down
      have hun : Unlent s := hcut.resolve_left fun heq => absurd (heq.symm.trans hguard.2.1) (by decide)
      have hsz := hguard.2.1
      unfold bufResize
      split
      · exact h
      split
      · refine hun.lends rfl (Nat.le_refl _) (Nat.le_refl _) ?_
        show OUTPUTBUF_SIZE_CROSSFADE < 2 ^ 32
        decide
      · refine hun.lends rfl (Nat.le_refl _) (Nat.le_refl _) ?_
        show s.outputbuf.size < 2 ^ 32
        rw [hsz]
        decide
      · exact hun.lends rfl (Nat.le_refl _) (Nat.le_refl _) (by show 0 < 2 ^ 32; decide)
  | move readp writep => exact ⟨hwrap, hsize, hbase, hsmall, hoffer, hslots, hcut⟩

theorem Lends.apart (h : Lends s) : Apart s := by
  intro slots hm p hp
  obtain ⟨hlo, hhi⟩ := h.slots slots hm p hp
  have hwrap := h.wrap_eq
  refine ⟨⟨by omega, hhi⟩, fun x hx _ hin => ?_⟩
  omega

/-- For every size of the output buffer and every order of orderly sections: the
memory of the RTP slots is in the block of `outputbuf` and disjoint from its live region. -/
theorem slots_disjoint {blk : Block} {outputBufSize : UInt32} {sections : List Section}
    (h : parties.Along Orderly (start blk outputBufSize) sections) :
    Apart (parties.run (start blk outputBufSize) sections).1 := by
  have hlt := outputBufSize.toNat_lt
  have hstart : Lends (start blk outputBufSize) := by
    refine ⟨rfl, Nat.le_refl _, Nat.le_refl _, ?_, fun p n hp => (nomatch hp),
      fun slots hm => (nomatch hm), .inr ⟨rfl, fun slots hm => (nomatch hm)⟩⟩
    show outputBufSize.toNat - outputBufSize.toNat % BYTES_PER_FRAME < 2 ^ 32
    omega
  exact (parties.run_invariant (fun s e => lends_step e) hstart h).apart

/-- LMS starts a stream while the RTP thread runs: the slots are in the live region. -/
theorem not_slots_disjoint :
    ¬ ∀ (blk : Block) (outputBufSize : UInt32) (sections : List Section),
      Apart (parties.run (start blk outputBufSize) sections).1 := by
  intro h
  obtain ⟨-, hout⟩ := h ⟨0, fun _ => 0⟩ 1484800 [.raopSetup true, .rtpInit 352, .strm]
    _ List.mem_cons_self 423360 (by decide)
  exact hout 423360 (by decide) (by decide) (by decide)

/-- A session is set up, played, ended, and followed by LMS. -/
theorem slots_disjoint_run :
    Apart (parties.run (start ⟨0x3f800000, fun _ => 0⟩ 1484800)
      [.raopSetup true, .rtpInit 352, .move 0x3f800000 0x3f801000, .raopSetup false, .rtpEnd 0,
        .strm]).1 := by
  refine slots_disjoint ⟨fun _ => by decide, trivial, trivial, ?_, trivial, .inr ⟨rfl, ?_⟩,
    trivial⟩
  · exact fun hno => absurd hno (by decide)
  · exact fun slots hm => absurd hm (List.not_mem_nil)

end Lend

end SqueezeliteMuse
