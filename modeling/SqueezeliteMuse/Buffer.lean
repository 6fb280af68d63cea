/-
SqueezeliteMuse/Buffer.lean

The byte fifo of buffer.c, and what it stands for.

`struct buffer` holds four addresses (the block `buf`, the two moving pointers
`readp` and `writep`, the end `wrap`) and three sizes (the one in use, the one
`buf_adjust` left, the one allocated).  The functions below are those of
buffer.c; `size_t` and `unsigned` are natural numbers, which only differs from
the source where a buffer has no memory at all (`size - used - 1` at size 0).
`malloc` is an argument: `none` when it returns NULL.

A buffer whose pointers are in range (`Wf`) stands for a bounded queue of bytes,
`Buffer.content`.  `RunRefines` follows a run of operations and the queue next
to it; `RunKeeps` is the condition on the operations under which the two agree
for ever.

Main result: `runRefines_iff_runKeeps`.  The two operations that can break the
link are `_buf_limit(0)`, which restores the size and leaves both pointers where
they are, and `_buf_resize` when no memory is left.
-/
import SqueezeliteMuse.Lib.Ring
import Mathlib.Data.Int.Notation

namespace SqueezeliteMuse

open Ring

/-! ### The code -/

/-- What `malloc` returns: an address and the bytes found there. -/
structure Block where
  addr : ℕ
  mem : ℕ → UInt8

/-- `struct buffer`.  `mem` is the block at `buf`, by offset. -/
structure Buffer where
  buf : ℕ
  readp : ℕ
  writep : ℕ
  wrap : ℕ
  size : ℕ
  baseSize : ℕ
  trueSize : ℕ
  mem : ℕ → UInt8

/-- `_buf_used` -/
def bufUsed (b : Buffer) : ℕ :=
  if b.writep ≥ b.readp then b.writep - b.readp else b.size - (b.readp - b.writep)

/-- `_buf_space`: one less than what is free, as full is the same as empty otherwise. -/
def bufSpace (b : Buffer) : ℕ := b.size - bufUsed b - 1

/-- `_buf_cont_read` -/
def bufContRead (b : Buffer) : ℕ :=
  if b.writep ≥ b.readp then b.writep - b.readp else b.wrap - b.readp

/-- `_buf_cont_write` -/
def bufContWrite (b : Buffer) : ℕ :=
  if b.writep ≥ b.readp then b.wrap - b.writep else b.readp - b.writep

/-- `_buf_inc_readp` -/
def bufIncReadp (b : Buffer) (n : ℕ) : Buffer :=
  { b with readp := if b.readp + n ≥ b.wrap then b.readp + n - b.size else b.readp + n }

/-- `_buf_inc_writep` -/
def bufIncWritep (b : Buffer) (n : ℕ) : Buffer :=
  { b with writep := if b.writep + n ≥ b.wrap then b.writep + n - b.size else b.writep + n }

/-- `buf_flush` -/
def bufFlush (b : Buffer) : Buffer := { b with readp := b.buf, writep := b.buf }

/-- `_buf_flush`: the same, called with the mutex locked. -/
def bufFlushLocked (b : Buffer) : Buffer := { b with readp := b.buf, writep := b.buf }

/-- `buf_adjust` -/
def bufAdjust (b : Buffer) (mod : ℕ) : Buffer :=
  { b with
    baseSize := b.size / mod * mod
    readp := b.buf
    writep := b.buf
    wrap := b.buf + b.size / mod * mod
    size := b.size / mod * mod }

/-- The end of `_buf_resize`: the block and the size settled on. -/
def bufReset (b : Buffer) (blk : Block) (size : ℕ) : Buffer :=
  { b with
    buf := blk.addr
    writep := blk.addr
    readp := blk.addr
    wrap := blk.addr + size
    trueSize := size
    baseSize := size
    size := size
    mem := blk.mem }

/-- `_buf_resize`, with what its two calls of `malloc` return. -/
def bufResize (b : Buffer) (size : ℕ) (first second : Option Block) : Buffer :=
  if size = b.size then b
  else
    match first, second with
    | some blk, _ => bufReset b blk size
    | none, some blk => bufReset b blk b.size
    | none, none => bufReset b ⟨0, b.mem⟩ 0

/-- `_buf_limit`, the buffer it leaves. -/
def bufLimit (b : Buffer) (limit : ℕ) : Buffer :=
  if limit ≠ 0 then
    { b with size := limit, readp := b.buf, writep := b.buf, wrap := b.buf + limit }
  else
    { b with size := b.baseSize, wrap := b.buf + b.baseSize }

/-- `_buf_limit`, the number of bytes it returns. -/
def bufLimitTail (b : Buffer) (limit : ℕ) : ℕ :=
  (bufLimit b limit).baseSize - (bufLimit b limit).size

/-- `memmove`, and `memcpy`, of bytes of a block. -/
def memMove (mem : ℕ → UInt8) (dst src n : ℕ) : ℕ → UInt8 := fun i =>
  if dst ≤ i ∧ i < dst + n then mem (src + (i - dst)) else mem i

/-- `_buf_unwrap`, with what `malloc` gives for so many bytes: `cont` bytes from `readp` are to be
in one piece.  `size` is a `size_t`, so that it is never below 0. -/
def bufUnwrap (malloc : ℕ → Bool) : ℕ → Buffer → ℕ → Buffer
  | 0, b, _ => b
  | fuel + 1, b, cont =>
      let shift := cont - (b.wrap - b.readp)
      -- do nothing if we have enough space
      if shift = 0 ∨ cont ≥ b.size then b
      -- buffer already unwrapped, just move it up
      else if b.writep ≥ b.readp then
        { b with
          mem := memMove b.mem (b.readp - shift - b.buf) (b.readp - b.buf) (b.writep - b.readp)
          readp := b.readp - shift
          writep := b.writep - shift }
      else
        let size := (((shift : ℤ) - (b.readp - b.writep : ℕ)) % 2 ^ 32).toNat
        let len := b.writep - b.buf
        let moved := memMove b.mem (b.readp - shift - b.buf) (b.readp - b.buf) (b.wrap - b.readp)
        -- buffer is wrapped and enough free space to move data up directly
        if size = 0 then
          let filled := memMove moved (b.size - shift) 0 (min len shift)
          { b with
            readp := b.readp - shift
            mem := if len > shift then memMove filled 0 shift (len - shift) else filled
            writep := if len > shift then b.writep - shift else b.writep + b.size - shift }
        -- buffer is wrapped but not enough free room => use scratch zone
        else if malloc size then
          let scratch := fun i => b.mem (len - size + i)
          -- a length below 0 is a `size_t` all the same
          let rest := (((len : ℤ) - shift - size) % 2 ^ 32).toNat
          let filled := memMove (memMove moved (b.size - shift) 0 shift) 0 shift rest
          { b with
            readp := b.readp - shift
            writep := b.writep - shift
            mem := fun i =>
              if len - shift - size ≤ i ∧ i < len - shift then scratch (i - (len - shift - size))
              else filled i }
        else
          bufUnwrap malloc fuel (bufUnwrap malloc fuel b (cont / 2)) (cont - cont / 2)

/-- `buf_init`, when its `malloc` returns a block. -/
def bufInit (blk : Block) (size : ℕ) : Buffer where
  buf := blk.addr
  readp := blk.addr
  writep := blk.addr
  wrap := blk.addr + size
  trueSize := size
  baseSize := size
  size := size
  mem := blk.mem

/-- A caller storing bytes at `writep`. -/
def bufStore (b : Buffer) (bs : List UInt8) : Buffer :=
  { b with mem := write b.mem (b.writep - b.buf) bs }

/-! ### What a buffer stands for -/

/-- The bytes read from `readp`, wrapping at `wrap`. -/
def Buffer.content (b : Buffer) : List UInt8 :=
  slice b.mem b.size (b.readp - b.buf) (bufUsed b)

/-- The pointers are inside the part in use, and that part inside the block. -/
structure Buffer.Wf (b : Buffer) : Prop where
  readp_ge : b.buf ≤ b.readp
  readp_lt : b.readp < b.wrap
  writep_ge : b.buf ≤ b.writep
  writep_lt : b.writep < b.wrap
  wrap_eq : b.wrap = b.buf + b.size
  size_le : b.size ≤ b.baseSize
  base_le : b.baseSize ≤ b.trueSize

namespace Buffer.Wf

variable {b : Buffer}

theorem size_pos (h : b.Wf) : 0 < b.size := by
  obtain ⟨_, _, _, _, _, _, _⟩ := h
  omega

theorem used_eq_gap (h : b.Wf) :
    bufUsed b = gap b.size (b.readp - b.buf) (b.writep - b.buf) := by
  obtain ⟨_, _, _, _, _, _, _⟩ := h
  have hgap := gap_cases b.size (b.readp - b.buf) (b.writep - b.buf)
  unfold bufUsed
  split <;> omega

theorem readOff_lt (h : b.Wf) : b.readp - b.buf < b.size := by
  obtain ⟨_, _, _, _, _, _, _⟩ := h
  omega

theorem writeOff_lt (h : b.Wf) : b.writep - b.buf < b.size := by
  obtain ⟨_, _, _, _, _, _, _⟩ := h
  omega

theorem used_lt (h : b.Wf) : bufUsed b < b.size := by
  rw [h.used_eq_gap]
  exact gap_lt h.readOff_lt h.writeOff_lt

theorem used_add_space (h : b.Wf) : bufUsed b + bufSpace b + 1 = b.size := by
  have := h.used_lt
  unfold bufSpace
  omega

theorem contRead_le (h : b.Wf) : b.readp - b.buf + bufContRead b ≤ b.size := by
  obtain ⟨_, _, _, _, _, _, _⟩ := h
  unfold bufContRead
  split <;> omega

theorem contRead_le_used (h : b.Wf) : bufContRead b ≤ bufUsed b := by
  obtain ⟨_, _, _, _, _, _, _⟩ := h
  unfold bufContRead bufUsed
  split <;> omega

theorem contRead_pos (h : b.Wf) (hu : 0 < bufUsed b) : 0 < bufContRead b := by
  obtain ⟨_, _, _, _, _, _, _⟩ := h
  unfold bufUsed at hu
  unfold bufContRead
  split at hu <;> split <;> omega

theorem contWrite_le (h : b.Wf) : b.writep - b.buf + bufContWrite b ≤ b.size := by
  obtain ⟨_, _, _, _, _, _, _⟩ := h
  unfold bufContWrite
  split <;> omega

theorem contWrite_pos (h : b.Wf) : 0 < bufContWrite b := by
  obtain ⟨_, _, _, _, _, _, _⟩ := h
  unfold bufContWrite
  split <;> omega

@[simp] theorem length_content (b : Buffer) : b.content.length = bufUsed b := by
  simp [Buffer.content]

/-- The queue a well-formed buffer stands for. -/
def fifo (h : b.Wf) : BoundedFifo UInt8 :=
  ⟨b.size, b.content, by rw [length_content]; exact h.used_lt⟩

/-- The bytes before the wrap are where `readp` points. -/
theorem content_getElem? (h : b.Wf) {i : ℕ} (hi : i < min (bufUsed b) (bufContRead b)) :
    b.content[i]? = some (b.mem (b.readp - b.buf + i)) := by
  have hle := h.contRead_le
  have hlt : b.readp - b.buf + i < b.size := by omega
  simp only [Buffer.content, slice, List.getElem?_map]
  rw [List.getElem?_range (by omega), Option.map_some, Nat.mod_eq_of_lt hlt]

end Buffer.Wf

/-! ### One lemma per operation -/

section Operations

variable {b : Buffer}

theorem wf_bufInit (blk : Block) {size : ℕ} (h : 0 < size) : (bufInit blk size).Wf := by
  constructor <;> simp [bufInit, h]

theorem content_bufInit (blk : Block) (size : ℕ) : (bufInit blk size).content = [] := by
  simp [Buffer.content, bufUsed, bufInit]

theorem wf_bufFlush (h : b.Wf) : (bufFlush b).Wf := by
  obtain ⟨_, _, _, _, _, _, _⟩ := h
  constructor <;> simp only [bufFlush] <;> omega

theorem content_bufFlush (b : Buffer) : (bufFlush b).content = [] := by
  simp [Buffer.content, bufUsed, bufFlush]

theorem wf_bufAdjust (h : b.Wf) {mod : ℕ} (h0 : 0 < mod) (hle : mod ≤ b.size) :
    (bufAdjust b mod).Wf := by
  have hpos : 0 < b.size / mod * mod :=
    Nat.mul_pos (Nat.div_pos hle h0) h0
  have hdiv : b.size / mod * mod ≤ b.size := Nat.div_mul_le_self ..
  obtain ⟨_, _, _, _, _, _, _⟩ := h
  constructor <;> simp only [bufAdjust] <;> omega

theorem content_bufAdjust (b : Buffer) (mod : ℕ) : (bufAdjust b mod).content = [] := by
  simp [Buffer.content, bufUsed, bufAdjust]

theorem wf_bufReset (b : Buffer) (blk : Block) {size : ℕ} (h : 0 < size) :
    (bufReset b blk size).Wf := by
  constructor <;> simp [bufReset, h]

theorem content_bufReset (b : Buffer) (blk : Block) (size : ℕ) :
    (bufReset b blk size).content = [] := by
  simp [Buffer.content, bufUsed, bufReset]

theorem wf_bufLimit_pos (h : b.Wf) {limit : ℕ} (h0 : limit ≠ 0) (hle : limit ≤ b.baseSize) :
    (bufLimit b limit).Wf := by
  obtain ⟨_, _, _, _, _, _, _⟩ := h
  constructor <;> simp only [bufLimit, if_pos h0] <;> omega

theorem content_bufLimit_pos (b : Buffer) {limit : ℕ} (h0 : limit ≠ 0) :
    (bufLimit b limit).content = [] := by
  simp [Buffer.content, bufUsed, bufLimit, h0]

theorem wf_bufLimit_zero (h : b.Wf) : (bufLimit b 0).Wf := by
  obtain ⟨_, _, _, _, _, _, _⟩ := h
  constructor <;> simp only [bufLimit, ne_eq, not_true, if_false] <;> omega

/-- Lifting a limit changes nothing when no byte lies behind `readp`. -/
theorem content_bufLimit_zero (h : b.Wf) (hk : b.readp ≤ b.writep ∨ b.size = b.baseSize) :
    (bufLimit b 0).content = b.content := by
  rcases hk with hk | hk
  · have hu : bufUsed (bufLimit b 0) = bufUsed b := by
      simp [bufUsed, bufLimit, hk]
    have hle : b.readp - b.buf + bufUsed b ≤ b.size := by
      have hr := h.readOff_lt
      have hw := h.writeOff_lt
      have hb := h.readp_ge
      simp only [bufUsed, ge_iff_le, hk, if_true]
      omega
    simp only [Buffer.content, hu]
    rw [slice_of_le _ hle]
    exact slice_of_le _ (Nat.le_trans hle h.size_le)
  · simp [Buffer.content, bufUsed, bufLimit, ← hk]

/-- With bytes behind `readp`, lifting a limit lets the bytes between the two
sizes slip into the queue. -/
theorem used_bufLimit_zero (h : b.Wf) (hw : b.writep < b.readp) :
    bufUsed (bufLimit b 0) = bufUsed b + (b.baseSize - b.size) := by
  obtain ⟨_, _, _, _, _, _, _⟩ := h
  have hn : ¬ b.writep ≥ b.readp := Nat.not_le.mpr hw
  simp only [bufUsed, bufLimit, hn, ne_eq, not_true, if_false]
  omega

/-- Where a pointer moved on by `n` ends up, as an address and as an offset. -/
theorem ptr_advance {buf wrap size p n : ℕ} (hw : wrap = buf + size) (hge : buf ≤ p)
    (hlt : p < wrap) (hn : n ≤ size) :
    buf ≤ (if p + n ≥ wrap then p + n - size else p + n) ∧
      (if p + n ≥ wrap then p + n - size else p + n) < wrap ∧
      ((if p + n ≥ wrap then p + n - size else p + n) - buf = p - buf + n ∨
        (if p + n ≥ wrap then p + n - size else p + n) - buf + size = p - buf + n) := by
  split <;> omega

theorem wf_bufAppend (h : b.Wf) {bs : List UInt8}
    (hle : bs.length ≤ min (bufSpace b) (bufContWrite b)) :
    (bufIncWritep (bufStore b bs) bs.length).Wf := by
  have hn : bs.length ≤ b.size := by
    have := h.used_add_space
    omega
  obtain ⟨hge, hlt, -⟩ := ptr_advance h.wrap_eq h.writep_ge h.writep_lt hn
  exact ⟨h.readp_ge, h.readp_lt, hge, hlt, h.wrap_eq, h.size_le, h.base_le⟩

theorem used_bufAppend (h : b.Wf) {bs : List UInt8}
    (hle : bs.length ≤ min (bufSpace b) (bufContWrite b)) :
    bufUsed (bufIncWritep (bufStore b bs) bs.length) = bufUsed b + bs.length := by
  have hsp := h.used_add_space
  have hroom : gap b.size (b.readp - b.buf) (b.writep - b.buf) + bs.length < b.size := by
    rw [← h.used_eq_gap]
    omega
  rw [(wf_bufAppend h hle).used_eq_gap, h.used_eq_gap]
  exact gap_extend h.readOff_lt h.writeOff_lt hroom (wf_bufAppend h hle).writeOff_lt
    (ptr_advance h.wrap_eq h.writep_ge h.writep_lt (by omega)).2.2

theorem content_bufAppend (h : b.Wf) {bs : List UInt8}
    (hle : bs.length ≤ min (bufSpace b) (bufContWrite b)) :
    (bufIncWritep (bufStore b bs) bs.length).content = b.content ++ bs := by
  have hsp := h.used_add_space
  have hcw := h.contWrite_le
  have hgap := h.used_eq_gap
  have hend : b.writep - b.buf + bs.length ≤ b.size := by omega
  have hroom : gap b.size (b.readp - b.buf) (b.writep - b.buf) + bs.length < b.size := by omega
  simp only [Buffer.content, used_bufAppend h hle, hgap]
  exact slice_write_append b.mem h.readOff_lt h.writeOff_lt hend hroom

theorem wf_bufIncReadp (h : b.Wf) {n : ℕ} (hle : n ≤ b.size) : (bufIncReadp b n).Wf := by
  obtain ⟨hge, hlt, -⟩ := ptr_advance h.wrap_eq h.readp_ge h.readp_lt hle
  exact ⟨hge, hlt, h.writep_ge, h.writep_lt, h.wrap_eq, h.size_le, h.base_le⟩

theorem used_bufIncReadp (h : b.Wf) {n : ℕ} (hle : n ≤ bufUsed b) :
    bufUsed (bufIncReadp b n) = bufUsed b - n := by
  have hn : n ≤ b.size := Nat.le_trans hle (Nat.le_of_lt h.used_lt)
  have hgap : n ≤ gap b.size (b.readp - b.buf) (b.writep - b.buf) := by rwa [← h.used_eq_gap]
  rw [(wf_bufIncReadp h hn).used_eq_gap, h.used_eq_gap]
  exact gap_advance h.readOff_lt h.writeOff_lt hgap (wf_bufIncReadp h hn).readOff_lt
    (ptr_advance h.wrap_eq h.readp_ge h.readp_lt hn).2.2

theorem content_bufIncReadp (h : b.Wf) {n : ℕ} (hle : n ≤ bufUsed b) :
    (bufIncReadp b n).content = b.content.drop n := by
  have hn : n ≤ b.size := Nat.le_trans hle (Nat.le_of_lt h.used_lt)
  simp only [Buffer.content, used_bufIncReadp h hle, drop_slice _ _ _ hle]
  rcases (ptr_advance h.wrap_eq h.readp_ge h.readp_lt hn).2.2 with he | he
  · rw [← he]
    rfl
  · rw [← he, ← slice_sub b.mem (r := _ + b.size) _ (Nat.le_add_left ..), Nat.add_sub_cancel]
    rfl

end Operations

/-! ### Runs of operations -/

/-- The operations on a buffer, with what they are given. -/
inductive BufOp
  | flush
  | flushLocked
  | adjust (mod : ℕ)
  | resize (size : ℕ) (first second : Option Block)
  | limit (limit : ℕ)
  /-- store `bs` at `writep`, then `_buf_inc_writep` by its length -/
  | append (bs : List UInt8)
  /-- `_buf_inc_readp` -/
  | consume (n : ℕ)

/-- Carry out one operation. -/
def bufStep (b : Buffer) : BufOp → Buffer
  | .flush => bufFlush b
  | .flushLocked => bufFlushLocked b
  | .adjust mod => bufAdjust b mod
  | .resize size first second => bufResize b size first second
  | .limit limit => bufLimit b limit
  | .append bs => bufIncWritep (bufStore b bs) bs.length
  | .consume n => bufIncReadp b n

namespace BufOp

/-- What callers see to before an operation. -/
def Pre (b : Buffer) : BufOp → Prop
  | .adjust mod => 0 < mod ∧ mod ≤ b.size
  | .limit l => l ≤ b.baseSize
  | .append bs => bs.length ≤ min (bufSpace b) (bufContWrite b)
  | .consume n => n ≤ bufUsed b
  | _ => True

/-- What an operation may do to the queue: append, consume, or else leave it
empty or as it was. -/
def Spec (q q' : BoundedFifo UInt8) : BufOp → Prop
  | .append bs => q'.items = q.items ++ bs
  | .consume n => q'.items = q.items.drop n
  | _ => q'.items = [] ∨ q'.items = q.items

/-- An operation that cannot break the link between buffer and queue: a limit
is lifted only when no byte lies behind `readp` or there is no limit, and a
resize ends with some memory. -/
def Keeps (b : Buffer) : BufOp → Prop
  | .limit l => l = 0 → b.readp ≤ b.writep ∨ b.size = b.baseSize
  | .resize size first second =>
      size = b.size ∨ (first.isSome ∧ 0 < size) ∨ (first.isNone ∧ second.isSome)
  | _ => True

instance (b : Buffer) : ∀ op : BufOp, Decidable (op.Pre b)
  | .flush | .flushLocked | .resize .. => inferInstanceAs (Decidable True)
  | .adjust mod => inferInstanceAs (Decidable (0 < mod ∧ mod ≤ b.size))
  | .limit l => inferInstanceAs (Decidable (l ≤ b.baseSize))
  | .append bs => inferInstanceAs (Decidable (bs.length ≤ min (bufSpace b) (bufContWrite b)))
  | .consume n => inferInstanceAs (Decidable (n ≤ bufUsed b))

instance (b : Buffer) : ∀ op : BufOp, Decidable (op.Keeps b)
  | .flush | .flushLocked | .adjust _ | .append _ | .consume _ => inferInstanceAs (Decidable True)
  | .limit l => inferInstanceAs (Decidable (l = 0 → b.readp ≤ b.writep ∨ b.size = b.baseSize))
  | .resize size first second => inferInstanceAs
      (Decidable (size = b.size ∨ (first.isSome ∧ 0 < size) ∨ (first.isNone ∧ second.isSome)))

end BufOp

/-- The buffer `b` is the queue `q`: its pointers are in range, its counts add
up, and what is read from `readp` is the queue, unbroken up to the wrap. -/
structure Refines (b : Buffer) (q : BoundedFifo UInt8) : Prop where
  readp_ge : b.buf ≤ b.readp
  readp_lt : b.readp < b.wrap
  writep_ge : b.buf ≤ b.writep
  writep_lt : b.writep < b.wrap
  wrap_eq : b.wrap = b.buf + b.size
  wrap_le : b.wrap ≤ b.buf + b.trueSize
  used_add_space : bufUsed b + bufSpace b + 1 = b.size
  size_eq : q.size = b.size
  items_eq : q.items = b.content
  contiguous : ∀ i < min (bufUsed b) (bufContRead b),
    q.items[i]? = some (b.mem (b.readp - b.buf + i))

/-- Along the run the buffer stays a queue, and each operation made within its
precondition does to the queue what it may. -/
def RunRefines : Buffer → BoundedFifo UInt8 → List BufOp → Prop
  | b, q, [] => Refines b q
  | b, q, op :: ops =>
      Refines b q ∧ (op.Pre b → ∃ q', op.Spec q q' ∧ RunRefines (bufStep b op) q' ops)

/-- Along the run no operation breaks the link. -/
def RunKeeps : Buffer → List BufOp → Prop
  | _, [] => True
  | b, op :: ops => op.Pre b → op.Keeps b ∧ RunKeeps (bufStep b op) ops

instance RunKeeps.decidable : ∀ b ops, Decidable (RunKeeps b ops)
  | _, [] => .isTrue trivial
  | b, op :: ops =>
      have := RunKeeps.decidable (bufStep b op) ops
      inferInstanceAs (Decidable (op.Pre b → op.Keeps b ∧ RunKeeps (bufStep b op) ops))

theorem Buffer.Wf.refines {b : Buffer} (h : b.Wf) : Refines b h.fifo where
  readp_ge := h.readp_ge
  readp_lt := h.readp_lt
  writep_ge := h.writep_ge
  writep_lt := h.writep_lt
  wrap_eq := h.wrap_eq
  wrap_le := by
    have := h.wrap_eq
    have := h.size_le
    have := h.base_le
    omega
  used_add_space := h.used_add_space
  size_eq := rfl
  items_eq := rfl
  contiguous := fun _ hi => h.content_getElem? hi

/-- A buffer is at most one queue. -/
theorem Refines.eq_fifo {b : Buffer} {q : BoundedFifo UInt8} (hr : Refines b q) (h : b.Wf) :
    q = h.fifo := by
  obtain ⟨size, items, hb⟩ := q
  obtain rfl : size = b.size := hr.size_eq
  obtain rfl : items = b.content := hr.items_eq
  rfl

theorem RunRefines.head {b : Buffer} {q : BoundedFifo UInt8} {ops : List BufOp}
    (h : RunRefines b q ops) : Refines b q := by
  cases ops with
  | nil => exact h
  | cons op ops => exact h.1

/-- One operation keeps the pointers in range, when it keeps the link. -/
theorem wf_bufStep {b : Buffer} (h : b.Wf) {op : BufOp} (hp : op.Pre b) (hk : op.Keeps b) :
    (bufStep b op).Wf := by
  cases op with
  | flush => exact wf_bufFlush h
  | flushLocked => exact wf_bufFlush h
  | adjust mod => exact wf_bufAdjust h hp.1 hp.2
  | resize size first second =>
      simp only [bufStep, bufResize]
      split
      · exact h
      · rename_i hne
        rcases hk with hk | ⟨hs, h0⟩ | ⟨hn, hs⟩
        · exact absurd hk hne
        · obtain ⟨blk, rfl⟩ := Option.isSome_iff_exists.mp hs
          exact wf_bufReset b blk h0
        · obtain ⟨blk, rfl⟩ := Option.isSome_iff_exists.mp hs
          obtain rfl := Option.isNone_iff_eq_none.mp hn
          exact wf_bufReset b blk h.size_pos
  | limit limit =>
      by_cases h0 : limit = 0
      · subst h0
        exact wf_bufLimit_zero h
      · exact wf_bufLimit_pos h h0 hp
  | append bs => exact wf_bufAppend h hp
  | consume n => exact wf_bufIncReadp h (Nat.le_trans hp (Nat.le_of_lt h.used_lt))

/-- One operation does to the queue what it may, when it keeps the link. -/
theorem spec_bufStep {b : Buffer} (h : b.Wf) {op : BufOp} (hp : op.Pre b) (hk : op.Keeps b) :
    op.Spec h.fifo (wf_bufStep h hp hk).fifo := by
  cases op with
  | flush => exact .inl (content_bufFlush b)
  | flushLocked => exact .inl (content_bufFlush b)
  | adjust mod => exact .inl (content_bufAdjust b mod)
  | resize size first second =>
      simp only [BufOp.Spec, Buffer.Wf.fifo, bufStep, bufResize]
      split
      · exact .inr rfl
      · rcases first with - | blk
        · rcases second with - | blk
          · exact .inl (content_bufReset ..)
          · exact .inl (content_bufReset ..)
        · exact .inl (content_bufReset ..)
  | limit limit =>
      by_cases h0 : limit = 0
      · subst h0
        exact .inr (content_bufLimit_zero h (hk rfl))
      · exact .inl (content_bufLimit_pos b h0)
  | append bs => exact content_bufAppend h hp
  | consume n => exact content_bufIncReadp h hp

/-- An operation that breaks the link leaves no queue, or the wrong one. -/
theorem keeps_of_refines {b : Buffer} (h : b.Wf) {op : BufOp}
    {q' : BoundedFifo UInt8} (hs : op.Spec h.fifo q') (hr : Refines (bufStep b op) q') :
    op.Keeps b := by
  cases op with
  | limit limit =>
      rintro rfl
      by_contra hc
      obtain ⟨hw, hsz⟩ := not_or.mp hc
      have hused := used_bufLimit_zero h (Nat.not_le.mp hw)
      have hlen : q'.items.length = bufUsed (bufLimit b 0) := by
        rw [hr.items_eq]
        exact Buffer.Wf.length_content _
      have hlen₀ : h.fifo.items.length = bufUsed b := Buffer.Wf.length_content b
      have hle := h.size_le
      rcases hs with hs | hs
      · rw [hs, List.length_nil] at hlen
        omega
      · rw [hs] at hlen
        omega
  | resize size first second =>
      simp only [BufOp.Keeps]
      by_contra hc
      obtain ⟨hne, hc⟩ := not_or.mp hc
      have hlt := hr.readp_lt
      rcases first with - | blk
      · rcases second with - | blk
        · simp [bufStep, bufResize, bufReset, hne] at hlt
        · simp at hc
      · have h0 : size = 0 := by simpa using hc
        have hb : ¬ 0 = b.size := h0 ▸ hne
        simp [bufStep, bufResize, bufReset, h0, hb] at hlt
  | flush | flushLocked | adjust _ | append _ | consume _ => trivial

/-- From a buffer in good order: the run refines the queue exactly when every
operation keeps the link. -/
theorem runRefines_iff_runKeeps {b : Buffer} (h : b.Wf) (ops : List BufOp) :
    RunRefines b h.fifo ops ↔ RunKeeps b ops := by
  induction ops generalizing b with
  | nil => exact ⟨fun _ => trivial, fun _ => h.refines⟩
  | cons op ops ih =>
      constructor
      · rintro ⟨-, hrun⟩ hp
        obtain ⟨q', hs, hrest⟩ := hrun hp
        have hk := keeps_of_refines h hs hrest.head
        have hwf := wf_bufStep h hp hk
        refine ⟨hk, (ih hwf).mp ?_⟩
        rwa [← hrest.head.eq_fifo hwf]
      · intro hrun
        refine ⟨h.refines, fun hp => ?_⟩
        obtain ⟨hk, hrest⟩ := hrun hp
        exact ⟨_, spec_bufStep h hp hk, (ih (wf_bufStep h hp hk)).mpr hrest⟩

/-- The queue a buffer starts as. -/
theorem fifo_bufInit (blk : Block) {size : ℕ} (h : 0 < size) :
    (wf_bufInit blk h).fifo = BoundedFifo.empty size h := by
  simp only [Buffer.Wf.fifo, content_bufInit, BoundedFifo.empty]
  rfl

/-- The ring buffer is a bounded fifo along exactly the runs in which no limit
is lifted over wrapped content and no resize is left without memory. -/
theorem buffer_refines_fifo_iff (blk : Block) (size : ℕ) (h : 0 < size) (ops : List BufOp) :
    RunRefines (bufInit blk size) (BoundedFifo.empty size h) ops ↔
      RunKeeps (bufInit blk size) ops := by
  rw [← fifo_bufInit blk h]
  exact runRefines_iff_runKeeps (wf_bufInit blk h) ops

/-- A run of the fifo in use: a limit, content that wraps inside it, no lift. -/
theorem buffer_refines_fifo_limited :
    RunRefines (bufInit ⟨16, fun _ => 0⟩ 8) (BoundedFifo.empty 8 (by decide))
      [.limit 4, .append [1, 2, 3], .consume 3, .append [4], .append [5, 6], .consume 2] :=
  (buffer_refines_fifo_iff ⟨16, fun _ => 0⟩ 8 (by decide) _).mpr (by decide)

/-- Lifting the limit over wrapped content: four bytes that were never written
join the queue. -/
theorem buffer_limit_lift_breaks :
    ¬ RunRefines (bufInit ⟨16, fun _ => 0⟩ 8) (BoundedFifo.empty 8 (by decide))
      [.limit 4, .append [1, 2, 3], .consume 3, .append [4], .limit 0] := by
  rw [← fifo_bufInit ⟨16, fun _ => 0⟩ (by decide), runRefines_iff_runKeeps]
  decide

end SqueezeliteMuse
