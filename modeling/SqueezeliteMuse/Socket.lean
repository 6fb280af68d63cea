/-
SqueezeliteMuse/Socket.lean

`recv` on a non-blocking socket.

A connection is the list of the bytes still to come, its *wire*.  How many of
them a call returns, and whether it returns any, is up to the environment; what
it returns is always the next bytes, never more than were asked for, and never
none unless the other side closed or none was asked for.
-/
import SqueezeliteMuse.Lib.Ring

namespace SqueezeliteMuse

/-- What the socket has for a `recv`: `data k` delivers at most `k + 1` bytes. -/
inductive Incoming
  | wouldBlock
  | error
  | closed
  | data (k : ℕ)
  deriving DecidableEq, Repr

/-- What `recv` gives: bytes, or the error it leaves. -/
inductive RecvResult
  | bytes (bs : List UInt8)
  | wouldBlock
  | error

/-- `recv`, asked for `len` bytes. -/
def recvBytes (wire : List UInt8) (len : ℕ) : Incoming → RecvResult
  | .wouldBlock => .wouldBlock
  | .error => .error
  | .closed => .bytes []
  | .data k => if wire = [] then .wouldBlock else .bytes (wire.take (min (k + 1) len))

/-- `recv` gives the next bytes of the wire, as many as were asked for at most. -/
theorem recvBytes_eq {wire bs : List UInt8} {len : ℕ} {r : Incoming}
    (h : recvBytes wire len r = .bytes bs) :
    wire = bs ++ wire.drop bs.length ∧ bs.length ≤ len := by
  cases r with
  | wouldBlock => simp [recvBytes] at h
  | error => simp [recvBytes] at h
  | closed =>
      obtain rfl : [] = bs := by simpa [recvBytes] using h
      simp
  | data k =>
      simp only [recvBytes] at h
      split at h
      · cases h
      · obtain rfl := RecvResult.bytes.inj h
        refine ⟨(List.prefix_iff_eq_append.mp (List.take_prefix _ _)).symm, ?_⟩
        rw [List.length_take]
        omega

/-- The first `n` cells of a byte array. -/
def peek (buffer : ℕ → UInt8) (n : ℕ) : List UInt8 := (List.range n).map buffer

@[simp] theorem length_peek (buffer : ℕ → UInt8) (n : ℕ) : (peek buffer n).length = n := by
  simp [peek]

/-- Bytes stored behind the first `n` cells extend them. -/
theorem peek_write (buffer : ℕ → UInt8) (n : ℕ) (bs : List UInt8) :
    peek (Ring.write buffer n bs) (n + bs.length) = peek buffer n ++ bs := by
  simp only [peek, List.range_add, List.map_append, List.map_map]
  congr 1
  · apply List.map_congr_left
    intro i hi
    exact Ring.write_of_lt (List.mem_range.mp hi)
  · apply List.ext_getElem
    · simp
    · intro i h₁ h₂
      simp only [List.getElem_map, List.getElem_range, Function.comp_apply]
      exact Ring.write_add h₂

/-- Bytes stored behind them leave the first `n` cells as they are. -/
theorem peek_write_of_le {buffer : ℕ → UInt8} {n p : ℕ} (h : n ≤ p) (bs : List UInt8) :
    peek (Ring.write buffer p bs) n = peek buffer n := by
  apply List.map_congr_left
  intro i hi
  have hlt := List.mem_range.mp hi
  exact Ring.write_of_lt (by omega)

end SqueezeliteMuse
