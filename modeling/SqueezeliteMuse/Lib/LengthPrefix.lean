/-
SqueezeliteMuse/Lib/LengthPrefix.lean

Streams of packets that each follow their length, two bytes big-endian.

`Parses max s ps tail` says that `s` is the packets `ps`, none longer than
`max`, and then a tail that is not a complete packet: the beginning of one
(`Partial`), or a length above `max` with whatever follows it (`Overlong`).

Main results: every stream has a parse (`exists_parses`) and only one
(`Parses.unique`); more bytes add packets at the end and none after an overlong
length (`Parses.extend`).
-/
import Mathlib.Algebra.Order.Ring.Int
import Mathlib.Data.List.Basic
import Mathlib.Tactic.Common

namespace LengthPrefix

/-- A length, most significant byte first. -/
def be (a b : UInt8) : ℕ := a.toNat * 256 + b.toNat

/-- A packet on the line. -/
def frame (p : List UInt8) : List UInt8 :=
  UInt8.ofNat (p.length / 256) :: UInt8.ofNat p.length :: p

/-- The beginning of a packet of at most `max` bytes. -/
def Partial (max : ℕ) : List UInt8 → Prop
  | a :: b :: rest => be a b ≤ max ∧ rest.length < be a b
  | _ => True

/-- A length above `max`. -/
def Overlong (max : ℕ) : List UInt8 → Prop
  | a :: b :: _ => max < be a b
  | _ => False

/-- The stream `s` is the packets `ps` and an unfinished `tail`. -/
structure Parses (max : ℕ) (s : List UInt8) (ps : List (List UInt8)) (tail : List UInt8) :
    Prop where
  stream_eq : s = ps.flatMap frame ++ tail
  length_le : ∀ p ∈ ps, p.length ≤ max
  tail : Partial max tail ∨ Overlong max tail

variable {max : ℕ}

theorem be_lt (a b : UInt8) : be a b < 65536 := by
  have ha := a.toNat_lt
  have hb := b.toNat_lt
  unfold be
  omega

theorem be_ofNat {n : ℕ} (h : n < 65536) : be (UInt8.ofNat (n / 256)) (UInt8.ofNat n) = n := by
  simp only [be, UInt8.toNat_ofNat']
  omega

/-- A body as long as its length says is a packet. -/
theorem frame_of_be {a b : UInt8} {p : List UInt8} (h : p.length = be a b) :
    frame p = a :: b :: p := by
  have ha := a.toNat_lt
  have hb := b.toNat_lt
  have hhi : UInt8.ofNat (p.length / 256) = a := by
    apply UInt8.toNat_inj.mp
    simp only [UInt8.toNat_ofNat', h, be]
    omega
  have hlo : UInt8.ofNat p.length = b := by
    apply UInt8.toNat_inj.mp
    simp only [UInt8.toNat_ofNat', h, be]
    omega
  rw [frame, hhi, hlo]

theorem parses_nil : Parses max [] [] [] := ⟨rfl, by simp, .inl trivial⟩

/-- One more packet is complete. -/
theorem Parses.snoc {s : List UInt8} {ps : List (List UInt8)} {tail p : List UInt8}
    (h : Parses max s ps tail) {bs : List UInt8} (hbs : tail ++ bs = frame p)
    (hp : p.length ≤ max) : Parses max (s ++ bs) (ps ++ [p]) [] where
  stream_eq := by
    rw [h.stream_eq, List.append_assoc, hbs]
    simp
  length_le := by
    intro q hq
    rcases List.mem_append.mp hq with hq | hq
    · exact h.length_le q hq
    · rwa [List.mem_singleton.mp hq]
  tail := .inl trivial

/-- The tail grows. -/
theorem Parses.grow {s : List UInt8} {ps : List (List UInt8)} {tail : List UInt8}
    (h : Parses max s ps tail) {bs : List UInt8}
    (hbs : Partial max (tail ++ bs) ∨ Overlong max (tail ++ bs)) :
    Parses max (s ++ bs) ps (tail ++ bs) :=
  ⟨by rw [h.stream_eq, List.append_assoc], h.length_le, hbs⟩

/-- A packet at the head of an unfinished tail: there is none. -/
theorem frame_append_ne {t : List UInt8} (ht : Partial max t ∨ Overlong max t)
    (hmax : max < 65536) {p : List UInt8} (hp : p.length ≤ max) (rest : List UInt8) :
    frame p ++ rest ≠ t := by
  rintro rfl
  have hbe := be_ofNat (Nat.lt_of_le_of_lt hp hmax)
  rcases ht with ht | ht
  · simp only [frame, List.cons_append, Partial, hbe, List.length_append] at ht
    omega
  · simp only [frame, List.cons_append, Overlong, hbe] at ht
    omega

/-- Two streams that start with a packet and agree start with the same one. -/
theorem frame_append_inj {p q rest rest' : List UInt8} (hp : p.length < 65536)
    (hq : q.length < 65536) (h : frame p ++ rest = frame q ++ rest') : p = q ∧ rest = rest' := by
  simp only [frame, List.cons_append, List.cons.injEq] at h
  obtain ⟨hhi, hlo, hbody⟩ := h
  have hlen : p.length = q.length := by
    rw [← be_ofNat hp, ← be_ofNat hq, hhi, hlo]
  exact List.append_inj hbody hlen

/-- More bytes leave the packets there were, and add none after an overlong length. -/
theorem Parses.extend (hmax : max < 65536) {s rest : List UInt8} {ps ps' : List (List UInt8)}
    {tail tail' : List UInt8} (h : Parses max s ps tail) (h' : Parses max (s ++ rest) ps' tail') :
    ps <+: ps' ∧ (rest = [] ∨ Overlong max tail → ps = ps' ∧ tail ++ rest = tail') := by
  obtain ⟨rfl, hle, ht⟩ := h
  obtain ⟨heq, hle', ht'⟩ := h'
  rw [List.append_assoc] at heq
  induction ps generalizing ps' with
  | nil =>
      refine ⟨List.nil_prefix, fun hstop => ?_⟩
      cases ps' with
      | nil => exact ⟨rfl, heq⟩
      | cons q ps' =>
          exfalso
          have hq := hle' q List.mem_cons_self
          simp only [List.flatMap_nil, List.nil_append, List.flatMap_cons, List.append_assoc]
            at heq
          rcases hstop with rfl | hover
          · rw [List.append_nil] at heq
            exact frame_append_ne ht hmax hq _ heq.symm
          · have hlong : Overlong max (tail ++ rest) := by
              match tail, hover with
              | a :: b :: t, hover => exact hover
            exact frame_append_ne (.inr hlong) hmax hq _ heq.symm
  | cons p ps ih =>
      have hp := hle p List.mem_cons_self
      cases ps' with
      | nil =>
          exfalso
          simp only [List.flatMap_cons, List.append_assoc, List.flatMap_nil, List.nil_append]
            at heq
          exact frame_append_ne ht' hmax hp _ heq
      | cons q ps' =>
          have hq := hle' q List.mem_cons_self
          simp only [List.flatMap_cons, List.append_assoc] at heq
          obtain ⟨rfl, hrest⟩ := frame_append_inj (by omega) (by omega) heq
          obtain ⟨hpre, hstop⟩ := ih (fun r hr => hle r (List.mem_cons_of_mem p hr)) hrest
            (fun r hr => hle' r (List.mem_cons_of_mem _ hr))
          refine ⟨List.cons_prefix_cons.mpr ⟨rfl, hpre⟩, fun h => ?_⟩
          obtain ⟨rfl, htail⟩ := hstop h
          exact ⟨rfl, htail⟩

/-- A stream has at most one parse. -/
theorem Parses.unique (hmax : max < 65536) {s : List UInt8} {ps ps' : List (List UInt8)}
    {tail tail' : List UInt8} (h : Parses max s ps tail) (h' : Parses max s ps' tail') :
    ps = ps' ∧ tail = tail' := by
  have h₀ := (h.extend hmax (by rwa [List.append_nil] : Parses max (s ++ []) ps' tail')).2 (.inl rfl)
  rwa [List.append_nil] at h₀

/-- Every stream has a parse. -/
theorem exists_parses (max : ℕ) (s : List UInt8) : ∃ ps tail, Parses max s ps tail := by
  match s with
  | [] => exact ⟨[], [], parses_nil⟩
  | [a] => exact ⟨[], [a], rfl, by simp, .inl trivial⟩
  | a :: b :: rest =>
      by_cases hover : max < be a b
      · exact ⟨[], a :: b :: rest, rfl, by simp, .inr hover⟩
      · by_cases hshort : rest.length < be a b
        · exact ⟨[], a :: b :: rest, rfl, by simp, .inl ⟨Nat.not_lt.mp hover, hshort⟩⟩
        · obtain ⟨ps, tail, heq, hle, ht⟩ := exists_parses max (rest.drop (be a b))
          have hlen : (rest.take (be a b)).length = be a b := by
            rw [List.length_take]
            omega
          refine ⟨rest.take (be a b) :: ps, tail, ?_, ?_, ht⟩
          · rw [List.flatMap_cons, frame_of_be hlen, List.append_assoc, ← heq]
            simp
          · intro p hp
            rcases List.mem_cons.mp hp with rfl | hp
            · omega
            · exact hle p hp
termination_by s.length
decreasing_by simp; omega

end LengthPrefix
