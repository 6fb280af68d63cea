/-
SqueezeliteMuse/OtaImage.lean

What an update writes to flash, and when it boots from it.

The handler allocates `bin_data` at the first data of a 200 response and copies
what comes, without looking at how much it is; the task writes as many bytes as
were announced, without looking at how many came.  So an update is right only
if the responses are *orderly* and the last one is *complete*.

Main result: `ota_installs_image`: then no byte is written outside `bin_data`,
the bytes passed to `esp_ota_write` are those of the image in their order, and
the boot partition is set only after all of them.  The invariant is that
`bin_data` holds the bytes of the response so far (`Received`).
-/
import SqueezeliteMuse.Ota

namespace SqueezeliteMuse

namespace Ota

/-! ### Numbers -/

theorem float_natCast {n : ℕ} (h : Significand.round 24 n = n) : float n = n := by
  rcases Nat.eq_zero_or_pos n with rfl | hn
  · rfl
  · rw [float, Int.sign_eq_one_of_pos (by omega), Int.natAbs_natCast, h, Int.one_mul]

theorem round_of_float {n : ℕ} (h : float n = n) : Significand.round 24 n = n := by
  rcases Nat.eq_zero_or_pos n with rfl | hn
  · rfl
  · rw [float, Int.sign_eq_one_of_pos (by omega), Int.natAbs_natCast, Int.one_mul] at h
    exact Int.ofNat_inj.mp h

theorem float_nonpos {z : ℤ} (h : z ≤ 0) : float z ≤ 0 := by
  have hsign : z.sign ≤ 0 := Int.sign_nonpos_iff.mpr h
  rw [float]
  exact Int.mul_nonpos_of_nonpos_of_nonneg hsign (Int.natCast_nonneg _)

/-! ### Buffers -/

@[simp] theorem read_zero (b : Buffer) (i : ℕ) : b.read i 0 = [] := rfl

@[simp] theorem length_read (b : Buffer) (i n : ℕ) : (b.read i n).length = n := by
  simp [Buffer.read]

theorem read_add (b : Buffer) (i n k : ℕ) : b.read i (n + k) = b.read i n ++ b.read (i + n) k := by
  simp [Buffer.read, List.range_add, Nat.add_assoc]

/-- A part of memory is a list where it is byte by byte. -/
theorem read_eq {b : Buffer} {i : ℕ} {l : List UInt8}
    (h : ∀ j (hj : j < l.length), b.mem (i + j) = l.get ⟨j, hj⟩) : b.read i l.length = l := by
  refine List.ext_getElem (by simp) fun j hj hj' => ?_
  simpa [Buffer.read] using h j hj'

/-! ### Writing -/

/-- As long as the length that remains is exact, the loop writes what remains, from
its beginning, and all of it if no write fails. -/
theorem writeLoop_exact (w : ℕ → Bool) (b : Buffer) {fuel : ℕ} (i actual : ℕ) {m : ℕ}
    (hm : Significand.round 24 m = m) (hlt : m < 2 ^ 36) (hfuel : m < fuel) :
    (writeLoop w b fuel i actual m).1 <+: b.read actual m ∧
      ∀ a, (writeLoop w b fuel i actual m).2 = some a →
        (writeLoop w b fuel i actual m).1 = b.read actual m ∧ a = actual + m := by
  induction fuel generalizing i actual m with
  | zero => omega
  | succ fuel ih =>
      rcases Nat.eq_zero_or_pos m with rfl | hpos
      · refine ⟨by simp [writeLoop], fun a ha => ?_⟩
        simp only [writeLoop, Int.natCast_zero, Int.le_refl, if_true, Option.some.injEq] at ha ⊢
        exact ⟨by simp, ha.symm⟩
      obtain ⟨d, hd, hdpos, hdle, hddvd⟩ : ∃ d,
          (if (buffSize : ℤ) < m then buffSize else (m : ℤ).toNat) = d ∧ 0 < d ∧ d ≤ m ∧
            Significand.round 24 (m - d) = m - d := by
        refine ⟨_, rfl, ?_⟩
        split
        · rename_i hbig
          refine ⟨by decide, by omega, Significand.round_sub hm ?_⟩
          -- the unit of a number below `2 ^ 36` divides 4096
          have hlog : m.log2 < 36 := (Nat.log2_lt (by omega)).mpr hlt
          have hulp : Significand.ulp 24 m ≤ 12 := by
            rw [Significand.ulp]
            omega
          exact Nat.pow_dvd_pow 2 hulp
        · refine ⟨by omega, by omega, ?_⟩
          rw [Int.toNat_natCast, Nat.sub_self]
          exact Significand.round_of_lt (by decide)
      have hcast : ((m : ℤ) - d) = ((m - d : ℕ) : ℤ) := by omega
      have hread : b.read actual m = b.read actual d ++ b.read (actual + d) (m - d) := by
        rw [← read_add, Nat.add_sub_cancel' hdle]
      obtain ⟨hpre, hall⟩ := ih (i + 1) (actual + d) hddvd (by omega) (by omega)
      rw [writeLoop, if_neg (by omega)]
      simp only [hd, hcast, float_natCast hddvd]
      split
      · refine ⟨?_, fun a ha => ?_⟩
        · rw [hread]
          exact (List.prefix_append_right_inj _).mpr hpre
        · obtain ⟨heq, rfl⟩ := hall a ha
          exact ⟨by rw [heq, hread], by omega⟩
      · refine ⟨?_, fun a ha => by cases ha⟩
        rw [hread]
        exact List.prefix_append _ _

/-! ### The contract -/

/-- What an update of an image must do, of which `announced` bytes were announced. -/
structure Installs (o : Outcome) (image : List UInt8) (announced : ℤ) : Prop where
  inside : o.outside = false
  written : o.written <+: image
  boot : o.boot = true → o.written = image ∧ image.length = announced

/-- The image of an update, and its announced length: the final response or the buffer. -/
def image (parms : Parms) (events : List HttpEvent) : List UInt8 × ℤ :=
  match parms.otaType with
  | .http =>
      let client := (perform.run Status.start events).1.client
      (client.body, client.contentLength.toInt)
  | .buffer bin => (bin.bytes, bin.bytes.length)
  | .invalid => ([], 0)

/-- An update that stops before it writes. -/
theorem installs_nothing {image : List UInt8} {announced : ℤ} :
    Installs ⟨[], false, false⟩ image announced :=
  ⟨rfl, List.nil_prefix, fun h => absurd h Bool.false_ne_true⟩

/-- An image that is in the buffer and as long as announced is installed. -/
theorem install_installs {env : Env} {s : Status} {l : List UInt8} (hout : s.outside = false)
    (hactual : s.actualImageLen = 0) (htotal : s.totalImageLen = l.length)
    (hexact : float l.length = l.length) (hlt : l.length < 2 ^ 36)
    (hread : ∀ b, s.binData = some b → b.read 0 l.length = l) :
    Installs (install env s) l l.length := by
  have hnothing : Installs ⟨[], false, s.outside⟩ l l.length := hout ▸ installs_nothing
  rw [install]
  split
  swap
  · exact hnothing
  rename_i size b _ hb
  split
  · exact hnothing
  split
  swap
  · exact hnothing
  obtain ⟨hpre, hall⟩ := writeLoop_exact env.otaWrite b 0 0
    (round_of_float hexact) hlt (Nat.lt_succ_self _)
  simp only [hactual, htotal, Int.toNat_natCast, hread b hb] at hpre hall ⊢
  split
  · rename_i actual heq
    split
    · exact ⟨hout, hpre, fun h => absurd h Bool.false_ne_true⟩
    · exact ⟨hout, hpre, fun _ => ⟨(hall actual heq).1, rfl⟩⟩
  · exact ⟨hout, hpre, fun h => absurd h Bool.false_ne_true⟩

/-! ### Orderly responses -/

/-- The bytes that `bin_data` can still take. -/
def Status.room (s : Status) : ℕ := s.binData.elim 0 fun b => b.size - b.recvPtr

/-- An event that does no harm: no new response comes after data of a 200
response on one connection; the data of a 200 response fit into what is left of
`bin_data`, which, where it is allocated now, is as long as was announced; a
chunked response announces no length. -/
def Orderly (s : Status) : HttpEvent → Prop
  | .response .. => s.totalImageLen ≤ 0
  | .onData data memory =>
      s.client.status = 200 →
        if s.client.chunked then s.client.contentLength.toInt ≤ 0
        else if s.otaStarted then data.length ≤ s.room
        else
          memory.isSome → float s.client.contentLength.toInt = s.client.contentLength.toInt ∧
            data.length ≤ s.client.contentLength.toInt
  | .onConnected | .other => True

/-- All that was announced was delivered. -/
def Client.Complete (c : Client) : Prop :=
  c.status = 200 → c.chunked = false → 0 < c.contentLength.toInt →
    c.body.length = c.contentLength.toInt

/-- An update with orderly responses, whose client reports success only of a complete one;
or of an uploaded buffer whose length is a `float`. -/
def Proper (env : Env) (parms : Parms) (events : List HttpEvent) : Prop :=
  match parms.otaType with
  | .http =>
      perform.Along Orderly Status.start events ∧
        (env.performed = true → (perform.run Status.start events).1.client.Complete)
  | .buffer bin => float bin.bytes.length = bin.bytes.length
  | .invalid => True

/-! ### The invariant -/

/-- Nothing was written outside, and where an image has begun, `bin_data` holds
what the client delivered of it. -/
structure Received (s : Status) : Prop where
  inside : s.outside = false
  idle : s.otaStarted = false → s.totalImageLen ≤ 0
  fresh : s.otaStarted = false → s.client.status = 200 → s.client.body = []
  actual : s.actualImageLen = 0
  plain : 0 < s.totalImageLen → s.client.status = 200 ∧ s.client.chunked = false
  holds : 0 < s.totalImageLen → ∀ b, s.binData = some b →
    s.totalImageLen = s.client.contentLength.toInt ∧ float s.totalImageLen = s.totalImageLen ∧
      b.recvPtr = s.client.body.length ∧ b.read 0 b.recvPtr = s.client.body

theorem copy_outside {s : Status} {data : List UInt8} (h : data.length ≤ s.room) :
    (s.copy data).outside = s.outside := by
  rw [Status.room] at h
  rcases hb : s.binData with - | b
  · have hnil : data = [] := by simpa [hb] using h
    simp [Status.copy, hb, hnil]
  · have hfit : ¬ (b.size < b.recvPtr + data.length ∧ data ≠ []) := by
      rintro ⟨hlt, hne⟩
      have hpos := List.length_pos_iff.mpr hne
      simp only [hb, Option.elim_some] at h
      omega
    simp [Status.copy, hb, hfit]

/-- The copied bytes follow those that are there. -/
theorem copy_binData {s : Status} {data : List UInt8} {b : Buffer}
    (h : (s.copy data).binData = some b) :
    ∃ b₀, s.binData = some b₀ ∧ b.recvPtr = b₀.recvPtr + data.length ∧
      b.read 0 b.recvPtr = b₀.read 0 b₀.recvPtr ++ data := by
  rcases hb : s.binData with - | b₀
  · simp [Status.copy, hb] at h
  · simp only [Status.copy, hb, Option.some.injEq] at h
    subst h
    refine ⟨b₀, rfl, rfl, ?_⟩
    rw [read_add, Nat.zero_add]
    congr 1
    · refine List.map_congr_left fun j hj => ?_
      have hlt := List.mem_range.mp hj
      have hout : ¬ (b₀.recvPtr ≤ 0 + j ∧ 0 + j < b₀.recvPtr + data.length) := by omega
      exact if_neg hout
    · refine read_eq fun j hj => ?_
      have hin : b₀.recvPtr ≤ b₀.recvPtr + j ∧ b₀.recvPtr + j < b₀.recvPtr + data.length := by omega
      show (if b₀.recvPtr ≤ b₀.recvPtr + j ∧ b₀.recvPtr + j < b₀.recvPtr + data.length then
        data.getD (b₀.recvPtr + j - b₀.recvPtr) 0 else b₀.mem (b₀.recvPtr + j)) = _
      rw [if_pos hin, Nat.add_sub_cancel_left]
      simp [hj]

@[simp] theorem copy_total (s : Status) (data : List UInt8) :
    (s.copy data).totalImageLen = s.totalImageLen := by
  rw [Status.copy]
  split <;> rfl

@[simp] theorem copy_started (s : Status) (data : List UInt8) :
    (s.copy data).otaStarted = s.otaStarted := by
  rw [Status.copy]
  split <;> rfl

@[simp] theorem copy_actual (s : Status) (data : List UInt8) :
    (s.copy data).actualImageLen = s.actualImageLen := by
  rw [Status.copy]
  split <;> rfl

@[simp] theorem copy_client (s : Status) (data : List UInt8) :
    (s.copy data).client = s.client := by
  rw [Status.copy]
  split <;> rfl

/-- The data of a response that is received come behind those before. -/
theorem Received.copy {s : Status} {data : List UInt8} (h : Received s) (hs : s.otaStarted = true)
    (hroom : data.length ≤ s.room) :
    Received ({ s with client.body := s.client.body ++ data }.copy data) := by
  refine ⟨(copy_outside (by exact hroom)).trans h.inside, ?_, ?_, ?_, ?_, ?_⟩
  · simp [hs]
  · simp [hs]
  · simpa using h.actual
  · simpa using h.plain
  · intro hpos b hb
    obtain ⟨b₀, hb₀, hptr, hread⟩ := copy_binData hb
    simp only [copy_total, copy_client] at hpos ⊢
    obtain ⟨htotal, hexact, hptr₀, hread₀⟩ := h.holds hpos b₀ hb₀
    exact ⟨htotal, hexact, by rw [hptr, hptr₀, List.length_append], by rw [hread, hread₀]⟩

/-- Where no image has begun, the client may deliver what it likes. -/
theorem Received.skip {s : Status} (h : Received s) (hs : s.otaStarted = true ∨ s.client.status ≠ 200)
    (hno : ¬ 0 < s.totalImageLen) (body : List UInt8) :
    Received { s with client.body := body } := by
  refine ⟨h.inside, h.idle, fun hf h200 => ?_, h.actual, fun hpos => absurd hpos hno,
    fun hpos => absurd hpos hno⟩
  rcases hs with hs | hs
  · exact absurd (hs.symm.trans hf) (by simp)
  · exact absurd h200 hs

/-- Where the first data come, an image begins if there is memory for as much as is announced. -/
theorem received_begin {s : Status} (mem : ℕ → UInt8) (h : Received s) (hs : s.otaStarted = false)
    (h200 : s.client.status = 200) (hch : s.client.chunked = false)
    (hexact : float s.client.contentLength.toInt = s.client.contentLength.toInt) :
    Received { s with
      otaStarted := true
      totalImageLen := float s.client.contentLength.toInt
      downloadedImageLen := 0
      binData := some ⟨(float s.client.contentLength.toInt).toNat, mem, 0⟩ } := by
  refine ⟨h.inside, by simp, by simp, h.actual, fun _ => ⟨h200, hch⟩, fun _ b hb => ?_⟩
  cases hb
  exact ⟨hexact, by rw [hexact, hexact], by simp [h.fresh hs h200], by simp [h.fresh hs h200]⟩

/-- `bin_data` where the first data come. -/
def Status.begin (s : Status) (binData : Option Buffer) : Status :=
  { s with
    otaStarted := true
    totalImageLen := float s.client.contentLength.toInt
    downloadedImageLen := 0
    binData := binData }

theorem handle_started {s : Status} {data : List UInt8} {memory : Option (ℕ → UInt8)}
    (h200 : s.client.status = 200) (hs : s.otaStarted = true) :
    s.handleHttpOnData data memory = if s.client.chunked then s else s.copy data := by
  rw [Status.handleHttpOnData, if_pos h200, if_pos hs]

theorem handle_first {s : Status} {data : List UInt8} {memory : Option (ℕ → UInt8)}
    (h200 : s.client.status = 200) (hs : s.otaStarted = false) :
    s.handleHttpOnData data memory =
      memory.elim (s.begin none) fun mem =>
        let s' := s.begin (some ⟨(float s.client.contentLength.toInt).toNat, mem, 0⟩)
        if s.client.chunked then s' else s'.copy data := by
  rw [Status.handleHttpOnData, if_pos h200, if_neg (by simp [hs])]
  cases memory <;> rfl

/-- An orderly event keeps the bytes that are received in place. -/
theorem received_step {s : Status} (e : HttpEvent) (h : Received s) (ho : Orderly s e) :
    Received (s.httpEventHandler e) := by
  cases e with
  | onConnected =>
      have hno : ¬ (0 : ℤ) < 0 := by decide
      exact ⟨h.inside, fun _ => Int.le_refl 0, h.fresh, rfl, fun hpos => absurd hpos hno,
        fun hpos => absurd hpos hno⟩
  | response status contentLength chunked =>
      have hno : ¬ 0 < s.totalImageLen := Int.not_lt.mpr ho
      exact ⟨h.inside, h.idle, fun _ _ => rfl, h.actual, fun hpos => absurd hpos hno,
        fun hpos => absurd hpos hno⟩
  | other => exact h
  | onData data memory =>
      rw [Status.httpEventHandler]
      by_cases h200 : s.client.status = 200
      swap
      · have hno : ¬ 0 < s.totalImageLen := fun hpos => h200 (h.plain hpos).1
        rw [Status.handleHttpOnData, if_neg (by exact h200)]
        exact h.skip (.inr h200) hno _
      have ho := ho h200
      rcases s.otaStarted.eq_false_or_eq_true.symm with hs | hs
      · -- the first data
        rw [handle_first (by exact h200) (by exact hs)]
        rcases s.client.chunked.eq_false_or_eq_true.symm with hch | hch
        · simp only [hch, hs, Bool.false_eq_true, if_false] at ho
          rcases memory with - | mem
          · exact ⟨h.inside, by simp [Status.begin], by simp [Status.begin], h.actual,
              fun _ => ⟨h200, hch⟩, fun _ b hb => absurd hb (by simp [Status.begin])⟩
          · obtain ⟨hexact, hlen⟩ := ho rfl
            show Received (if s.client.chunked then _ else _)
            rw [if_neg (by simp [hch])]
            refine (received_begin mem h hs h200 hch hexact).copy rfl ?_
            show data.length ≤ (float s.client.contentLength.toInt).toNat - 0
            omega
        · -- a chunked response has no length, and is not copied
          simp only [hch, if_true] at ho
          have hno : ¬ 0 < float s.client.contentLength.toInt := Int.not_lt.mpr (float_nonpos ho)
          rcases memory with - | mem
          · exact ⟨h.inside, by simp [Status.begin], by simp [Status.begin], h.actual,
              fun hpos => absurd hpos hno, fun hpos => absurd hpos hno⟩
          · show Received (if s.client.chunked then _ else _)
            rw [if_pos hch]
            exact ⟨h.inside, by simp [Status.begin], by simp [Status.begin], h.actual,
              fun hpos => absurd hpos hno, fun hpos => absurd hpos hno⟩
      · rw [handle_started (by exact h200) (by exact hs)]
        rcases s.client.chunked.eq_false_or_eq_true.symm with hch | hch
        · simp only [hch, hs, Bool.false_eq_true, if_false, if_true] at ho
          rw [if_neg (by simp [hch])]
          exact h.copy hs ho
        · have hno : ¬ 0 < s.totalImageLen := fun hpos =>
            absurd (hch.symm.trans (h.plain hpos).2) (by simp)
          rw [if_pos hch]
          exact h.skip (.inl hs) hno _

/-! ### Updates -/

/-- For every way the client delivers an image, orderly and complete, and for every
uploaded buffer: nothing is written outside `bin_data`, `esp_ota_write` gets the
bytes of the image in order, and the device boots from it only when it got all. -/
theorem ota_installs_image (env : Env) (parms : Parms) (events : List HttpEvent)
    (h : Proper env parms events) :
    Installs (otaTask env parms events) (image parms events).1 (image parms events).2 := by
  rw [Proper] at h
  rw [otaTask, image]
  split at h
  · rename_i htype
    obtain ⟨halong, hcomplete⟩ := h
    have hr : Received (perform.run Status.start events).1 :=
      perform.run_invariant (fun s e => received_step e)
        ⟨rfl, fun _ => Int.le_refl 0, fun _ _ => rfl, rfl, fun hpos => absurd hpos (by decide),
          fun hpos => absurd hpos (by decide)⟩ halong
    simp only [htype]
    generalize (perform.run Status.start events).1 = s at hr hcomplete ⊢
    split
    swap
    · exact installs_nothing
    split
    · rw [hr.inside]
      exact installs_nothing
    rename_i hgo
    obtain ⟨hperf, hpos⟩ := not_or.mp hgo
    have hpos : 0 < s.totalImageLen := Int.not_le.mp hpos
    obtain ⟨h200, hch⟩ := hr.plain hpos
    rcases hb : s.binData with - | b
    · have hnull : install env s = ⟨[], false, s.outside⟩ := by
        rw [install, hb]
        split
        · rename_i heq
          cases heq
        · rfl
      rw [hnull, hr.inside]
      exact installs_nothing
    · obtain ⟨htotal, hexact, hptr, hread⟩ := hr.holds hpos b hb
      have hlen := hcomplete (by simpa using hperf) h200 hch (htotal ▸ hpos)
      rw [← hlen]
      refine install_installs hr.inside hr.actual (htotal.trans hlen.symm)
        (by rw [hlen, ← htotal, hexact]) ?_ fun b' hb' => ?_
      · have hint := s.client.contentLength.toInt_lt
        omega
      · cases hb.symm.trans hb'
        rw [← hptr, hread]
  · rename_i bin htype
    simp only [htype]
    split
    swap
    · exact installs_nothing
    refine install_installs rfl rfl h h (Nat.lt_trans bin.fits (by decide)) fun b hb => ?_
    cases hb
    refine read_eq fun j hj => ?_
    simp [hj]
  · rename_i htype
    simp only [htype]
    exact installs_nothing

/-- An environment in which every call succeeds. -/
def Env.good : Env := ⟨true, true, true, some 0x100000, fun _ => 0, true, true, fun _ => true, true⟩

/-- 300 bytes are announced and 100 come before the connection closes: the task
writes 200 bytes that nobody sent, and sets the boot partition. -/
theorem not_ota_installs_image :
    ¬ ∀ (env : Env) (parms : Parms) (events : List HttpEvent),
      Installs (otaTask env parms events) (image parms events).1 (image parms events).2 := by
  intro h
  obtain ⟨-, hlen⟩ := (h .good ⟨some [0x68], none⟩
    [.onConnected, .response 200 300 false, .onData (List.replicate 100 1) (some fun _ => 0)]).boot
    (by decide)
  revert hlen
  decide

/-- A redirection, and an image in two parts. -/
theorem ota_installs_image_run :
    let events := [.onConnected, .response 302 3 false, .onData [1, 2, 3] none, .onConnected,
      .response 200 300 false, .onData (List.replicate 200 4) (some fun _ => 0),
      .onData (List.replicate 100 5) none]
    (otaTask .good ⟨some [0x68], none⟩ events).boot = true ∧
      Installs (otaTask .good ⟨some [0x68], none⟩ events)
        (image ⟨some [0x68], none⟩ events).1 (image ⟨some [0x68], none⟩ events).2 := by
  refine ⟨by decide, ota_installs_image _ _ _ ⟨⟨trivial, Int.le_refl 0, fun h => ?_, trivial,
    Int.le_refl 0, fun _ => ?_, fun _ => ?_, trivial⟩, fun _ _ _ _ => ?_⟩⟩
  · exact absurd h (by decide)
  · exact fun _ => by decide +kernel
  · show 100 ≤ Status.room _
    decide +kernel
  · decide +kernel

end Ota

end SqueezeliteMuse
