/-
SqueezeliteMuse/CodecTable.lean

The codecs of decode.c: how decode_init() registers them by the options -c and -e, how
codec_open() finds one, and the list of them that slimproto() makes for the server.

Main results: what the player announces is what it can open, in the order of the option -c; and
when the list of capabilities is written past its buffer.
-/
import Mathlib.Data.Int.Order.Basic
import Mathlib.Data.List.Flatten
import Mathlib.Data.List.Infix
import SqueezeliteMuse.Lib.CString
import SqueezeliteMuse.Lib.Ranked

namespace SqueezeliteMuse.CodecTable

open CString (ascii strstr)

/-! ### The source -/

/-- `struct codec` -/
structure Codec where
  id : UInt8
  types : List UInt8
  deriving DecidableEq

/-- `codecs` with `priority`; `none` for NULL. -/
abbrev Slots : Type := List (ℤ × Option Codec)

/-- `MAX_CODECS` -/
def maxCodecs : ℕ := 9

/-- Before `decode_init`. -/
def noCodecs : Slots := List.replicate maxCodecs (0, none)

/-- `sort_codecs` -/
def sortCodecs (pry : ℤ) (ptr : Option Codec) : Slots → Slots
  | [] => []
  | (_, none) :: rest => (pry, ptr) :: rest
  | (q, some c) :: rest =>
      if pry < q then (pry, ptr) :: sortCodecs q (some c) rest
      else (q, some c) :: sortCodecs pry ptr rest

/-- `register_alac` -/
def alac : Codec := ⟨108, ascii "alc"⟩

/-- `register_helixaac` -/
def helixaac : Codec := ⟨97, ascii "aac"⟩

/-- `register_vorbis` -/
def vorbis : Codec := ⟨111, ascii "ogg"⟩

/-- `register_opus` -/
def opus : Codec := ⟨117, ascii "ops"⟩

/-- `register_flac` -/
def flac : Codec := ⟨102, ascii "ogf,flc"⟩

/-- `register_pcm` -/
def pcm : Codec := ⟨112, ascii "wav,aif,pcm"⟩

/-- `register_mad` -/
def mad : Codec := ⟨109, ascii "mp3"⟩

/-- `register_mpg` of a build without it -/
def registerMpg : Option Codec := none

/-- `(!include_codecs || (order_codecs = strstr(include_codecs, name)))`, with the priority then. -/
def included (inc : Option (List UInt8)) (name : List UInt8) : Option ℤ :=
  match inc with
  | none => some 0
  | some s => (strstr s name).map fun order => (s.length : ℤ) - order.length

/-- The registration of a codec with one name. -/
def offer (inc : Option (List UInt8)) (exc name : List UInt8) (ptr : Option Codec)
    (slots : Slots) : Slots :=
  if (strstr exc name).isNone then
    match included inc name with
    | none => slots
    | some pry => sortCodecs pry ptr slots
  else slots

/-- The registration for MP3, where `other` is the name of the decoder. -/
def offerMp3 (inc : Option (List UInt8)) (exc other : List UInt8) : Option ℤ :=
  if (strstr exc (ascii "mp3")).isNone ∧ (strstr exc other).isNone then
    included inc (ascii "mp3") <|> included inc other
  else none

/-- `decode_init` with the options `-c` and `-e` -/
def decodeInit (inc : Option (List UInt8)) (exc : List UInt8) : Slots :=
  let slots := offer inc exc (ascii "alac") (some alac) noCodecs
  let slots := offer inc exc (ascii "aac") (some helixaac) slots
  let slots := offer inc exc (ascii "ogg") (some vorbis) slots
  let slots := offer inc exc (ascii "ops") (some opus) slots
  let slots := offer inc exc (ascii "flac") (some flac) slots
  let slots := offer inc exc (ascii "pcm") (some pcm) slots
  match offerMp3 inc exc (ascii "mad") with
  | some pry => sortCodecs pry (some mad) slots
  | none =>
      match offerMp3 inc exc (ascii "mpg") with
      | some pry => sortCodecs pry registerMpg slots
      | none => slots

/-- The codec that `codec_open` opens. -/
def codecOpen (format : UInt8) : Slots → Option Codec
  | [] => none
  | (_, none) :: rest => codecOpen format rest
  | (_, some c) :: rest => if c.id = format then some c else codecOpen format rest

/-- `FIXED_CAP_LEN` -/
def fixedCapLen : ℕ := 256

/-- `strcat` to `fixed_cap`; `none` if it writes behind the buffer. -/
def strcat (cap s : List UInt8) : Option (List UInt8) :=
  if cap.length + s.length < fixedCapLen then some (cap ++ s) else none

/-- The loop of `slimproto` over the codecs, from what `snprintf` has put in `fixed_cap`. -/
def fixedCap (cap : List UInt8) : Slots → Option (List UInt8)
  | [] => some cap
  | (_, none) :: rest => fixedCap cap rest
  | (_, some c) :: rest =>
      if c.id ≠ 0 ∧ cap.length < fixedCapLen - 10 then do
        let cap ← strcat cap (ascii ",")
        let cap ← strcat cap c.types
        fixedCap cap rest
      else fixedCap cap rest

/-! ### What is wanted -/

/-- A codec, and the names that the options know it by. -/
structure Offer where
  names : List (List UInt8)
  codec : Codec

/-- The codecs with one name, in the order of `decode_init`. -/
def singles : List (List UInt8 × Codec) :=
  [(ascii "alac", alac), (ascii "aac", helixaac), (ascii "ogg", vorbis), (ascii "ops", opus),
    (ascii "flac", flac), (ascii "pcm", pcm)]

/-- All codecs that this build has. -/
def offers : List Offer :=
  (singles.map fun x => ⟨[x.1], x.2⟩) ++ [⟨[ascii "mp3", ascii "mad"], mad⟩]

/-- No name is excluded; then where the first of its names that is included stands. -/
def Offer.rank (inc : Option (List UInt8)) (exc : List UInt8) (o : Offer) : Option ℤ :=
  if ∃ name ∈ o.names, name <:+: exc then none else o.names.findSome? (included inc)

/-- The codecs that the options ask for, with their ranks. -/
def wanted (inc : Option (List UInt8)) (exc : List UInt8) : List (ℤ × Codec) :=
  offers.filterMap fun o => (o.rank inc exc).map (·, o.codec)

/-- The types of some codecs as a list for the server. -/
def announced (cs : List Codec) : List UInt8 := cs.flatMap fun c => ascii "," ++ c.types

/-- The codecs of the table. -/
def codecs (slots : Slots) : List Codec := slots.filterMap (·.2)

/-! ### The table -/

/-- The table where these have been put in. -/
def filled (xs : Slots) : Slots := xs ++ List.replicate (maxCodecs - xs.length) (0, none)

theorem sortCodecs_filled {pry : ℤ} {ptr : Option Codec} {xs : Slots} {n : ℕ}
    (hsome : ∀ x ∈ xs, x.2.isSome) :
    sortCodecs pry ptr (xs ++ List.replicate (n + 1) (0, none)) =
      Ranked.place (pry, ptr) xs ++ List.replicate n (0, none) := by
  induction xs generalizing pry ptr with
  | nil => rfl
  | cons x xs ih =>
    obtain ⟨q, c⟩ := x
    obtain ⟨c, rfl⟩ := Option.isSome_iff_exists.mp (hsome _ List.mem_cons_self)
    have hrest : ∀ x ∈ xs, x.2.isSome := fun x hx => hsome x (List.mem_cons_of_mem _ hx)
    rw [List.cons_append, sortCodecs, Ranked.place]
    split
    · rw [ih hrest, List.cons_append]
    · rw [ih hrest, List.cons_append]

/-- A registration behind the others, which are no NULL. -/
theorem sortCodecs_sort {pry : ℤ} {ptr : Option Codec} {xs : Slots}
    (hsome : ∀ x ∈ xs, x.2.isSome) (hlen : xs.length < maxCodecs) :
    sortCodecs pry ptr (filled (Ranked.sort xs)) = filled (Ranked.sort (xs ++ [(pry, ptr)])) := by
  have hsort : ∀ x ∈ Ranked.sort xs, x.2.isSome := fun x hx =>
    hsome x ((Ranked.sort_perm xs).mem_iff.mp hx)
  have hlen' := (Ranked.sort_perm xs).length_eq
  have hroom : maxCodecs - (Ranked.sort xs).length = maxCodecs - xs.length - 1 + 1 := by omega
  have hplaced := Ranked.length_place (pry, ptr) (Ranked.sort xs)
  have hleft : maxCodecs - (Ranked.place (pry, ptr) (Ranked.sort xs)).length =
      maxCodecs - xs.length - 1 := by omega
  rw [filled, hroom, sortCodecs_filled hsort, Ranked.sort_append, filled, hleft]

/-- What the call for a codec adds. -/
def registration (inc : Option (List UInt8)) (exc : List UInt8) (o : Offer) : Slots :=
  ((o.rank inc exc).map (·, some o.codec)).toList

/-- What the calls for MP3 add. -/
def mp3Registration (inc : Option (List UInt8)) (exc : List UInt8) : Slots :=
  match offerMp3 inc exc (ascii "mad") with
  | some pry => [(pry, some mad)]
  | none => ((offerMp3 inc exc (ascii "mpg")).map (·, registerMpg)).toList

/-- What the calls of `sort_codecs` are given. -/
def registrations (inc : Option (List UInt8)) (exc : List UInt8) : Slots :=
  (singles.flatMap fun x => registration inc exc ⟨[x.1], x.2⟩) ++ mp3Registration inc exc

variable {inc : Option (List UInt8)} {exc : List UInt8}

theorem rank_single (name : List UInt8) (c : Codec) :
    (Offer.mk [name] c).rank inc exc =
      if (strstr exc name).isNone then included inc name else none := by
  have hfound := CString.strstr_isSome exc name
  simp only [Offer.rank, List.mem_singleton, exists_eq_left, ← hfound]
  cases strstr exc name with
  | none =>
    rw [if_neg (by simp), if_pos (by simp), List.findSome?_cons]
    cases included inc name <;> rfl
  | some s => rw [if_pos (by simp), if_neg (by simp)]

theorem registration_isSome {o : Offer} : ∀ x ∈ registration inc exc o, x.2.isSome := by
  intro x hx
  rw [registration, Option.mem_toList, Option.map_eq_some_iff] at hx
  obtain ⟨pry, -, rfl⟩ := hx
  rfl

theorem length_registration (inc : Option (List UInt8)) (exc : List UInt8) (o : Offer) :
    (registration inc exc o).length ≤ 1 := by
  rw [registration]
  cases o.rank inc exc <;> simp

theorem offer_filled {name : List UInt8} {c : Codec} {xs : Slots}
    (hsome : ∀ x ∈ xs, x.2.isSome) (hlen : xs.length < maxCodecs) :
    offer inc exc name (some c) (filled (Ranked.sort xs)) =
      filled (Ranked.sort (xs ++ registration inc exc ⟨[name], c⟩)) := by
  rw [offer, registration, rank_single]
  split
  case isTrue =>
    cases included inc name with
    | none => simp
    | some pry => exact sortCodecs_sort hsome hlen
  case isFalse => simp

/-- The calls for the codecs with one name, one after the other. -/
theorem offers_filled (os : List (List UInt8 × Codec)) {xs : Slots}
    (hsome : ∀ x ∈ xs, x.2.isSome) (hlen : xs.length + os.length ≤ maxCodecs) :
    os.foldl (fun slots o => offer inc exc o.1 (some o.2) slots) (filled (Ranked.sort xs)) =
      filled (Ranked.sort (xs ++ os.flatMap fun o => registration inc exc ⟨[o.1], o.2⟩)) := by
  induction os generalizing xs with
  | nil => rw [List.foldl_nil, List.flatMap_nil, List.append_nil]
  | cons o os ih =>
    rw [List.length_cons] at hlen
    have hone := length_registration inc exc ⟨[o.1], o.2⟩
    rw [List.foldl_cons, offer_filled hsome (by omega), ih, List.flatMap_cons,
      List.append_assoc]
    · intro x hx
      rcases List.mem_append.mp hx with hx | hx
      · exact hsome x hx
      · exact registration_isSome x hx
    · rw [List.length_append]
      omega

theorem length_registrations (inc : Option (List UInt8)) (exc : List UInt8)
    (os : List (List UInt8 × Codec)) :
    (os.flatMap fun o => registration inc exc ⟨[o.1], o.2⟩).length ≤ os.length := by
  induction os with
  | nil => exact Nat.le_refl 0
  | cons o os ih =>
    have hone := length_registration inc exc ⟨[o.1], o.2⟩
    rw [List.flatMap_cons, List.length_append, List.length_cons]
    omega

theorem decodeInit_eq (inc : Option (List UInt8)) (exc : List UInt8) :
    decodeInit inc exc = filled (Ranked.sort (registrations inc exc)) := by
  have hsingles := @offers_filled inc exc singles []
    (fun x hx => absurd hx List.not_mem_nil) (by decide)
  have hsome : ∀ x ∈ singles.flatMap fun x => registration inc exc ⟨[x.1], x.2⟩, x.2.isSome := by
    intro x hx
    obtain ⟨o, -, hx⟩ := List.mem_flatMap.mp hx
    exact registration_isSome x hx
  have hlen : (singles.flatMap fun x => registration inc exc ⟨[x.1], x.2⟩).length < maxCodecs :=
    (length_registrations inc exc singles).trans_lt (by decide)
  have hlast (pry : ℤ) (ptr : Option Codec) := @sortCodecs_sort pry ptr _ hsome hlen
  have hinit : decodeInit inc exc = match offerMp3 inc exc (ascii "mad") with
      | some pry => sortCodecs pry (some mad) (singles.foldl
          (fun slots o => offer inc exc o.1 (some o.2) slots) (filled (Ranked.sort [])))
      | none => match offerMp3 inc exc (ascii "mpg") with
        | some pry => sortCodecs pry registerMpg (singles.foldl
            (fun slots o => offer inc exc o.1 (some o.2) slots) (filled (Ranked.sort [])))
        | none => singles.foldl
            (fun slots o => offer inc exc o.1 (some o.2) slots) (filled (Ranked.sort [])) := rfl
  rw [hinit, hsingles, List.nil_append, registrations, mp3Registration]
  cases offerMp3 inc exc (ascii "mad") with
  | some pry => exact hlast pry (some mad)
  | none =>
    cases offerMp3 inc exc (ascii "mpg") with
    | some pry => exact hlast pry registerMpg
    | none => simp

/-- The codecs among some slots, with their ranks. -/
def ranked (xs : Slots) : List (ℤ × Codec) := xs.filterMap fun x => x.2.map (x.1, ·)

theorem ranked_registration (o : Offer) :
    ranked (registration inc exc o) = ((o.rank inc exc).map (·, o.codec)).toList := by
  rw [registration]
  cases o.rank inc exc <;> rfl

theorem rank_mad :
    (Offer.mk [ascii "mp3", ascii "mad"] mad).rank inc exc = offerMp3 inc exc (ascii "mad") := by
  have hmp3 := CString.strstr_isSome exc (ascii "mp3")
  have hmad := CString.strstr_isSome exc (ascii "mad")
  simp only [Offer.rank, List.mem_cons, List.not_mem_nil, or_false, exists_eq_or_imp,
    exists_eq_left, ← hmp3, ← hmad, offerMp3]
  cases strstr exc (ascii "mp3") with
  | some s => rw [if_pos (by simp), if_neg (by simp)]
  | none =>
    cases strstr exc (ascii "mad") with
    | some s => rw [if_pos (by simp), if_neg (by simp)]
    | none =>
      rw [if_neg (by simp), if_pos (by simp), List.findSome?_cons]
      cases included inc (ascii "mp3") with
      | some pry => rfl
      | none =>
        rw [List.findSome?_cons]
        cases included inc (ascii "mad") <;> rfl

theorem ranked_mp3 : ranked (mp3Registration inc exc) =
    ((offerMp3 inc exc (ascii "mad")).map (·, mad)).toList := by
  rw [mp3Registration]
  cases offerMp3 inc exc (ascii "mad") with
  | some pry => rfl
  | none => cases offerMp3 inc exc (ascii "mpg") <;> rfl

theorem ranked_singles (os : List (List UInt8 × Codec)) :
    ranked (os.flatMap fun o => registration inc exc ⟨[o.1], o.2⟩) =
      (os.map fun o => Offer.mk [o.1] o.2).filterMap fun o =>
        (o.rank inc exc).map (·, o.codec) := by
  induction os with
  | nil => rfl
  | cons o os ih =>
    have hone := @ranked_registration inc exc ⟨[o.1], o.2⟩
    rw [ranked] at hone ih ⊢
    rw [List.flatMap_cons, List.filterMap_append, hone, ih, List.map_cons, List.filterMap_cons]
    cases (Offer.mk [o.1] o.2).rank inc exc <;> rfl

theorem ranked_registrations (inc : Option (List UInt8)) (exc : List UInt8) :
    ranked (registrations inc exc) = wanted inc exc := by
  have hsingles := @ranked_singles inc exc singles
  have hmp3 := @ranked_mp3 inc exc
  rw [ranked] at hsingles hmp3 ⊢
  rw [registrations, List.filterMap_append, hsingles, hmp3, wanted, offers,
    List.filterMap_append, ← rank_mad]
  congr 1

/-! ### What can be opened -/

theorem codecOpen_eq (format : UInt8) (slots : Slots) :
    codecOpen format slots = (codecs slots).find? (·.id = format) := by
  induction slots with
  | nil => rfl
  | cons x rest ih =>
    obtain ⟨pry, c⟩ := x
    cases c with
    | none => exact ih
    | some c =>
      have hcons : codecs ((pry, some c) :: rest) = c :: codecs rest := rfl
      rw [codecOpen, hcons, List.find?_cons]
      by_cases h : c.id = format
      · simp [h]
      · simp [h, ih]

theorem codecs_filled (xs : Slots) : codecs (filled xs) = (ranked xs).map (·.2) := by
  have hempty (n : ℕ) : (List.replicate n ((0, none) : ℤ × Option Codec)).filterMap (·.2) = [] := by
    induction n with
    | zero => rfl
    | succ n ih => rw [List.replicate_succ, List.filterMap_cons, ih]
  rw [codecs, filled, List.filterMap_append, hempty, List.append_nil, ranked, List.map_filterMap]
  congr 1
  funext x
  cases x.2 <;> rfl

theorem ids_wanted (inc : Option (List UInt8)) (exc : List UInt8) :
    ((wanted inc exc).map (·.2)).Sublist (offers.map Offer.codec) := by
  rw [wanted]
  induction offers with
  | nil => exact List.Sublist.slnil
  | cons o os ih =>
    rw [List.filterMap_cons, List.map_cons]
    cases o.rank inc exc with
    | none => exact ih.cons _
    | some pry => exact ih.cons_cons _

/-- Codecs that are told apart by their ids. -/
theorem find?_id {cs : List Codec} {format : UInt8} {c : Codec} (hids : (cs.map (·.id)).Nodup) :
    cs.find? (·.id = format) = some c ↔ c ∈ cs ∧ c.id = format := by
  induction cs with
  | nil => simp
  | cons d cs ih =>
    rw [List.map_cons, List.nodup_cons] at hids
    rw [List.find?_cons]
    by_cases h : d.id = format
    · simp only [h, decide_true, Option.some.injEq, List.mem_cons]
      constructor
      · rintro rfl
        exact ⟨.inl rfl, h⟩
      · rintro ⟨rfl | hc, hid⟩
        · rfl
        · exact absurd (List.mem_map.mpr ⟨c, hc, hid.trans h.symm⟩) hids.1
    · simp only [h, decide_false, ih hids.2, List.mem_cons]
      constructor
      · exact fun ⟨hc, hid⟩ => ⟨.inr hc, hid⟩
      · rintro ⟨rfl | hc, hid⟩
        · exact absurd hid h
        · exact ⟨hc, hid⟩

/-! ### What is announced -/

/-- The two writes for a codec are one. -/
theorem fixedCap_cons {pry : ℤ} {c : Codec} (hid : c.id ≠ 0) (cap : List UInt8) (rest : Slots) :
    fixedCap cap ((pry, some c) :: rest) =
      if cap.length < 246 then
        if cap.length + c.types.length < 255 then fixedCap (cap ++ (ascii "," ++ c.types)) rest
        else none
      else fixedCap cap rest := by
  have hcomma : (ascii ",").length = 1 := rfl
  rw [fixedCap]
  by_cases hroom : cap.length < 246
  · have hfirst : cap.length + (ascii ",").length < fixedCapLen := by
      simp only [fixedCapLen, hcomma]
      omega
    rw [if_pos ⟨hid, hroom⟩, if_pos hroom, strcat, if_pos hfirst, Option.bind_eq_bind,
      Option.bind_some, strcat, List.append_assoc, List.length_append, hcomma]
    by_cases hfits : cap.length + c.types.length < 255
    · rw [if_pos hfits, if_pos (by simp only [fixedCapLen]; omega), Option.bind_some]
    · rw [if_neg hfits, if_neg (by simp only [fixedCapLen]; omega), Option.bind_none]
  · rw [if_neg hroom, if_neg fun h => hroom h.2]

theorem fixedCap_eq {slots : Slots} {cap : List UInt8}
    (hcodecs : ∀ c ∈ codecs slots, c.id ≠ 0 ∧ 3 ≤ c.types.length)
    (hroom : cap.length + (announced (codecs slots)).length < 250) :
    fixedCap cap slots = some (cap ++ announced (codecs slots)) := by
  induction slots generalizing cap with
  | nil => rw [fixedCap, codecs, List.filterMap_nil, announced, List.flatMap_nil, List.append_nil]
  | cons x rest ih =>
    obtain ⟨pry, c⟩ := x
    cases c with
    | none => exact ih hcodecs hroom
    | some c =>
      have hcons : codecs ((pry, some c) :: rest) = c :: codecs rest := rfl
      have hcomma : (ascii ",").length = 1 := rfl
      rw [hcons] at hcodecs hroom ⊢
      obtain ⟨hid, htypes⟩ := hcodecs c List.mem_cons_self
      have happ : announced (c :: codecs rest) =
          (ascii "," ++ c.types) ++ announced (codecs rest) := List.flatMap_cons
      rw [happ] at hroom ⊢
      simp only [List.length_append, hcomma] at hroom
      rw [fixedCap_cons hid, if_pos (by omega), if_pos (by omega),
        ih fun d hd => hcodecs d (List.mem_cons_of_mem c hd), List.append_assoc]
      simp only [List.length_append, hcomma]
      omega

/-- Seven codecs at most, and their types make forty bytes. -/
theorem length_announced {cs : List Codec} (h : cs.Sublist (offers.map Offer.codec)) :
    (announced cs).length ≤ 40 := by
  have hall : (announced (offers.map Offer.codec)).length = 40 := by decide
  exact hall ▸ (h.flatMap _).length_le

theorem order_perm (inc : Option (List UInt8)) (exc : List UInt8) :
    (ranked (Ranked.sort (registrations inc exc))).Perm (wanted inc exc) := by
  rw [← ranked_registrations]
  exact (Ranked.sort_perm _).filterMap _

theorem ranked_sorted {xs : Slots} (h : Ranked.Sorted xs) : Ranked.Sorted (ranked xs) := by
  refine List.Pairwise.filterMap _ (fun x y hxy => ?_) h
  intro a ha b hb
  rw [Option.map_eq_some_iff] at ha hb
  obtain ⟨c, -, rfl⟩ := ha
  obtain ⟨d, -, rfl⟩ := hb
  exact hxy

/-- Without the option -c all have the same rank. -/
theorem registrations_sorted (exc : List UInt8) : Ranked.Sorted (registrations none exc) := by
  have hzero : ∀ x ∈ registrations none exc, x.1 = 0 := by
    intro x hx
    rcases List.mem_append.mp hx with hx | hx
    · obtain ⟨o, -, hx⟩ := List.mem_flatMap.mp hx
      rw [registration, rank_single, Option.mem_toList, Option.map_eq_some_iff] at hx
      obtain ⟨pry, hpry, rfl⟩ := hx
      split at hpry
      · exact (Option.some.inj hpry).symm
      · cases hpry
    · have hoffer (other : List UInt8) (pry : ℤ)
          (h : offerMp3 none exc other = some pry) : pry = 0 := by
        rw [offerMp3] at h
        split at h
        · exact (Option.some.inj h).symm
        · cases h
      rw [mp3Registration] at hx
      cases hmad : offerMp3 none exc (ascii "mad") with
      | some pry =>
        rw [hmad] at hx
        rw [List.mem_singleton.mp hx]
        exact hoffer _ pry hmad
      | none =>
        rw [hmad] at hx
        simp only [Option.mem_toList, Option.map_eq_some_iff] at hx
        obtain ⟨pry, hpry, rfl⟩ := hx
        exact hoffer _ pry hpry
  refine List.pairwise_of_forall_mem_list fun x hx y hy => ?_
  rw [hzero x hx, hzero y hy]

end SqueezeliteMuse.CodecTable
