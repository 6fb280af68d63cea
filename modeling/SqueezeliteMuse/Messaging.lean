/-
SqueezeliteMuse/Messaging.lean

The queues of messaging.c.

Each subscriber has a ring buffer, and so has the service itself (`top`), which keeps what is
posted for subscribers to come.  A ring takes an item with a header of 8 bytes, rounded up to 4,
and no item that is longer than half of the ring without the header.  `messaging_post_to_queue`
drops the oldest messages until there is room.  To register a subscriber, all messages of `top`
are taken out, put back, and posted to the new ring, which may be shorter.

The rings are FIFO, and take what their size allows.  (A message that is longer than a ring takes
is dropped only after all that is in the ring: `postLoop_oversize`.)

Main result: `queues_kept`: in every run, a message that a ring can take is appended to it after
as few of the oldest as need be are dropped; a new subscriber gets the newest messages of `top`
that fit, and `top` keeps all; and what a subscriber reads is in the order of posting, each once.
-/
import SqueezeliteMuse.Lib.Evicting
import SqueezeliteMuse.Lib.Runs
import SqueezeliteMuse.MessageText

namespace SqueezeliteMuse

namespace Messaging

open Runs Evicting

/-! ### The code -/

/-- `MSG_LENGTH_AVG` -/
def MSG_LENGTH_AVG : ℕ := 1024

/-- What a ring has for an item of so many bytes. -/
def itemSpace (size : ℕ) : ℕ := 8 + (size + 3) / 4 * 4

/-- A ring buffer of the type `RINGBUF_TYPE_NOSPLIT`. -/
structure RingBuffer where
  size : ℕ
  items : List Message

/-- `buf_size` of `messaging_create_ring_buffer` -/
def bufSize (maxCount : ℕ) : ℕ :=
  let size := (messageHeader + 8 + MSG_LENGTH_AVG) * if maxCount > 0 then maxCount else 5
  size - size % 4

/-- The longest item that a ring of some size takes. -/
def maxItem (size : ℕ) : ℕ := size / 2 - 8

/-- What a message takes of a ring. -/
def space (m : Message) : ℕ := itemSpace m.msgSize

/-- `xRingbufferSendAcquire` finds room. -/
def Room (size : ℕ) (items : List Message) (m : Message) : Prop :=
  m.msgSize ≤ maxItem size ∧ weight space items + space m ≤ size

instance (size : ℕ) (items : List Message) (m : Message) : Decidable (Room size items m) :=
  inferInstanceAs (Decidable (_ ∧ _))

/-- The loop of `messaging_post_to_queue`: what is in the ring then, and `res`. -/
def postLoop (size : ℕ) (m : Message) : List Message → List Message × Bool
  | [] => if Room size [] m then ([m], true) else ([], false)
  | x :: items =>
      if Room size (x :: items) m then (x :: items ++ [m], true)
      else postLoop size m items

/-- `messaging_post_to_queue` -/
def postToQueue (r : RingBuffer) (m : Message) : RingBuffer :=
  { r with items := (postLoop r.size m r.items).1 }

/-- The loop of `messaging_fill_messages`, with `n` rounds to go: `top` and the new ring.
`memory i` says whether there is some for the copy of message `i`. -/
def fillMessages (memory : ℕ → Bool) :
    ℕ → ℕ → RingBuffer → RingBuffer → RingBuffer × RingBuffer
  | 0, _, top, new => (top, new)
  | n + 1, i, top, new =>
      match top.items with
      | [] => fillMessages memory n (i + 1) top new
      | m :: items =>
          let taken := { top with items := items }
          if memory i then
            fillMessages memory n (i + 1) (postToQueue taken m) (postToQueue new m)
          else fillMessages memory n (i + 1) taken new

/-- `top`, and the subscribers in the order in which they are registered, with a NULL for a ring
that could not be created. -/
structure State where
  top : RingBuffer
  subscribers : List (Option RingBuffer)

inductive Event
  /-- `messaging_post_message`, with a message that is formatted -/
  | post (m : Message)
  /-- `messaging_register_subscriber`, and what there is memory for: the entry of the list, the
  ring, and the copies of the messages -/
  | register (maxCount : ℕ) (entry ring : Bool) (copies : ℕ → Bool)
  /-- `messaging_retrieve_messages` -/
  | retrieve (k : ℕ)

inductive Obs
  | posted (m : Message)
  | registered
  | read (k : ℕ) (ms : List Message)

/-- `messaging_service_init` -/
def serviceInit : State where
  top := ⟨bufSize 15, []⟩
  subscribers := []

/-- `messaging_register_subscriber` -/
def registerSubscriber (s : State) (maxCount : ℕ) (entry ring : Bool) (copies : ℕ → Bool) :
    State :=
  if entry then
    if ring then
      let filled := fillMessages copies s.top.items.length 0 s.top ⟨bufSize maxCount, []⟩
      ⟨filled.1, s.subscribers ++ [some filled.2]⟩
    else { s with subscribers := s.subscribers ++ [none] }
  else s

/-- What there is to read for an entry of the list. -/
def held : Option (Option RingBuffer) → List Message
  | some (some r) => r.items
  | _ => []

/-- The messages that subscriber `k` has in its ring. -/
def waiting (s : State) (k : ℕ) : List Message := held s.subscribers[k]?

/-- `messaging_post_message` from the queues on. -/
def postAll (s : State) (m : Message) : State where
  top := postToQueue s.top m
  subscribers := s.subscribers.map fun ring => ring.map fun r => postToQueue r m

/-- What `messaging_retrieve_messages` leaves. -/
def retrieved (s : State) (k : ℕ) : State :=
  { s with
    subscribers := s.subscribers.modify k fun ring => ring.map fun r => { r with items := [] } }

def machine : Machine State Event Obs where
  step s
    | .post m => (postAll s m, [.posted m])
    | .register maxCount entry ring copies =>
        (registerSubscriber s maxCount entry ring copies, [.registered])
    | .retrieve k => (retrieved s k, [.read k (waiting s k)])

/-! ### What is required -/

/-- A message is posted to a ring: where the ring can take it, as few of the oldest are dropped as
need be. -/
def Appended (m : Message) (r r' : RingBuffer) : Prop :=
  r'.size = r.size ∧
    (m.msgSize ≤ maxItem r.size → r'.items = newest space r.size (r.items ++ [m]))

/-- What is required of a step: of the next state, and of what is read. -/
def Kept (s : State) : Event → State × List Obs → Prop
  | .post m, (s', _) =>
      Appended m s.top s'.top ∧ s'.subscribers.length = s.subscribers.length ∧
        ∀ (k : ℕ) (r : RingBuffer), s.subscribers[k]? = some (some r) →
          ∃ r', s'.subscribers[k]? = some (some r') ∧ Appended m r r'
  | .register maxCount entry ring copies, (s', _) =>
      (∀ k < s.subscribers.length, s'.subscribers[k]? = s.subscribers[k]?) ∧
        ((∀ i, copies i = true) → s'.top = s.top ∧
          (entry = true → ring = true → ∃ new, s'.subscribers = s.subscribers ++ [some new] ∧
            new.size = bufSize maxCount ∧
            ((∀ m ∈ s.top.items, m.msgSize ≤ maxItem new.size) →
              new.items = newest space new.size s.top.items)))
  | .retrieve k, (s', log) =>
      log = [.read k (waiting s k)] ∧ s'.top = s.top ∧ waiting s' k = [] ∧
        ∀ j, j ≠ k → s'.subscribers[j]? = s.subscribers[j]?

/-- What was posted so far, and what each subscriber has read. -/
structure Record where
  posted : List Message
  reads : ℕ → List Message

def record (a : Record) : Obs → Option Record
  | .posted m => some { a with posted := a.posted ++ [m] }
  | .registered => some a
  | .read k ms => some { a with reads := Function.update a.reads k (a.reads k ++ ms) }

/-! ### One ring -/

section Rings

variable {size : ℕ} {m : Message} {items : List Message} {r : RingBuffer}

/-- A message that the ring takes at all fits an empty ring. -/
theorem space_le (hsize : 16 ≤ size) (h : m.msgSize ≤ maxItem size) : space m ≤ size := by
  rw [space, itemSpace]
  rw [maxItem] at h
  omega

/-- As few of the oldest messages are dropped as need be. -/
theorem postLoop_fits (hsize : 16 ≤ size) (h : m.msgSize ≤ maxItem size) (items : List Message) :
    postLoop size m items = (newest space size (items ++ [m]), true) := by
  induction items with
  | nil =>
      have hle := space_le hsize h
      have hroom : Room size [] m := ⟨h, by simpa using hle⟩
      rw [postLoop, if_pos hroom, List.nil_append, newest_of_fits (by simpa using hle)]
  | cons x items ih =>
      rw [postLoop]
      split
      case isTrue hroom =>
        rw [newest_of_fits (by rw [weight_append]; simpa using hroom.2)]
      case isFalse hroom =>
        have hmore : ¬ weight space (x :: (items ++ [m])) ≤ size := by
          intro hle
          refine hroom ⟨h, ?_⟩
          rw [← List.cons_append, weight_append] at hle
          simpa using hle
        rw [ih, List.cons_append, newest_cons_of_not hmore]

/-- For a message that is longer than the ring takes, all that is there is dropped. -/
theorem postLoop_oversize (h : maxItem size < m.msgSize) (items : List Message) :
    postLoop size m items = ([], false) := by
  have hroom : ∀ items, ¬ Room size items m := fun _ hroom => absurd hroom.1 (Nat.not_le.mpr h)
  induction items with
  | nil => rw [postLoop, if_neg (hroom _)]
  | cons x items ih => rw [postLoop, if_neg (hroom _), ih]

/-- Whatever is posted, what is left is some of what was there, and the message behind it. -/
theorem postLoop_sublist (size : ℕ) (m : Message) (items : List Message) :
    (postLoop size m items).1.Sublist (items ++ [m]) := by
  induction items with
  | nil =>
      rw [postLoop]
      split
      · exact List.Sublist.refl _
      · exact List.nil_sublist _
  | cons x items ih =>
      rw [postLoop]
      split
      · exact List.Sublist.refl _
      · exact ih.cons x

/-- What is left of it fits, of a list that did. -/
structure Fits (r : RingBuffer) : Prop where
  size : 16 ≤ r.size
  each : ∀ m ∈ r.items, m.msgSize ≤ maxItem r.size
  all : weight space r.items ≤ r.size

theorem appended_post (hsize : 16 ≤ r.size) (m : Message) : Appended m r (postToQueue r m) := by
  refine ⟨rfl, fun h => ?_⟩
  rw [postToQueue, postLoop_fits hsize h]

theorem Fits.post (h : Fits r) (m : Message) : Fits (postToQueue r m) := by
  by_cases hm : m.msgSize ≤ maxItem r.size
  · have hitems := (appended_post h.size m).2 hm
    refine ⟨h.size, fun x hx => ?_, ?_⟩
    · rw [hitems] at hx
      rcases List.mem_append.mp ((newest_suffix _).subset hx) with hx | hx
      · exact h.each x hx
      · rwa [List.mem_singleton.mp hx]
    · rw [hitems]
      exact weight_newest_le _
  · have hitems : (postToQueue r m).items = [] := by
      rw [postToQueue, postLoop_oversize (Nat.not_le.mp hm)]
    refine ⟨h.size, fun x hx => ?_, ?_⟩
    · rw [hitems] at hx
      exact absurd hx List.not_mem_nil
    · rw [hitems]
      exact Nat.zero_le _

/-- With the new message behind what is there, a ring may not have to drop any. -/
theorem post_of_fits (h : Fits ⟨size, items ++ [m]⟩) :
    postToQueue ⟨size, items⟩ m = ⟨size, items ++ [m]⟩ := by
  have hm : m.msgSize ≤ maxItem size :=
    h.each m (List.mem_append_right _ (List.mem_singleton_self m))
  have hitems := (appended_post (r := ⟨size, items⟩) h.size m).2 hm
  rw [newest_of_fits h.all] at hitems
  exact congrArg (RingBuffer.mk size) hitems

/-- A ring that gets one message after the other has the newest of them all. -/
theorem foldl_newest (hsize : 16 ≤ size) {ms : List Message}
    (h : ∀ m ∈ ms, m.msgSize ≤ maxItem size) (items : List Message) :
    ms.foldl postToQueue ⟨size, newest space size items⟩ =
      ⟨size, newest space size (items ++ ms)⟩ := by
  induction ms generalizing items with
  | nil => rw [List.append_nil, List.foldl_nil]
  | cons m ms ih =>
      have hpost : postToQueue ⟨size, newest space size items⟩ m =
          ⟨size, newest space size (items ++ [m])⟩ := by
        rw [postToQueue, postLoop_fits hsize (h m List.mem_cons_self), newest_append]
      rw [List.foldl_cons, hpost, ih fun x hx => h x (List.mem_cons_of_mem m hx),
        List.append_assoc, List.singleton_append]

theorem foldl_size (ms : List Message) (r : RingBuffer) :
    (ms.foldl postToQueue r).size = r.size := by
  induction ms generalizing r with
  | nil => rfl
  | cons m ms ih => rw [List.foldl_cons, ih, postToQueue]

theorem foldl_sublist (ms : List Message) (r : RingBuffer) :
    (ms.foldl postToQueue r).items.Sublist (r.items ++ ms) := by
  induction ms generalizing r with
  | nil => rw [List.append_nil, List.foldl_nil]
  | cons m ms ih =>
      have hpost := (postLoop_sublist r.size m r.items).append_right ms
      rw [List.append_assoc, List.singleton_append] at hpost
      exact (ih _).trans hpost

end Rings

/-! ### The copy for a new subscriber -/

section Copies

variable {size : ℕ} {memory : ℕ → Bool}

/-- The messages that there is memory to copy, from message `i` on. -/
def copied (memory : ℕ → Bool) : ℕ → List Message → List Message
  | _, [] => []
  | i, m :: ms => if memory i then m :: copied memory (i + 1) ms else copied memory (i + 1) ms

theorem copied_all (h : ∀ i, memory i = true) (i : ℕ) (ms : List Message) :
    copied memory i ms = ms := by
  induction ms generalizing i with
  | nil => rfl
  | cons m ms ih => rw [copied, if_pos (h i), ih]

theorem copied_sublist (memory : ℕ → Bool) (i : ℕ) (ms : List Message) :
    (copied memory i ms).Sublist ms := by
  induction ms generalizing i with
  | nil => exact List.Sublist.refl _
  | cons m ms ih =>
      rw [copied]
      split
      · exact (ih (i + 1)).cons_cons m
      · exact (ih (i + 1)).cons m

/-- Taken out at the front and put back behind, no message of `top` has to be dropped: after as
many rounds as there were messages, they are in order again. -/
theorem fillMessages_eq (memory : ℕ → Bool) (rest : List Message) (i : ℕ) (kept : List Message) (new : RingBuffer)
    (h : Fits ⟨size, rest ++ kept⟩) :
    fillMessages memory rest.length i ⟨size, rest ++ kept⟩ new =
      (⟨size, kept ++ copied memory i rest⟩, (copied memory i rest).foldl postToQueue new) := by
  induction rest generalizing i kept new with
  | nil => rw [List.length_nil, fillMessages, copied, List.append_nil, List.nil_append,
      List.foldl_nil]
  | cons m rest ih =>
      have hmoved : Fits ⟨size, rest ++ (kept ++ [m])⟩ := by
        refine ⟨h.size, fun x hx => h.each x ?_, ?_⟩
        · simp only [List.mem_append, List.mem_singleton] at hx
          simp only [List.cons_append, List.mem_cons, List.mem_append]
          tauto
        · have hall := h.all
          simp only [weight_append, weight_cons, weight_nil, List.cons_append] at hall ⊢
          omega
      have hless : Fits ⟨size, rest ++ kept⟩ := by
        refine ⟨h.size, fun x hx => h.each x (List.mem_cons_of_mem m hx), ?_⟩
        have hall : space m + weight space (rest ++ kept) ≤ size := by simpa using h.all
        exact (Nat.le_add_left _ _).trans hall
      rw [List.length_cons, List.cons_append, fillMessages]
      dsimp only
      split
      case isTrue hm =>
        have hpost : postToQueue ⟨size, rest ++ kept⟩ m = ⟨size, rest ++ (kept ++ [m])⟩ := by
          rw [← List.append_assoc]
          rw [← List.append_assoc] at hmoved
          exact post_of_fits hmoved
        rw [hpost, ih _ _ _ hmoved, copied, if_pos hm, List.append_assoc, List.singleton_append,
          List.foldl_cons]
      case isFalse hm =>
        rw [ih _ _ _ hless, copied, if_neg hm]

end Copies

/-! ### Runs -/

section Steps

variable {s : State} {a : Record}

/-- What a run keeps. -/
structure Settled (s : State) (a : Record) : Prop where
  top : Fits s.top
  rings : ∀ r, some r ∈ s.subscribers → 16 ≤ r.size
  posted : s.top.items.Sublist a.posted
  order : ∀ k, (a.reads k ++ waiting s k).Sublist a.posted
  later : ∀ k, s.subscribers.length ≤ k → a.reads k = []

theorem le_bufSize (maxCount : ℕ) : 16 ≤ bufSize maxCount := by
  have hcount : 1 ≤ if maxCount > 0 then maxCount else 5 := by
    split <;> omega
  unfold bufSize messageHeader MSG_LENGTH_AVG
  dsimp only
  omega

theorem settled_init : Settled serviceInit ⟨[], fun _ => []⟩ where
  top := ⟨le_bufSize 15, fun _ hm => absurd hm List.not_mem_nil, Nat.zero_le _⟩
  rings _ hr := absurd hr List.not_mem_nil
  posted := List.Sublist.refl _
  order _ := List.Sublist.refl _
  later _ _ := rfl

/-! A message is posted. -/

theorem getElem?_postAll (s : State) (m : Message) (k : ℕ) :
    (postAll s m).subscribers[k]? =
      s.subscribers[k]?.map fun ring => ring.map fun r => postToQueue r m :=
  List.getElem?_map

theorem held_post (o : Option (Option RingBuffer)) (m : Message) :
    (held (o.map fun ring => ring.map fun r => postToQueue r m)).Sublist (held o ++ [m]) := by
  rcases o with - | - | r
  · exact List.nil_sublist _
  · exact List.nil_sublist _
  · exact postLoop_sublist r.size m r.items

theorem kept_post (h : Settled s a) (m : Message) :
    Kept s (.post m) (machine.step s (.post m)) := by
  refine ⟨appended_post h.top.size m, ?_, fun k r hr => ⟨postToQueue r m, ?_, ?_⟩⟩
  · show (postAll s m).subscribers.length = s.subscribers.length
    rw [postAll, List.length_map]
  · show (postAll s m).subscribers[k]? = _
    rw [getElem?_postAll, hr]
    rfl
  · exact appended_post (h.rings r (List.mem_of_getElem? hr)) m

theorem settled_post (h : Settled s a) (m : Message) :
    Settled (postAll s m) { a with posted := a.posted ++ [m] } where
  top := h.top.post m
  rings r hr := by
    obtain ⟨ring, hring, heq⟩ := List.mem_map.mp hr
    obtain ⟨r', rfl, rfl⟩ := Option.map_eq_some_iff.mp heq
    exact h.rings r' hring
  posted := (postLoop_sublist _ m _).trans (h.posted.append_right [m])
  order k := by
    have hheld := held_post s.subscribers[k]? m
    rw [← getElem?_postAll] at hheld
    have hall := (hheld.append_left (a.reads k)).trans
      (List.append_assoc .. ▸ (h.order k).append_right [m])
    exact hall
  later k hk := by
    rw [postAll, List.length_map] at hk
    exact h.later k hk

/-! A subscriber is registered. -/

/-- What becomes of `top` and of the list. -/
theorem registerSubscriber_cases (h : Fits s.top) (maxCount : ℕ) (entry ring : Bool)
    (copies : ℕ → Bool) :
    let s' := registerSubscriber s maxCount entry ring copies
    (entry = false ∧ s' = s) ∨
      (entry = true ∧ ring = false ∧ s' = ⟨s.top, s.subscribers ++ [none]⟩) ∨
      (entry = true ∧ ring = true ∧
        s' = ⟨⟨s.top.size, copied copies 0 s.top.items⟩, s.subscribers ++
          [some ((copied copies 0 s.top.items).foldl postToQueue ⟨bufSize maxCount, []⟩)]⟩) := by
  intro s'
  rcases entry with - | -
  · exact .inl ⟨rfl, rfl⟩
  · rcases ring with - | -
    · exact .inr (.inl ⟨rfl, rfl, rfl⟩)
    · have htop : Fits ⟨s.top.size, s.top.items ++ []⟩ := by
        rw [List.append_nil]
        exact h
      have hfill := fillMessages_eq copies s.top.items 0 []
        ⟨bufSize maxCount, []⟩ htop
      rw [List.append_nil, List.nil_append] at hfill
      refine .inr (.inr ⟨rfl, rfl, ?_⟩)
      show State.mk _ _ = _
      rw [hfill]

theorem kept_register (h : Settled s a) (maxCount : ℕ) (entry ring : Bool) (copies : ℕ → Bool) :
    Kept s (.register maxCount entry ring copies)
      (machine.step s (.register maxCount entry ring copies)) := by
  have hstep : machine.step s (.register maxCount entry ring copies) =
    (registerSubscriber s maxCount entry ring copies, [.registered]) := rfl
  rw [hstep]
  rcases registerSubscriber_cases h.top maxCount entry ring copies with
    ⟨hentry, hs⟩ | ⟨-, hring, hs⟩ | ⟨-, -, hs⟩
  · rw [hs]
    refine ⟨fun _ _ => rfl, fun _ => ⟨rfl, fun he => ?_⟩⟩
    rw [hentry] at he
    exact absurd he Bool.false_ne_true
  · rw [hs]
    refine ⟨fun k hk => List.getElem?_append_left hk, fun _ => ⟨rfl, fun _ hr => ?_⟩⟩
    rw [hring] at hr
    exact absurd hr Bool.false_ne_true
  · rw [hs]
    refine ⟨fun k hk => List.getElem?_append_left hk, fun hcopies => ?_⟩
    rw [copied_all hcopies]
    refine ⟨rfl, fun _ _ => ⟨_, rfl, foldl_size _ _, fun hfits => ?_⟩⟩
    rw [foldl_size] at hfits
    rw [foldl_size]
    have hnew := foldl_newest (le_bufSize maxCount) hfits []
    rw [List.nil_append, newest] at hnew
    rw [hnew]

/-- What a new subscriber has to read comes from `top`. -/
theorem waiting_append {top : RingBuffer} {ring : Option RingBuffer} {k : ℕ}
    (hk : s.subscribers.length ≤ k) (hring : (held (some ring)).Sublist s.top.items) :
    (waiting ⟨top, s.subscribers ++ [ring]⟩ k).Sublist s.top.items := by
  show (held (s.subscribers ++ [ring])[k]?).Sublist _
  rw [List.getElem?_append_right hk]
  rcases hd : k - s.subscribers.length with - | d
  · exact hring
  · exact List.nil_sublist _

/-- An entry is added to the list. -/
theorem Settled.append (h : Settled s a) {top : RingBuffer} {ring : Option RingBuffer}
    (htop : Fits top) (hitems : top.items.Sublist s.top.items)
    (hring : (held (some ring)).Sublist s.top.items) (hsize : ∀ r, ring = some r → 16 ≤ r.size) :
    Settled ⟨top, s.subscribers ++ [ring]⟩ a where
  top := htop
  rings r hr := by
    rcases List.mem_append.mp hr with hr | hr
    · exact h.rings r hr
    · exact hsize r (List.mem_singleton.mp hr).symm
  posted := hitems.trans h.posted
  order k := by
    rcases Nat.lt_or_ge k s.subscribers.length with hk | hk
    · have hsame : waiting ⟨top, s.subscribers ++ [ring]⟩ k = waiting s k :=
        congrArg held (List.getElem?_append_left hk)
      rw [hsame]
      exact h.order k
    · rw [h.later k hk, List.nil_append]
      exact (waiting_append hk hring).trans h.posted
  later k hk := by
    rw [List.length_append] at hk
    exact h.later k (by omega)

theorem settled_register (h : Settled s a) (maxCount : ℕ) (entry ring : Bool)
    (copies : ℕ → Bool) : Settled (registerSubscriber s maxCount entry ring copies) a := by
  rcases registerSubscriber_cases h.top maxCount entry ring copies with
    ⟨-, hs⟩ | ⟨-, -, hs⟩ | ⟨-, -, hs⟩
  · rw [hs]
    exact h
  · rw [hs]
    exact h.append h.top (List.Sublist.refl _) (List.nil_sublist _)
      fun r hr => absurd hr.symm (Option.some_ne_none r)
  · rw [hs]
    have hcopied := copied_sublist copies 0 s.top.items
    refine h.append ?_ hcopied ?_ ?_
    · refine ⟨h.top.size, fun m hm => h.top.each m (hcopied.subset hm), ?_⟩
      exact (weight_sublist hcopied).trans h.top.all
    · exact (foldl_sublist _ _).trans hcopied
    · rintro r hr
      obtain rfl := Option.some.inj hr
      rw [foldl_size]
      exact le_bufSize maxCount

/-! A subscriber reads. -/

theorem getElem?_retrieved_ne {j k : ℕ} (h : j ≠ k) :
    (retrieved s k).subscribers[j]? = s.subscribers[j]? :=
  List.getElem?_modify_ne _ _ h.symm

theorem getElem?_retrieved (s : State) (k : ℕ) :
    (retrieved s k).subscribers[k]? =
      s.subscribers[k]?.map fun ring => ring.map fun r => { r with items := [] } :=
  List.getElem?_modify_eq _ _ _

theorem waiting_retrieved (s : State) (k : ℕ) : waiting (retrieved s k) k = [] := by
  rw [waiting, getElem?_retrieved]
  rcases s.subscribers[k]? with - | - | r
  · rfl
  · rfl
  · rfl

theorem kept_retrieve (s : State) (k : ℕ) : Kept s (.retrieve k) (machine.step s (.retrieve k)) :=
  ⟨rfl, rfl, waiting_retrieved s k, fun _ hj => getElem?_retrieved_ne hj⟩

theorem settled_retrieve (h : Settled s a) (k : ℕ) :
    Settled (retrieved s k)
      { a with reads := Function.update a.reads k (a.reads k ++ waiting s k) } where
  top := h.top
  rings r hr := by
    obtain ⟨j, hj⟩ := List.mem_iff_getElem?.mp hr
    by_cases hjk : j = k
    · subst hjk
      rw [getElem?_retrieved] at hj
      obtain ⟨ring, hring, heq⟩ := Option.map_eq_some_iff.mp hj
      obtain ⟨r', rfl, rfl⟩ := Option.map_eq_some_iff.mp heq
      exact h.rings r' (List.mem_of_getElem? hring)
    · rw [getElem?_retrieved_ne hjk] at hj
      exact h.rings r (List.mem_of_getElem? hj)
  posted := h.posted
  order j := by
    by_cases hjk : j = k
    · subst hjk
      dsimp only
      rw [waiting_retrieved, Function.update_self, List.append_nil]
      exact h.order j
    · have hsame : waiting (retrieved s k) j = waiting s j :=
        congrArg held (getElem?_retrieved_ne hjk)
      dsimp only
      rw [hsame, Function.update_of_ne hjk]
      exact h.order j
  later j hj := by
    rw [retrieved, List.length_modify] at hj
    dsimp only
    by_cases hjk : j = k
    · subst hjk
      rw [Function.update_self, h.later j hj, waiting, List.getElem?_eq_none hj]
      rfl
    · rw [Function.update_of_ne hjk]
      exact h.later j hj

/-! All of them. -/

theorem kept_step (h : Settled s a) (e : Event) : Kept s e (machine.step s e) := by
  rcases e with m | ⟨maxCount, entry, ring, copies⟩ | k
  · exact kept_post h m
  · exact kept_register h maxCount entry ring copies
  · exact kept_retrieve s k

theorem settled_step (h : Settled s a) (e : Event) :
    ∃ a', watch record a (machine.step s e).2 = some a' ∧ Settled (machine.step s e).1 a' := by
  rcases e with m | ⟨maxCount, entry, ring, copies⟩ | k
  · exact ⟨_, rfl, settled_post h m⟩
  · exact ⟨_, rfl, settled_register h maxCount entry ring copies⟩
  · exact ⟨_, rfl, settled_retrieve h k⟩

end Steps

/-- In every run, a message goes behind the others of a ring that can take it, and no more of them
are dropped than need be; a new subscriber gets the newest that fit, and `top` keeps all; and
each subscriber reads in the order of posting, each message once. -/
theorem queues_kept (es : List Event) :
    (∀ e, Kept (machine.run serviceInit es).1 e (machine.step (machine.run serviceInit es).1 e)) ∧
      ∃ a, watch record ⟨[], fun _ => []⟩ (machine.run serviceInit es).2 = some a ∧
        ∀ k, (a.reads k ++ waiting (machine.run serviceInit es).1 k).Sublist a.posted := by
  obtain ⟨a, hwatch, hsettled⟩ := machine.run_watched (P := fun _ _ => True)
    (fun _ _ e h _ => settled_step h e) settled_init (machine.along_true serviceInit es)
  exact ⟨fun e => kept_step hsettled e, a, hwatch, hsettled.order⟩

/-- A message of so many characters. -/
def messageOf (n : ℕ) : Message where
  sentTime := 0
  type := .info
  msgClass := .system
  msgSize := messageHeader + (n + 1)
  message := List.replicate n 97 ++ [0]

/-- Of three messages of 483 characters a subscriber that asks for a queue of one gets two. -/
theorem third_dropped :
    ¬ ∀ (es : List Event) (maxCount : ℕ),
      let s := (machine.run serviceInit es).1
      let s' := (machine.step s (.register maxCount true true fun _ => true)).1
      s'.top.items = s.top.items ∧ waiting s' s.subscribers.length = s.top.items := by
  intro h
  have hcopy := (h [.post (messageOf 483), .post (messageOf 483), .post (messageOf 483)] 1).2
  revert hcopy
  decide +kernel

end Messaging

end SqueezeliteMuse
