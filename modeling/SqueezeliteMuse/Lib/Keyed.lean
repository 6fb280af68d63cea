/-
SqueezeliteMuse/Lib/Keyed.lean

Lists of keyed entries that are meant as finite maps.

What a key stands for is `List.lookup`.  An entry is changed in place
(`replaceFirst`, which looks for it with a test that need not be equality of
keys), put at the end, or taken out.  `others k` are the entries of the keys
other than `k`; an operation on the key `k` is right if it leaves them alone.
With distinct keys, a list is a map: `Nodup` of the keys is kept by all
operations that keep to their key.
-/
import Mathlib.Algebra.Order.Ring.Int
import Mathlib.Data.List.Nodup

namespace Keyed

variable {κ β : Type*}

section Test

variable {k : κ} {v : β} {l : List (κ × β)}

/-- The first entry whose key passes the test, replaced. -/
def replaceFirst (test : κ → Bool) (e : κ × β) : List (κ × β) → List (κ × β)
  | [] => []
  | x :: l => if test x.1 then e :: l else x :: replaceFirst test e l

/-- The first key that passes the test. -/
def firstKey (test : κ → Bool) (l : List (κ × β)) : Option κ := (l.map Prod.fst).find? test

variable {test : κ → Bool}

theorem firstKey_cons {e : κ × β} (h : test e.1 = false) :
    firstKey test (e :: l) = firstKey test l := by
  simp [firstKey, h]

/-- The key itself passes a test that it is the first to pass. -/
theorem test_of_firstKey (h : firstKey test l = some k) : test k = true :=
  List.find?_some h

theorem keys_replaceFirst (h : firstKey test l = some k) :
    (replaceFirst test (k, v) l).map Prod.fst = l.map Prod.fst := by
  induction l with
  | nil => cases h
  | cons e l ih =>
      obtain ⟨key, b⟩ := e
      rcases ht : test key with - | -
      · rw [firstKey_cons ht] at h
        simp only [replaceFirst, ht, Bool.false_eq_true, if_false, List.map_cons, ih h]
      · have hk : key = k := by simpa [firstKey, ht] using h
        subst hk
        simp [replaceFirst, ht]

theorem mem_replaceFirst {e x : κ × β} (h : x ∈ replaceFirst test e l) : x = e ∨ x ∈ l := by
  induction l with
  | nil => cases h
  | cons y l ih =>
      simp only [replaceFirst] at h
      split at h
      · exact (List.mem_cons.mp h).imp_right (List.mem_cons_of_mem _)
      · rcases List.mem_cons.mp h with rfl | h
        · exact .inr List.mem_cons_self
        · exact (ih h).imp_right (List.mem_cons_of_mem _)

end Test

variable [DecidableEq κ] [BEq κ] [LawfulBEq κ] {k k' : κ} {v : β} {l : List (κ × β)} {test : κ → Bool}

/-! ### What a key stands for -/

theorem lookup_cons_of_ne {key : κ} {b : β} (h : k ≠ key) :
    ((key, b) :: l).lookup k = l.lookup k := by
  rw [List.lookup_cons, beq_eq_false_iff_ne.mpr h]

theorem lookup_eq_none : l.lookup k = none ↔ ∀ e ∈ l, e.1 ≠ k := by
  rw [List.lookup_eq_none_iff]
  constructor
  · intro h e he heq
    exact absurd (h e he) (by simp [heq])
  · intro h e he
    simpa using fun heq => h e he heq.symm

theorem mem_of_lookup (h : l.lookup k = some v) : (k, v) ∈ l := by
  induction l with
  | nil => cases h
  | cons e l ih =>
      obtain ⟨key, b⟩ := e
      by_cases hk : k = key
      · subst hk
        rw [List.lookup_cons_self] at h
        cases h
        exact List.mem_cons_self
      · rw [lookup_cons_of_ne hk] at h
        exact List.mem_cons_of_mem _ (ih h)

/-- With distinct keys, an entry is what its key stands for. -/
theorem lookup_of_mem (hl : (l.map Prod.fst).Nodup) (h : (k, v) ∈ l) : l.lookup k = some v := by
  induction l with
  | nil => cases h
  | cons e l ih =>
      obtain ⟨key, b⟩ := e
      rw [List.map_cons, List.nodup_cons] at hl
      rcases List.mem_cons.mp h with heq | hmem
      · cases heq
        exact List.lookup_cons_self
      · have hne : k ≠ key := fun heq => hl.1 (List.mem_map.mpr ⟨(k, v), hmem, heq⟩)
        rw [lookup_cons_of_ne hne, ih hl.2 hmem]

/-! ### The other keys -/

/-- The entries of the other keys. -/
def others (k : κ) (l : List (κ × β)) : List (κ × β) := l.filter fun e => e.1 ≠ k

theorem others_cons_self : others k ((k, v) :: l) = others k l := by simp [others]

theorem others_cons_of_ne {e : κ × β} (h : e.1 ≠ k) : others k (e :: l) = e :: others k l := by
  simp [others, h]

theorem others_append : others k (l ++ [(k, v)]) = others k l := by simp [others]

/-- The other keys are read in what is left of them. -/
theorem lookup_others (h : k' ≠ k) : (others k l).lookup k' = l.lookup k' := by
  induction l with
  | nil => rfl
  | cons e l ih =>
      obtain ⟨key, b⟩ := e
      by_cases hk : key = k
      · subst hk
        rw [others_cons_self, ih, lookup_cons_of_ne h]
      · rw [others_cons_of_ne hk, List.lookup_cons, List.lookup_cons, ih]

/-! ### New entries -/

theorem lookup_append (h : l.lookup k = none) : (l ++ [(k, v)]).lookup k = some v := by
  rw [List.lookup_append, h]
  simp

theorem nodup_append (hl : (l.map Prod.fst).Nodup) (h : l.lookup k = none) :
    ((l ++ [(k, v)]).map Prod.fst).Nodup := by
  rw [List.map_append, List.nodup_append]
  refine ⟨hl, by simp, ?_⟩
  intro a ha b hb
  obtain ⟨e, he, rfl⟩ := List.mem_map.mp ha
  simp only [List.map_cons, List.map_nil, List.mem_singleton] at hb
  exact hb ▸ lookup_eq_none.mp h e he

/-! ### Replacing -/

/-- If the entry it finds is that of the key, replacing keeps to the key. -/
theorem others_replaceFirst (h : firstKey test l = some k) :
    others k (replaceFirst test (k, v) l) = others k l := by
  induction l with
  | nil => cases h
  | cons e l ih =>
      obtain ⟨key, b⟩ := e
      rcases ht : test key with - | -
      · have hne : key ≠ k := by
          rintro rfl
          rw [test_of_firstKey h] at ht
          cases ht
        rw [firstKey_cons ht] at h
        simp only [replaceFirst, ht, Bool.false_eq_true, if_false]
        rw [others_cons_of_ne hne, others_cons_of_ne hne, ih h]
      · have hk : key = k := by simpa [firstKey, ht] using h
        subst hk
        simp only [replaceFirst, ht, if_true, others_cons_self]

theorem lookup_replaceFirst (h : firstKey test l = some k) :
    (replaceFirst test (k, v) l).lookup k = some v := by
  induction l with
  | nil => cases h
  | cons e l ih =>
      obtain ⟨key, b⟩ := e
      rcases ht : test key with - | -
      · have hne : k ≠ key := by
          rintro rfl
          rw [test_of_firstKey h] at ht
          cases ht
        rw [firstKey_cons ht] at h
        simp only [replaceFirst, ht, Bool.false_eq_true, if_false, lookup_cons_of_ne hne, ih h]
      · simp [replaceFirst, ht]

/-- Nothing is replaced if the key has the value already. -/
theorem eq_of_replaceFirst {b : β} (h : replaceFirst test (k, v) l = l) (ht : test k = true)
    (hb : l.lookup k = some b) : v = b := by
  induction l with
  | nil => cases hb
  | cons e l ih =>
      obtain ⟨key, b'⟩ := e
      rw [replaceFirst] at h
      split at h
      · obtain ⟨⟨rfl, rfl⟩, -⟩ : (k = key ∧ v = b') ∧ l = l := by simpa using h
        simpa using hb
      · rename_i hkey
        have hne : k ≠ key := by
          rintro rfl
          exact hkey ht
        rw [lookup_cons_of_ne hne] at hb
        exact ih (List.cons.inj h).2 hb

/-! ### Putting -/

/-- The key stands for the value from now on. -/
def put (k : κ) (v : β) (l : List (κ × β)) : List (κ × β) :=
  if (l.lookup k).isSome then replaceFirst (fun key => key = k) (k, v) l else l ++ [(k, v)]

theorem firstKey_self (h : (l.lookup k).isSome) : firstKey (fun key => key = k) l = some k := by
  induction l with
  | nil => cases h
  | cons e l ih =>
      obtain ⟨key, b⟩ := e
      by_cases hk : key = k
      · simp [firstKey, hk]
      · rw [lookup_cons_of_ne (Ne.symm hk)] at h
        rw [firstKey_cons (by simpa using hk), ih h]

theorem lookup_put : (put k v l).lookup k = some v := by
  rw [put]
  split
  · rename_i h
    exact lookup_replaceFirst (firstKey_self h)
  · rename_i h
    exact lookup_append (Option.not_isSome_iff_eq_none.mp h)

theorem others_put : others k (put k v l) = others k l := by
  rw [put]
  split
  · rename_i h
    exact others_replaceFirst (firstKey_self h)
  · exact others_append

/-- Another key stands for what it did. -/
theorem lookup_put_of_ne (h : k' ≠ k) : (put k v l).lookup k' = l.lookup k' := by
  rw [← lookup_others h, others_put, lookup_others h]

theorem nodup_put (hl : (l.map Prod.fst).Nodup) : ((put k v l).map Prod.fst).Nodup := by
  rw [put]
  split
  · rename_i h
    rwa [keys_replaceFirst (firstKey_self h)]
  · rename_i h
    exact nodup_append hl (Option.not_isSome_iff_eq_none.mp h)

/-! ### Removing -/

/-- The first entry of the key taken out. -/
def remove (k : κ) (l : List (κ × β)) : List (κ × β) := l.eraseP fun e => e.1 = k

theorem others_remove : others k (remove k l) = others k l := by
  induction l with
  | nil => rfl
  | cons e l ih =>
      obtain ⟨key, b⟩ := e
      by_cases hk : key = k
      · subst hk
        simp [remove, others]
      · have hcons : remove k ((key, b) :: l) = (key, b) :: remove k l := by simp [remove, hk]
        rw [hcons, others_cons_of_ne hk, others_cons_of_ne hk, ih]

theorem mem_of_mem_remove {e : κ × β} (h : e ∈ remove k l) : e ∈ l := List.mem_of_mem_eraseP h

theorem nodup_remove (hl : (l.map Prod.fst).Nodup) : ((remove k l).map Prod.fst).Nodup :=
  hl.sublist ((List.eraseP_sublist ..).map _)

/-- With distinct keys, the removed key stands for nothing. -/
theorem lookup_remove (hl : (l.map Prod.fst).Nodup) : (remove k l).lookup k = none := by
  induction l with
  | nil => rfl
  | cons e l ih =>
      obtain ⟨key, b⟩ := e
      rw [List.map_cons, List.nodup_cons] at hl
      by_cases hk : key = k
      · subst hk
        have hcons : remove key ((key, b) :: l) = l := by simp [remove]
        rw [hcons, lookup_eq_none]
        exact fun e he heq => hl.1 (List.mem_map.mpr ⟨e, he, heq⟩)
      · have hcons : remove k ((key, b) :: l) = (key, b) :: remove k l := by simp [remove, hk]
        rw [hcons, lookup_cons_of_ne (Ne.symm hk), ih hl.2]

end Keyed
