import Mathlib.Data.Set.Insert
import Mathlib.Tactic.Tauto

/-!
# Listings under a current key

A thing is listed under keys and has a current key.  When it enters, it is listed under one key, and
the current key becomes the one that the thing says of itself, which may be another.  A drop takes it
from the list of the current key only.  So it is listed nowhere at the end iff each key that it was
ever listed under was current at some later drop.
-/

namespace ChittaField.Listings

/-- What happens to a thing. -/
inductive Event (κ : Type*) where
  | enter (listed current : κ)
  | rename (current : κ)
  | drop

/-- The keys that a thing is listed under, and its current key. -/
structure Register (κ : Type*) where
  keys : Set κ
  current : Option κ

variable {κ : Type*}

def Register.step (r : Register κ) : Event κ → Register κ
  | .enter listed current => ⟨insert listed r.keys, some current⟩
  | .rename current => ⟨r.keys, r.current.map fun _ => current⟩
  | .drop => ⟨{k ∈ r.keys | r.current ≠ some k}, r.current⟩

/-- The current key behind an event. -/
def follow (current : Option κ) : Event κ → Option κ
  | .enter _ key => some key
  | .rename key => current.map fun _ => key
  | .drop => current

/-- A key is current at some drop. -/
def Dropped (k : κ) : Option κ → List (Event κ) → Prop
  | _, [] => False
  | current, .drop :: es => current = some k ∨ Dropped k current es
  | current, e :: es => Dropped k (follow current e) es

/-- Every key that is listed is dropped later. -/
def Cleared : Option κ → List (Event κ) → Prop
  | _, [] => True
  | _, .enter listed key :: es => Dropped listed (some key) es ∧ Cleared (some key) es
  | current, e :: es => Cleared (follow current e) es

instance Dropped.decidable [DecidableEq κ] (k : κ) :
    ∀ (current : Option κ) (es : List (Event κ)), Decidable (Dropped k current es)
  | _, [] => inferInstanceAs (Decidable False)
  | current, .drop :: es =>
    @instDecidableOr _ _ (inferInstanceAs (Decidable (current = some k))) (decidable k current es)
  | _, .enter _ key :: es => decidable k (some key) es
  | current, .rename key :: es => decidable k (current.map fun _ => key) es

instance Cleared.decidable [DecidableEq κ] :
    ∀ (current : Option κ) (es : List (Event κ)), Decidable (Cleared current es)
  | _, [] => inferInstanceAs (Decidable True)
  | _, .enter listed key :: es =>
    @instDecidableAnd _ _ (Dropped.decidable listed (some key) es) (decidable (some key) es)
  | current, .rename key :: es => decidable (current.map fun _ => key) es
  | current, .drop :: es => decidable current es

/-- Nothing is listed at the end iff every key is dropped behind its listing. -/
theorem keys_run_eq_empty (es : List (Event κ)) (r : Register κ) :
    (es.foldl Register.step r).keys = ∅ ↔
      (∀ k ∈ r.keys, Dropped k r.current es) ∧ Cleared r.current es := by
  induction es generalizing r with
  | nil =>
    rw [List.foldl_nil, Set.eq_empty_iff_forall_notMem]
    exact (and_iff_left trivial).symm
  | cons e es ih =>
    rw [List.foldl_cons, ih]
    cases e with
    | enter =>
      simp only [Register.step, Set.forall_mem_insert, Dropped, Cleared, follow]
      tauto
    | rename => rfl
    | drop =>
      simp only [Register.step, Set.mem_sep_iff, Dropped, Cleared, follow]
      refine and_congr_left fun _ => forall_congr' fun k => ?_
      tauto

/-- A drop that nothing follows clears what was listed under the current key only. -/
theorem keys_run_new_eq_empty (es : List (Event κ)) :
    (es.foldl Register.step ⟨∅, none⟩).keys = ∅ ↔ Cleared none es :=
  (keys_run_eq_empty es _).trans (and_iff_right fun _ h => absurd h (Set.notMem_empty _))

/-! ## Things that stay -/

/-- A drop comes behind an entry; `known` says that there was one before. -/
def Dies : Bool → List (Event κ) → Bool
  | _, [] => false
  | _, .enter _ _ :: es => Dies true es
  | known, .rename _ :: es => Dies known es
  | known, .drop :: es => known || Dies known es

/-- The key under which an event lists the thing. -/
def entered : Event κ → Option κ
  | .enter listed _ => some listed
  | _ => none

/-- A thing that is dropped is dropped from everywhere; one that is not is listed under the last
current key only. -/
def Tracked (es : List (Event κ)) : Prop :=
  if Dies false es then Cleared none es
  else ∀ k ∈ es.filterMap entered, es.foldl follow none = some k

instance [DecidableEq κ] (es : List (Event κ)) : Decidable (Tracked es) :=
  inferInstanceAs (Decidable (if Dies false es then Cleared none es
    else ∀ k ∈ es.filterMap entered, es.foldl follow none = some k))

lemma current_run (es : List (Event κ)) (r : Register κ) :
    (es.foldl Register.step r).current = es.foldl follow r.current := by
  induction es generalizing r with
  | nil => rfl
  | cons e es ih =>
    rw [List.foldl_cons, List.foldl_cons, ih]
    cases e <;> rfl

/-- A thing has a current key once it has entered. -/
lemma isSome_follow (es : List (Event κ)) (current : Option κ) :
    (es.foldl follow current).isSome = (current.isSome || !(es.filterMap entered).isEmpty) := by
  induction es generalizing current with
  | nil => simp
  | cons e es ih =>
    rw [List.foldl_cons, ih]
    cases e <;> simp [follow, entered, List.filterMap_cons]

/-- A thing that is not dropped stays where it was listed. -/
lemma keys_run_of_not_dies {es : List (Event κ)} {r : Register κ}
    (h : Dies r.current.isSome es = false) :
    (es.foldl Register.step r).keys = r.keys ∪ {k | k ∈ es.filterMap entered} := by
  induction es generalizing r with
  | nil =>
    ext k
    simp
  | cons e es ih =>
    rw [List.foldl_cons]
    cases e with
    | enter =>
      rw [ih h]
      ext k
      simp [Register.step, entered, or_assoc, or_left_comm]
    | rename =>
      rw [ih (by rw [← h]; simp [Register.step, Dies])]
      ext k
      simp [Register.step, entered]
    | drop =>
      obtain ⟨hnone, hdies⟩ := Bool.or_eq_false_iff.mp h
      have hcurrent : r.current = none := by simpa using hnone
      rw [ih (by rw [← hdies]; rfl)]
      ext k
      simp [Register.step, entered, hcurrent]

/-- A thing is listed as it should be iff its events track it. -/
theorem keys_run_eq_iff (es : List (Event κ)) :
    (es.foldl Register.step ⟨∅, none⟩).keys =
      {k | Dies false es = false ∧ es.foldl follow none = some k} ↔ Tracked es := by
  unfold Tracked
  cases hdies : Dies false es with
  | true =>
    rw [if_pos rfl, ← keys_run_new_eq_empty]
    simp
  | false =>
    have hkeys : (es.foldl Register.step ⟨∅, none⟩).keys = {k | k ∈ es.filterMap entered} :=
      (keys_run_of_not_dies (r := ⟨∅, none⟩) hdies).trans (Set.empty_union _)
    rw [hkeys, if_neg Bool.false_ne_true]
    constructor
    · intro h k hk
      have hmem : k ∈ {k | false = false ∧ es.foldl follow none = some k} := h ▸ hk
      exact hmem.2
    · intro h
      ext k
      refine ⟨fun hk => ⟨rfl, h k hk⟩, fun hk => ?_⟩
      have hsome := isSome_follow es none
      rw [hk.2, Option.isSome_some, Option.isSome_none, Bool.false_or, eq_comm, Bool.not_eq_true',
        List.isEmpty_eq_false_iff] at hsome
      obtain ⟨k', hk'⟩ := List.exists_mem_of_ne_nil _ hsome
      have heq : some k' = some k := (h k' hk').symm.trans hk.2
      cases heq
      exact hk'

/-! ## Marks of a drop -/

/-- The mark behind an event: there is none before the first entry, and a drop is never taken back. -/
def mark (known : Option Bool) : Event κ → Option Bool
  | .enter _ _ => some (known.getD false)
  | .rename _ => known
  | .drop => known.map fun _ => true

lemma foldl_mark_some (es : List (Event κ)) (dead : Bool) :
    es.foldl mark (some dead) = some (dead || Dies true es) := by
  induction es generalizing dead with
  | nil => simp [Dies]
  | cons e es ih =>
    rw [List.foldl_cons]
    cases e with
    | enter => exact ih dead
    | rename => exact ih dead
    | drop =>
      refine (ih true).trans ?_
      simp [Dies]

/-- A thing is not marked iff it has entered and does not die. -/
lemma foldl_mark_none (es : List (Event κ)) :
    es.foldl mark none = some false ↔
      (es.foldl follow none).isSome = true ∧ Dies false es = false := by
  induction es with
  | nil => simp
  | cons e es ih =>
    rw [List.foldl_cons, List.foldl_cons]
    cases e with
    | enter =>
      have hmark := foldl_mark_some es false
      change es.foldl mark (some false) = some false ↔ _ ∧ Dies true es = false
      rw [hmark, follow, isSome_follow]
      simp
    | rename => exact ih
    | drop => exact ih

end ChittaField.Listings
