import Mathlib.Data.Nat.Notation
import Mathlib.Logic.Function.Basic

/-!
# Partial maps

A map is a function into an option type.  `modifyAt` changes the value of one key, if there is one.
-/

namespace ChittaField.Maps

variable {κ α β : Type*} [DecidableEq κ]

/-- Change the value of a key, if there is one. -/
def modifyAt (m : κ → Option α) (k : κ) (f : α → α) : κ → Option α :=
  Function.update m k ((m k).map f)

/-- Insert a value unless the key has one. -/
def orInsert (m : κ → Option α) (k : κ) (v : α) : κ → Option α :=
  Function.update m k (some ((m k).getD v))

/-- Append a value to those of a key. -/
def push (m : κ → Option (List α)) (k : κ) (v : α) : κ → Option (List α) :=
  Function.update m k (some ((m k).getD [] ++ [v]))

variable {m : κ → Option α} {k k' : κ} {f g : α → α}

/-- What holds of all values holds of them behind the change of one. -/
lemma forall_update {P : κ → α → Prop} (h : ∀ i v, m i = some v → P i v) {o : Option α}
    (ho : ∀ v, o = some v → P k v) : ∀ i v, Function.update m k o i = some v → P i v :=
  (Function.forall_update_iff m fun i o => ∀ v, o = some v → P i v).mpr ⟨ho, fun i _ => h i⟩

@[simp]
lemma modifyAt_self : modifyAt m k f k = (m k).map f := Function.update_self ..

@[simp]
lemma modifyAt_of_ne (h : k' ≠ k) : modifyAt m k f k' = m k' := Function.update_of_ne h ..

lemma modifyAt_apply : modifyAt m k f k' = (m k').map fun v => if k = k' then f v else v := by
  by_cases h : k' = k
  · subst h
    simp
  · simp [h, Ne.symm h]

/-- A key without a value stays so. -/
lemma modifyAt_of_none (h : m k = none) : modifyAt m k f = m := by
  rw [modifyAt, h]
  exact Function.update_eq_self_iff.mpr h.symm

lemma modifyAt_eq_none : modifyAt m k f k' = none ↔ m k' = none := by
  by_cases h : k' = k
  · subst h
    simp
  · simp [h]

lemma isSome_modifyAt : (modifyAt m k f k').isSome = (m k').isSome := by
  by_cases h : k' = k
  · subst h
    simp
  · simp [h]

/-- A view of the values sees a change as a change. -/
lemma map_modifyAt {p : α → β} {g : β → β} (h : ∀ a, p (f a) = g (p a)) :
    (fun k' => (modifyAt m k f k').map p) = modifyAt (fun k' => (m k').map p) k g := by
  funext k'
  by_cases hk : k' = k
  · subst hk
    simp [Function.comp_def, h]
  · simp [hk]

/-- A view of the values sees an update as an update. -/
lemma map_update (p : α → β) (v : Option α) :
    (fun k' => (Function.update m k v k').map p) =
      Function.update (fun k' => (m k').map p) k (v.map p) := by
  funext k'
  by_cases hk : k' = k
  · subst hk
    simp
  · simp [hk]

/-- The keys of a map after some insertions that keep what is there. -/
lemma isSome_foldl_orInsert (l : List (κ × α)) (m : κ → Option α) (k : κ) :
    (l.foldl (fun m p => orInsert m p.1 p.2) m k).isSome =
      ((m k).isSome || l.any fun p => p.1 = k) := by
  induction l generalizing m with
  | nil => simp
  | cons p l ih =>
    rw [List.foldl_cons, ih, List.any_cons, ← Bool.or_assoc]
    congr 1
    by_cases hk : k = p.1
    · subst hk
      simp [orInsert]
    · simp [orInsert, hk, Ne.symm hk]

end ChittaField.Maps
