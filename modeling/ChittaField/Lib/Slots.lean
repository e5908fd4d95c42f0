import Mathlib.Data.List.Basic

/-!
# Records in slots

Records stand in a list and are found through an index from ids to positions.  New records are
appended; the index takes the latest record of an id.
-/

namespace ChittaField.Slots

variable {α β : Type*}

/-- The record of an id. -/
def lookup (index : ℕ → Option ℕ) (entries : List α) (id : ℕ) : Option α :=
  (index id).bind fun idx => entries[idx]?

/-- The index behind a new record. -/
abbrev indexed (index : ℕ → Option ℕ) (entries : List α) (id : ℕ) : ℕ → Option ℕ :=
  Function.update index id (some entries.length)

variable {index : ℕ → Option ℕ} {entries : List α} {id : ℕ}

/-- A new record is found. -/
lemma lookup_append_self (a : α) :
    lookup (indexed index entries id) (entries ++ [a]) id = some a := by
  simp [lookup]

/-- A new record hides no id. -/
lemma isSome_lookup_append {id' : ℕ} (a : α) (h : (lookup index entries id').isSome = true) :
    (lookup (indexed index entries id) (entries ++ [a]) id').isSome = true := by
  by_cases hid : id' = id
  · subst hid
    rw [lookup_append_self]
    rfl
  · unfold lookup at h ⊢
    rw [indexed, Function.update_of_ne hid]
    cases hidx : index id' with
    | none => simp [hidx] at h
    | some i =>
      rw [hidx, Option.bind_some] at h
      obtain ⟨b, hb⟩ := Option.isSome_iff_exists.mp h
      rw [Option.bind_some, List.getElem?_append_left (List.getElem?_eq_some_iff.mp hb).1, hb]
      rfl

/-- What the function shows of records depends on what it shows of the list. -/
lemma map_lookup_congr {entries' : List α} (f : α → β) (h : entries.map f = entries'.map f) :
    (lookup index entries id).map f = (lookup index entries' id).map f := by
  unfold lookup
  cases index id with
  | none => rfl
  | some i => rw [Option.bind_some, Option.bind_some, ← List.getElem?_map, ← List.getElem?_map, h]

end ChittaField.Slots
