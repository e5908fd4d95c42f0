import Mathlib.Data.List.Induction
import Mathlib.Data.List.Nodup

/-!
# Names in the order of first use

A name gets the next position when it is first used, and keeps it.  A table from names to numbers that
are read off the positions is an interner.
-/

namespace ChittaField.Interning

variable {α β : Type*} [DecidableEq α] {names l : List α} {a b : α}

/-- Add a name at the end, unless it is there. -/
def note (names : List α) (a : α) : List α := if a ∈ names then names else names ++ [a]

/-- Names in the order of first use. -/
def firsts (l : List α) : List α := l.foldl note []

lemma note_of_mem (h : a ∈ names) : note names a = names := if_pos h

lemma note_of_notMem (h : a ∉ names) : note names a = names ++ [a] := if_neg h

lemma mem_note : b ∈ note names a ↔ b ∈ names ∨ b = a := by
  unfold note
  split
  · rename_i ha
    constructor
    · exact Or.inl
    · rintro (hb | rfl)
      · exact hb
      · exact ha
  · rw [List.mem_append, List.mem_singleton]

/-- A name keeps its position. -/
lemma idxOf_note (h : b ∈ names) (a : α) : (note names a).idxOf b = names.idxOf b := by
  unfold note
  split
  · rfl
  · exact List.idxOf_append_of_mem h

lemma firsts_concat (l : List α) (a : α) : firsts (l ++ [a]) = note (firsts l) a := by
  rw [firsts, List.foldl_append]
  rfl

lemma mem_firsts : a ∈ firsts l ↔ a ∈ l := by
  induction l using List.reverseRecOn with
  | nil => rfl
  | append_singleton l b ih => rw [firsts_concat, mem_note, ih, List.mem_append, List.mem_singleton]

/-- A table has the names, each with what is read off its position, and no others. -/
def Interns (ofPos : ℕ → β) (names : List α) (table : α → Option β) : Prop :=
  ∀ a, table a = if a ∈ names then some (ofPos (names.idxOf a)) else none

variable {ofPos : ℕ → β} {table : α → Option β}

lemma interns_nil : Interns ofPos ([] : List α) fun _ => none := fun _ => rfl

lemma Interns.eq_some (h : Interns ofPos names table) (ha : a ∈ names) :
    table a = some (ofPos (names.idxOf a)) := by
  rw [h, if_pos ha]

lemma Interns.eq_none_iff (h : Interns ofPos names table) : table a = none ↔ a ∉ names := by
  rw [h]
  split
  · rename_i ha
    exact iff_of_false (Option.some_ne_none _) (not_not_intro ha)
  · rename_i ha
    exact iff_of_true rfl ha

/-- A new name is put into the table. -/
lemma Interns.update (h : Interns ofPos names table) (ha : a ∉ names) :
    Interns ofPos (names ++ [a]) (Function.update table a (some (ofPos names.length))) := by
  intro b
  by_cases hb : b = a
  · subst hb
    rw [Function.update_self, if_pos (List.mem_append_right names (List.mem_singleton_self b)),
      List.idxOf_append_of_notMem ha, List.idxOf_cons_self, Nat.add_zero]
  · rw [Function.update_of_ne hb, h]
    have hiff : b ∈ names ++ [a] ↔ b ∈ names := by
      rw [List.mem_append, List.mem_singleton]
      exact or_iff_left hb
    by_cases hmem : b ∈ names
    · rw [if_pos hmem, if_pos (hiff.mpr hmem), List.idxOf_append_of_mem hmem]
    · rw [if_neg hmem, if_neg (hiff.not.mpr hmem)]

/-- A bound on what a table has stays, if the new name meets it. -/
lemma bounded_update {f : β → ℕ} {n m : ℕ} {b : β} (h : ∀ a b, table a = some b → f b < n)
    (hnm : n ≤ m) (hb : f b < m) (a' : α) (b' : β)
    (hb' : Function.update table a (some b) a' = some b') : f b' < m := by
  by_cases ha : a' = a
  · subst ha
    rw [Function.update_self] at hb'
    exact Option.some.inj hb' ▸ hb
  · rw [Function.update_of_ne ha] at hb'
    exact Nat.lt_of_lt_of_le (h a' b' hb') hnm

end ChittaField.Interning
