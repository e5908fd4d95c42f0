import Mathlib.Data.List.Pairwise
import Mathlib.Order.Lattice

/-!
# Ordered maps

A finite map is the list of its entries in the order of the keys.
-/

namespace ChittaField

/-- A finite map with ordered keys. -/
@[ext]
structure OrderedMap (κ α : Type*) [LinearOrder κ] where
  entries : List (κ × α)
  sorted : (entries.map Prod.fst).Pairwise (· < ·)

namespace OrderedMap

variable {κ α : Type*} [LinearOrder κ]

/-- The map without entries. -/
def empty : OrderedMap κ α := ⟨[], List.Pairwise.nil⟩

/-- The value of a key in a list of entries. -/
def find (k : κ) (es : List (κ × α)) : Option α := (es.find? fun e => e.1 = k).map Prod.snd

/-- The value of a key. -/
def get? (m : OrderedMap κ α) (k : κ) : Option α := find k m.entries

/-- The values in the order of their keys. -/
def values (m : OrderedMap κ α) : List α := m.entries.map Prod.snd

/-- Put an entry in its place, or change its value. -/
def insertEntry (k : κ) (v : α) : List (κ × α) → List (κ × α)
  | [] => [(k, v)]
  | e :: es =>
    if k < e.1 then (k, v) :: e :: es
    else if k = e.1 then (k, v) :: es
    else e :: insertEntry k v es

variable {es : List (κ × α)} {v : α}

lemma mem_keys_insertEntry {k k' : κ} :
    k' ∈ (insertEntry k v es).map Prod.fst ↔ k' = k ∨ k' ∈ es.map Prod.fst := by
  induction es with
  | nil => simp [insertEntry]
  | cons e es ih =>
    unfold insertEntry
    split
    · simp
    · split
      · rename_i heq
        simp [heq]
      · rw [List.map_cons, List.mem_cons, ih, List.map_cons, List.mem_cons, or_left_comm]

variable {k : κ}

lemma sorted_insertEntry (h : (es.map Prod.fst).Pairwise (· < ·)) :
    ((insertEntry k v es).map Prod.fst).Pairwise (· < ·) := by
  induction es with
  | nil => simp [insertEntry]
  | cons e es ih =>
    obtain ⟨hhead, htail⟩ := List.pairwise_cons.mp h
    unfold insertEntry
    split
    case isTrue hlt =>
      exact List.pairwise_cons.mpr ⟨List.forall_mem_cons.mpr
        ⟨hlt, fun k' hk' => lt_trans hlt (hhead k' hk')⟩, h⟩
    case isFalse hge =>
      split
      case isTrue heq => exact List.pairwise_cons.mpr ⟨heq ▸ hhead, htail⟩
      case isFalse hne =>
        refine List.pairwise_cons.mpr ⟨fun k' hk' => ?_, ih htail⟩
        rcases mem_keys_insertEntry.mp hk' with rfl | hk'
        · exact lt_of_le_of_ne (not_lt.mp hge) (Ne.symm hne)
        · exact hhead k' hk'

/-- Give a key a value. -/
def insert (m : OrderedMap κ α) (k : κ) (v : α) : OrderedMap κ α :=
  ⟨insertEntry k v m.entries, sorted_insertEntry m.sorted⟩

lemma find_cons {e : κ × α} : find k (e :: es) = if e.1 = k then some e.2 else find k es := by
  unfold find
  rw [List.find?_cons]
  split <;> simp_all

lemma find_eq_none (h : k ∉ es.map Prod.fst) : find k es = none := by
  unfold find
  rw [Option.map_eq_none_iff, List.find?_eq_none]
  intro e he hk
  exact h (List.mem_map.mpr ⟨e, he, by simpa using hk⟩)

lemma find_insertEntry {k k' : κ} :
    find k' (insertEntry k v es) = if k = k' then some v else find k' es := by
  induction es with
  | nil => simp [insertEntry, find_cons]
  | cons e es ih =>
    unfold insertEntry
    split
    · rw [find_cons]
    · split
      case isTrue heq =>
        rw [find_cons, find_cons]
        split
        · rfl
        · rw [if_neg (heq ▸ ‹_›)]
      case isFalse hne =>
        rw [find_cons, ih, find_cons]
        by_cases hk : k = k'
        · rw [if_neg (fun h => hne (hk.trans h.symm)), if_pos hk, if_pos hk]
        · rw [if_neg hk, if_neg hk]

@[simp]
lemma get?_empty (k : κ) : (empty : OrderedMap κ α).get? k = none := rfl

variable {m : OrderedMap κ α}

lemma get?_insert {k k' : κ} : (m.insert k v).get? k' = if k = k' then some v else m.get? k' :=
  find_insertEntry

@[simp]
lemma get?_insert_self : (m.insert k v).get? k = some v := by
  rw [get?_insert, if_pos rfl]

lemma get?_insert_of_ne {k k' : κ} (h : k ≠ k') : (m.insert k v).get? k' = m.get? k' := by
  rw [get?_insert, if_neg h]

lemma find_eq_some (h : (es.map Prod.fst).Pairwise (· < ·)) : find k es = some v ↔ (k, v) ∈ es := by
  induction es with
  | nil => simp [find]
  | cons e es ih =>
    obtain ⟨hhead, htail⟩ := List.pairwise_cons.mp h
    rw [find_cons, List.mem_cons]
    split
    case isTrue heq =>
      subst heq
      have hnot : (e.1, v) ∉ es := fun hmem =>
        lt_irrefl _ (hhead e.1 (List.mem_map.mpr ⟨_, hmem, rfl⟩))
      simp only [hnot, or_false, Option.some.injEq]
      constructor
      · rintro rfl
        rfl
      · exact fun h => (congrArg Prod.snd h).symm
    case isFalse hne =>
      rw [ih htail]
      constructor
      · exact Or.inr
      · rintro (rfl | hmem)
        · exact absurd rfl hne
        · exact hmem

lemma get?_eq_some : m.get? k = some v ↔ (k, v) ∈ m.entries :=
  find_eq_some m.sorted

lemma mem_values : v ∈ m.values ↔ ∃ k, m.get? k = some v := by
  simp only [values, List.mem_map, Prod.exists, exists_eq_right, get?_eq_some]

/-- Two maps with the same values are the same. -/
lemma ext_get? {m m' : OrderedMap κ α} (h : ∀ k, m.get? k = m'.get? k) : m = m' := by
  have hpairs : ∀ m : OrderedMap κ α, m.entries.Pairwise fun a b => a.1 < b.1 := fun m =>
    List.pairwise_map.mp m.sorted
  have hnodup : ∀ m : OrderedMap κ α, m.entries.Nodup := fun m =>
    (hpairs m).imp fun {a b} (hlt : a.1 < b.1) (heq : a = b) => lt_irrefl b.1 (heq ▸ hlt)
  have hperm : m.entries.Perm m'.entries := by
    rw [List.perm_ext_iff_of_nodup (hnodup m) (hnodup m')]
    rintro ⟨k, v⟩
    rw [← get?_eq_some, ← get?_eq_some, h]
  refine OrderedMap.ext (hperm.eq_of_pairwise (fun a b _ _ hab hba => ?_) (hpairs m) (hpairs m'))
  exact absurd (lt_trans hab hba) (lt_irrefl _)

/-! ## Joining -/

/-- Insert an entry unless the value that is there is to be kept. -/
def joinEntry (keep : α → α → Bool) (m : OrderedMap κ α) (e : κ × α) : OrderedMap κ α :=
  match m.get? e.1 with
  | some existing => if keep existing e.2 then m else m.insert e.1 e.2
  | none => m.insert e.1 e.2

/-- Insert the entries of another map, each unless the value that is there is to be kept. -/
def join (keep : α → α → Bool) (m older : OrderedMap κ α) : OrderedMap κ α :=
  older.entries.foldl (joinEntry keep) m

/-- The value after joining. -/
def joined (keep : α → α → Bool) : Option α → Option α → Option α
  | some existing, some v => some (if keep existing v then existing else v)
  | existing, none => existing
  | none, v => v

/-- Joining makes up no value. -/
lemma joined_mem {keep : α → α → Bool} {a b : Option α} (h : joined keep a b = some v) :
    a = some v ∨ b = some v := by
  cases a with
  | none => cases b <;> simp_all [joined]
  | some x =>
    cases b with
    | none => exact Or.inl h
    | some y =>
      simp only [joined, Option.some.injEq] at h
      split at h
      · exact Or.inl (congrArg some h)
      · exact Or.inr (congrArg some h)

lemma get?_joinEntry (keep : α → α → Bool) (m : OrderedMap κ α) (e : κ × α) (k : κ) :
    (joinEntry keep m e).get? k =
      if e.1 = k then joined keep (m.get? k) (some e.2) else m.get? k := by
  unfold joinEntry
  split
  case h_1 existing hex =>
    split
    case isTrue hkeep =>
      split
      case isTrue hk =>
        subst hk
        simp [hex, joined, hkeep]
      case isFalse => rfl
    case isFalse hkeep =>
      rw [get?_insert]
      split
      case isTrue hk =>
        subst hk
        simp [hex, joined, hkeep]
      case isFalse => rfl
  case h_2 hnone =>
    rw [get?_insert]
    split
    case isTrue hk =>
      subst hk
      simp [hnone, joined]
    case isFalse => rfl

/-- Each key is joined once. -/
lemma get?_join {keep : α → α → Bool} {m older : OrderedMap κ α} :
    (m.join keep older).get? k = joined keep (m.get? k) (older.get? k) := by
  obtain ⟨es, hes⟩ := older
  simp only [join, get?] at *
  induction es generalizing m with
  | nil => cases hm : m.get? k <;> simp_all [find, joined, get?]
  | cons e es ih =>
    obtain ⟨hhead, htail⟩ := List.pairwise_cons.mp hes
    have hstep := get?_joinEntry keep m e k
    rw [List.foldl_cons, ih htail, find_cons]
    simp only [get?] at hstep
    rw [hstep]
    split
    case isTrue hk =>
      have hnone : find k es = none := find_eq_none fun hmem => by
        subst hk
        exact lt_irrefl _ (hhead e.1 hmem)
      rw [hnone]
      cases hm : find k m.entries <;> simp [joined]
    case isFalse => rfl

end OrderedMap

end ChittaField
