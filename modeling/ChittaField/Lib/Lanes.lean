import Mathlib.Data.List.Induction
import Mathlib.Data.List.Sort
import ChittaField.Lib.Maps

/-!
# Keyed lanes

A lane finds records by exact keys.  A record may carry several keys, and several records may carry
one.  The lane keeps the record that came first, the one that came last, or all of them, and it can
be rebuilt from the records in their order.
-/

namespace ChittaField.Lanes

variable {κ ι ρ : Type*} [DecidableEq κ]

/-! ## One record -/

/-- Index a record under keys that have none yet. -/
def indexFirst (idx : κ → Option ι) (id : ι) (keys : List κ) : κ → Option ι :=
  keys.foldl (fun idx k => Maps.orInsert idx k id) idx

/-- Index a record under keys in place of what is there. -/
def indexLatest (idx : κ → Option ι) (id : ι) (keys : List κ) : κ → Option ι :=
  keys.foldl (fun idx k => Function.update idx k (some id)) idx

/-- Index a record under keys beside what is there. -/
def indexAll [DecidableEq ι] (idx : κ → Option (List ι)) (id : ι) (keys : List κ) :
    κ → Option (List ι) :=
  keys.foldl (fun idx k =>
    Function.update idx k (some (if id ∈ (idx k).getD [] then (idx k).getD []
      else (idx k).getD [] ++ [id]))) idx

lemma indexFirst_apply (idx : κ → Option ι) (id : ι) (keys : List κ) (k : κ) :
    indexFirst idx id keys k = if k ∈ keys then some ((idx k).getD id) else idx k := by
  induction keys generalizing idx with
  | nil => simp [indexFirst]
  | cons key keys ih =>
    have hstep : indexFirst idx id (key :: keys) = indexFirst (Maps.orInsert idx key id) id keys :=
      rfl
    rw [hstep, ih]
    by_cases hk : k = key
    · subst hk
      simp [Maps.orInsert]
    · simp [Maps.orInsert, hk]

lemma indexLatest_apply (idx : κ → Option ι) (id : ι) (keys : List κ) (k : κ) :
    indexLatest idx id keys k = if k ∈ keys then some id else idx k := by
  induction keys generalizing idx with
  | nil => simp [indexLatest]
  | cons key keys ih =>
    have hstep : indexLatest idx id (key :: keys) =
        indexLatest (Function.update idx key (some id)) id keys := rfl
    rw [hstep, ih]
    by_cases hk : k = key
    · subst hk
      simp
    · simp [hk]

/-- Behind an addition a key has the records that it had, and the one that is added. -/
lemma mem_indexAll [DecidableEq ι] (idx : κ → Option (List ι)) (id : ι) (keys : List κ) (k : κ)
    (id' : ι) : id' ∈ (indexAll idx id keys k).getD [] ↔
      id' ∈ (idx k).getD [] ∨ id' = id ∧ k ∈ keys := by
  induction keys generalizing idx with
  | nil => simp [indexAll]
  | cons key keys ih =>
    refine (ih _).trans ?_
    by_cases hk : k = key
    · subst hk
      by_cases hid : id ∈ (idx k).getD []
      · simp only [Function.update_self, hid, if_true, Option.getD_some, List.mem_cons, true_or]
        refine or_congr_right' fun hnew => ⟨fun h => ⟨h.1, trivial⟩, fun h => ?_⟩
        exact absurd (h.1 ▸ hid) hnew
      · simp only [Function.update_self, hid, if_false, Option.getD_some, List.mem_append,
          List.mem_cons, true_or, and_true]
        tauto
    · simp [hk]

/-- A key has a record once. -/
lemma nodup_indexAll [DecidableEq ι] {idx : κ → Option (List ι)} {id : ι} (keys : List κ)
    (h : ∀ k, ((idx k).getD []).Nodup) (k : κ) : ((indexAll idx id keys k).getD []).Nodup := by
  induction keys generalizing idx with
  | nil => exact h k
  | cons key keys ih =>
    refine ih fun k => ?_
    by_cases hk : k = key
    · subst hk
      simp only [Function.update_self, Option.getD_some]
      split
      · exact h k
      · rename_i hnew
        exact List.nodup_append.mpr ⟨h k, List.nodup_singleton id, fun a ha b hb heq =>
          hnew (List.mem_singleton.mp hb ▸ heq ▸ ha)⟩
    · simpa [hk] using h k

/-! ## All records -/

variable (id : ρ → ι) (keys : ρ → List κ)

/-- Rebuild a lane that keeps the first record. -/
def first (records : List ρ) : κ → Option ι :=
  records.foldl (fun idx r => indexFirst idx (id r) (keys r)) fun _ => none

/-- Rebuild a lane that keeps the latest record. -/
def latest (records : List ρ) : κ → Option ι :=
  records.foldl (fun idx r => indexLatest idx (id r) (keys r)) fun _ => none

/-- Rebuild a lane that keeps all records. -/
def all [DecidableEq ι] (records : List ρ) : κ → Option (List ι) :=
  records.foldl (fun idx r => indexAll idx (id r) (keys r)) fun _ => none

/-- The first record that carries a key. -/
lemma first_apply (records : List ρ) (k : κ) :
    first id keys records k = (records.find? (k ∈ keys ·)).map id := by
  have hall : ∀ idx : κ → Option ι, records.foldl (fun idx r => indexFirst idx (id r) (keys r)) idx k =
      (idx k).or ((records.find? (k ∈ keys ·)).map id) := by
    induction records with
    | nil => exact fun idx => (Option.or_none).symm
    | cons r records ih =>
      intro idx
      rw [List.foldl_cons, ih, indexFirst_apply, List.find?_cons]
      by_cases hk : k ∈ keys r
      · cases hidx : idx k <;> simp [hk]
      · simp [hk]
  exact (hall _).trans (Option.none_or)

/-- A record is found that is the only one to carry a key. -/
lemma first_of_unique {records : List ρ} {k : κ} {r : ρ} (hr : r ∈ records) (hk : k ∈ keys r)
    (hunique : ∀ r' ∈ records, k ∈ keys r' → r' = r) : first id keys records k = some (id r) := by
  rw [first_apply]
  obtain ⟨r', hr'⟩ : ∃ r', records.find? (k ∈ keys ·) = some r' :=
    Option.isSome_iff_exists.mp (List.find?_isSome.mpr ⟨r, hr, by simpa using hk⟩)
  rw [hr', Option.map_some,
    hunique r' (List.mem_of_find?_eq_some hr') (by simpa using List.find?_some hr')]

/-- The latest record that carries a key. -/
lemma latest_apply (records : List ρ) (k : κ) :
    latest id keys records k = (records.reverse.find? (k ∈ keys ·)).map id := by
  induction records using List.reverseRecOn with
  | nil => rfl
  | append_singleton records r ih =>
    have hstep : latest id keys (records ++ [r]) =
        indexLatest (latest id keys records) (id r) (keys r) := List.foldl_concat ..
    rw [hstep, indexLatest_apply, ih, List.reverse_append, List.reverse_singleton,
      List.singleton_append, List.find?_cons]
    by_cases hk : k ∈ keys r
    · simp [hk]
    · simp [hk]

lemma all_concat [DecidableEq ι] (records : List ρ) (r : ρ) :
    all id keys (records ++ [r]) = indexAll (all id keys records) (id r) (keys r) :=
  List.foldl_concat ..

/-- All records that carry a key. -/
lemma mem_all [DecidableEq ι] (records : List ρ) (k : κ) (i : ι) :
    i ∈ (all id keys records k).getD [] ↔ ∃ r ∈ records, id r = i ∧ k ∈ keys r := by
  induction records using List.reverseRecOn with
  | nil => simp [all]
  | append_singleton records r ih =>
    rw [all_concat, mem_indexAll, ih]
    simp only [List.mem_append, List.mem_singleton]
    constructor
    · rintro (⟨r', hr', h⟩ | ⟨rfl, hk⟩)
      · exact ⟨r', Or.inl hr', h⟩
      · exact ⟨r, Or.inr rfl, rfl, hk⟩
    · rintro ⟨r', hr' | rfl, h⟩
      · exact Or.inl ⟨r', hr', h⟩
      · exact Or.inr ⟨h.1.symm, h.2⟩

lemma nodup_all [DecidableEq ι] (records : List ρ) (k : κ) :
    ((all id keys records k).getD []).Nodup := by
  induction records using List.reverseRecOn generalizing k with
  | nil => exact List.nodup_nil
  | append_singleton records r ih =>
    rw [all_concat]
    exact nodup_indexAll (keys r) ih k

/-! ## Records in order -/

variable {id keys} {α : Type*} [LinearOrder α] {rank : ρ → α} {records : List ρ}

/-- In a list that is sorted, what is found is least. -/
lemma le_of_find? (hsorted : records.Pairwise (rank · ≤ rank ·)) {p : ρ → Bool} {r r' : ρ}
    (hfind : records.find? p = some r) (hr' : r' ∈ records) (hp : p r' = true) :
    rank r ≤ rank r' := by
  induction records with
  | nil => cases hr'
  | cons head tail ih =>
    rw [List.find?_cons] at hfind
    rw [List.pairwise_cons] at hsorted
    split at hfind
    · obtain rfl : head = r := Option.some.inj hfind
      rcases List.mem_cons.mp hr' with rfl | hr'
      · exact le_rfl
      · exact hsorted.1 r' hr'
    · rename_i hhead
      rcases List.mem_cons.mp hr' with rfl | hr'
      · rw [hp] at hhead
        cases hhead
      · exact ih hsorted.2 hfind hr'

/-- The rebuilt lane has a least record of a key. -/
lemma first_least (hsorted : records.Pairwise (rank · ≤ rank ·)) {k : κ} {r' : ρ}
    (hr' : r' ∈ records) (hk : k ∈ keys r') :
    ∃ r ∈ records, first id keys records k = some (id r) ∧ k ∈ keys r ∧ rank r ≤ rank r' := by
  obtain ⟨r, hr⟩ : ∃ r, records.find? (k ∈ keys ·) = some r :=
    Option.isSome_iff_exists.mp (List.find?_isSome.mpr ⟨r', hr', by simpa using hk⟩)
  refine ⟨r, List.mem_of_find?_eq_some hr, ?_, by simpa using List.find?_some hr, ?_⟩
  · rw [first_apply, hr, Option.map_some]
  · exact le_of_find? hsorted hr hr' (by simpa using hk)

/-- The rebuilt lane has a greatest record of a key. -/
lemma latest_greatest (hsorted : records.Pairwise (rank · ≤ rank ·)) {k : κ} {r' : ρ}
    (hr' : r' ∈ records) (hk : k ∈ keys r') :
    ∃ r ∈ records, latest id keys records k = some (id r) ∧ k ∈ keys r ∧ rank r' ≤ rank r := by
  obtain ⟨r, hr⟩ : ∃ r, records.reverse.find? (k ∈ keys ·) = some r :=
    Option.isSome_iff_exists.mp
      (List.find?_isSome.mpr ⟨r', List.mem_reverse.mpr hr', by simpa using hk⟩)
  refine ⟨r, List.mem_reverse.mp (List.mem_of_find?_eq_some hr), ?_,
    by simpa using List.find?_some hr, ?_⟩
  · rw [latest_apply, hr, Option.map_some]
  · have hreverse : records.reverse.Pairwise fun a b =>
        OrderDual.toDual (rank a) ≤ OrderDual.toDual (rank b) :=
      List.pairwise_reverse.mpr hsorted
    exact le_of_find? hreverse hr (List.mem_reverse.mpr hr') (by simpa using hk)

/-- A key of the rebuilt lane has a record that carries it. -/
lemma exists_of_first {k : κ} {i : ι} (h : first id keys records k = some i) :
    ∃ r ∈ records, id r = i ∧ k ∈ keys r := by
  rw [first_apply, Option.map_eq_some_iff] at h
  obtain ⟨r, hr, rfl⟩ := h
  exact ⟨r, List.mem_of_find?_eq_some hr, rfl, by simpa using List.find?_some hr⟩

lemma exists_of_latest {k : κ} {i : ι} (h : latest id keys records k = some i) :
    ∃ r ∈ records, id r = i ∧ k ∈ keys r := by
  rw [latest_apply, Option.map_eq_some_iff] at h
  obtain ⟨r, hr, rfl⟩ := h
  exact ⟨r, List.mem_reverse.mp (List.mem_of_find?_eq_some hr), rfl,
    by simpa using List.find?_some hr⟩

end ChittaField.Lanes
