import Mathlib.Data.Finmap
import ChittaField.Lib.Lists

/-!
# Hash maps

A hash map is a finite map that is iterated in some order of its keys.  A map that is collected from
some keys has the values that the keys give.
-/

namespace ChittaField.HashMaps

variable {α : Type*} [DecidableEq α] {V : Type*}

/-- An order in which hash maps are iterated. -/
structure KeyOrder (α : Type*) where
  list : Finset α → List α
  mem : ∀ s x, x ∈ list s ↔ x ∈ s
  nodup : ∀ s, (list s).Nodup

/-- The order of the keys themselves. -/
def sorted {α : Type*} [LinearOrder α] : KeyOrder α where
  list s := Quot.liftOn s.val (fun l => l.insertionSort (· ≤ ·)) fun _ _ h =>
    Lists.insertionSort_perm h
  mem s x := by
    obtain ⟨⟨l⟩, hl⟩ := s
    exact (List.perm_insertionSort (· ≤ ·) l).mem_iff
  nodup s := by
    obtain ⟨⟨l⟩, hl⟩ := s
    exact (List.perm_insertionSort (· ≤ ·) l).nodup_iff.mpr hl

/-- The order of numbers. -/
def upwards : KeyOrder ℕ := sorted

/-- The other way round. -/
def KeyOrder.reverse {α : Type*} (order : KeyOrder α) : KeyOrder α where
  list s := (order.list s).reverse
  mem s x := List.mem_reverse.trans (order.mem s x)
  nodup s := List.nodup_reverse.mpr (order.nodup s)

/-- Collect the values that some keys give. -/
def collect (xs : List α) (f : α → Option V) : Finmap fun _ : α => V :=
  xs.foldl (fun m x => (f x).elim m (m.insert x)) ∅

/-- The entries, in an order of the keys. -/
def entries (order : KeyOrder α) (m : Finmap fun _ : α => V) : List (α × V) :=
  (order.list m.keys).filterMap fun x => (m.lookup x).map (x, ·)

/-- Erase some keys. -/
def eraseAll (m : Finmap fun _ : α => V) (xs : List α) : Finmap fun _ : α => V :=
  xs.foldl (fun m x => m.erase x) m

/-- Push values to the lists of their keys. -/
def pushAll (m : Finmap fun _ : α => List V) (es : List (α × V)) : Finmap fun _ : α => List V :=
  es.foldl (fun m e => m.insert e.1 ((m.lookup e.1).getD [] ++ [e.2])) m

variable {m : Finmap fun _ : α => V} {xs : List α} {x y : α}

lemma mem_keys_iff : x ∈ m.keys ↔ (m.lookup x).isSome = true := by
  rw [Finmap.mem_keys, Finmap.lookup_isSome]

lemma lookup_eq_none_iff : m.lookup x = none ↔ x ∉ m.keys := by
  rw [mem_keys_iff, Bool.not_eq_true, Option.isSome_eq_false_iff, Option.isNone_iff_eq_none]

lemma lookup_collect (f : α → Option V) : (collect xs f).lookup x = if x ∈ xs then f x else none := by
  suffices hfold : ∀ (xs : List α) (m : Finmap fun _ : α => V), (∀ x, m.lookup x = f x ∨ m.lookup x = none) →
      (xs.foldl (fun m x => (f x).elim m (m.insert x)) m).lookup x =
        if x ∈ xs then f x else m.lookup x by
    exact hfold xs ∅ fun x => Or.inr (Finmap.lookup_empty x)
  intro xs
  induction xs with
  | nil => exact fun m _ => rfl
  | cons y xs ih =>
    intro m hm
    rw [List.foldl_cons]
    cases hy : f y with
    | none =>
      rw [Option.elim_none, ih m hm]
      by_cases hx : x = y
      · subst hx
        have hnone : m.lookup x = none := (hm x).elim (fun h => h.trans hy) id
        simp [hy, hnone]
      · simp [hx]
    | some v =>
      rw [Option.elim_some, ih]
      · by_cases hx : x = y
        · subst hx
          simp [hy]
        · simp [hx, Finmap.lookup_insert_of_ne _ hx]
      · intro z
        by_cases hz : z = y
        · subst hz
          exact Or.inl (by rw [Finmap.lookup_insert, hy])
        · rw [Finmap.lookup_insert_of_ne _ hz]
          exact hm z

/-- Values that are replaced keep their keys. -/
lemma lookup_collect_map {W : Type*} (order : KeyOrder α) (f : V → W) :
    (collect (order.list m.keys) fun x => (m.lookup x).map f).lookup x = (m.lookup x).map f := by
  rw [lookup_collect]
  split_ifs with hx
  · rfl
  · rw [order.mem, ← lookup_eq_none_iff] at hx
    rw [hx]
    rfl

lemma keys_eq_of_lookup {W : Type*} {m' : Finmap fun _ : α => W}
    (h : ∀ x, (m'.lookup x).isSome = (m.lookup x).isSome) : m'.keys = m.keys := by
  ext x
  rw [mem_keys_iff, mem_keys_iff, h x]

lemma keys_collect_map {W : Type*} (order : KeyOrder α) (f : V → W) :
    (collect (order.list m.keys) fun x => (m.lookup x).map f).keys = m.keys :=
  keys_eq_of_lookup fun x => by rw [lookup_collect_map, Option.isSome_map]

lemma map_fst_entries (order : KeyOrder α) : (entries order m).map (·.1) = order.list m.keys := by
  rw [entries, List.map_filterMap]
  have hall : ∀ x ∈ order.list m.keys, ((m.lookup x).map (x, ·)).map (·.1) = some x := by
    intro x hx
    obtain ⟨v, hv⟩ := Option.isSome_iff_exists.mp (mem_keys_iff.mp ((order.mem _ x).mp hx))
    rw [hv]
    rfl
  rw [List.filterMap_congr hall, List.filterMap_some]

lemma mem_entries {order : KeyOrder α} {e : α × V} : e ∈ entries order m ↔ m.lookup e.1 = some e.2 := by
  obtain ⟨x, v⟩ := e
  rw [entries, List.mem_filterMap]
  constructor
  · rintro ⟨y, -, hy⟩
    obtain ⟨w, hw, heq⟩ := Option.map_eq_some_iff.mp hy
    obtain ⟨rfl, rfl⟩ := Prod.mk.inj heq
    exact hw
  · intro hx
    have hkey : x ∈ m.keys := mem_keys_iff.mpr (by rw [hx]; rfl)
    exact ⟨x, (order.mem _ x).mpr hkey, by rw [hx]; rfl⟩

lemma nodup_entries (order : KeyOrder α) : ((entries order m).map (·.1)).Nodup := by
  rw [map_fst_entries]
  exact order.nodup _

lemma keys_insert {v : V} : (m.insert x v).keys = insert x m.keys := by
  ext y
  rw [Finmap.mem_keys, Finset.mem_insert, Finmap.mem_keys]
  exact Finmap.mem_insert

lemma lookup_eraseAll : (eraseAll m xs).lookup x = if x ∈ xs then none else m.lookup x := by
  unfold eraseAll
  induction xs generalizing m with
  | nil => rfl
  | cons y xs ih =>
    rw [List.foldl_cons, ih]
    by_cases hx : x = y
    · subst hx
      simp
    · simp [hx, Finmap.lookup_erase_ne hx]

/-- Where all keys are erased nothing is left. -/
lemma lookup_eraseAll_of_subset (h : ∀ x ∈ m.keys, x ∈ xs) (x : α) : (eraseAll m xs).lookup x = none := by
  rw [lookup_eraseAll]
  split_ifs with hx
  · rfl
  · exact lookup_eq_none_iff.mpr fun hkey => hx (h x hkey)

lemma keys_eraseAll : (eraseAll m xs).keys = m.keys.filter (· ∉ xs) := by
  ext x
  rw [Finset.mem_filter, mem_keys_iff, mem_keys_iff, lookup_eraseAll]
  split_ifs with hx
  · simp [hx]
  · simp [hx]

/-- A list has what it had and what was pushed to it. -/
lemma getD_lookup_pushAll {m : Finmap fun _ : α => List V} {es : List (α × V)} :
    ((pushAll m es).lookup x).getD [] = (m.lookup x).getD [] ++ (es.filter (·.1 = x)).map (·.2) := by
  unfold pushAll
  induction es generalizing m with
  | nil => exact (List.append_nil _).symm
  | cons e es ih =>
    rw [List.foldl_cons, ih]
    by_cases hx : e.1 = x
    · subst hx
      simp
    · rw [Finmap.lookup_insert_of_ne _ (Ne.symm hx), List.filter_cons_of_neg (by simpa using hx)]

lemma mem_keys_pushAll {m : Finmap fun _ : α => List V} {es : List (α × V)} :
    x ∈ (pushAll m es).keys ↔ x ∈ m.keys ∨ x ∈ es.map (·.1) := by
  unfold pushAll
  induction es generalizing m with
  | nil => simp
  | cons e es ih =>
    rw [List.foldl_cons, ih, keys_insert, Finset.mem_insert, List.map_cons, List.mem_cons, or_assoc,
      or_left_comm]

end ChittaField.HashMaps
