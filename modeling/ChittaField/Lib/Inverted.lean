import Mathlib.Data.Finmap

/-!
# Inverted indexes

Postings have for every key the things that the key was assigned to; buckets that get empty are
dropped.  Positions tell where a thing stands in a vector; what is removed from the vector gives its
place to the last entry.  Both are exact as long as every change is made on both sides.
-/

namespace ChittaField.Inverted

section Postings

variable {ι κ : Type*} [DecidableEq ι] [DecidableEq κ]

/-- Put a thing into a bucket. -/
def addKey (x : ι) (b : κ → Option (List ι)) (k : κ) : κ → Option (List ι) :=
  Function.update b k (some ((b k).getD [] ++ [x]))

/-- Put a thing into the buckets of its keys. -/
def add (x : ι) (keys : List κ) (b : κ → Option (List ι)) : κ → Option (List ι) :=
  keys.foldl (addKey x) b

/-- Take a thing out of a bucket, and drop the bucket if it is empty. -/
def dropKey (x : ι) (b : κ → Option (List ι)) (k : κ) : κ → Option (List ι) :=
  Function.update b k (((b k).map fun members => members.filter (· ≠ x)).filter (· ≠ []))

/-- Take a thing out of the buckets of its keys. -/
def drop (x : ι) (keys : List κ) (b : κ → Option (List ι)) : κ → Option (List ι) :=
  keys.foldl (dropKey x) b

/-- No bucket is empty, and none has a thing twice. -/
def Tight (b : κ → Option (List ι)) : Prop := ∀ k xs, b k = some xs → xs ≠ [] ∧ xs.Nodup

/-- A bucket holds what its key is assigned to, each once, and no bucket is empty. -/
structure Inverse (b : κ → Option (List ι)) (assigned : ι → List κ) : Prop where
  mem : ∀ k x, x ∈ (b k).getD [] ↔ k ∈ assigned x
  tight : Tight b

variable {b : κ → Option (List ι)} {assigned : ι → List κ} {x y : ι} {k k' : κ} {keys : List κ}

omit [DecidableEq ι] [DecidableEq κ] in
lemma inverse_empty : Inverse (fun _ : κ => (none : Option (List ι))) fun _ => [] :=
  ⟨fun _ _ => by simp, fun _ _ h => absurd h (by simp)⟩

omit [DecidableEq ι] in
lemma mem_addKey : y ∈ (addKey x b k k').getD [] ↔ y ∈ (b k').getD [] ∨ (y = x ∧ k' = k) := by
  unfold addKey
  rw [Function.update_apply]
  split_ifs with hk
  · subst hk
    simp
  · simp [hk]

omit [DecidableEq ι] in
lemma mem_add : y ∈ (add x keys b k).getD [] ↔ y ∈ (b k).getD [] ∨ (y = x ∧ k ∈ keys) := by
  unfold add
  induction keys generalizing b with
  | nil => simp
  | cons key keys ih =>
    rw [List.foldl_cons, ih, mem_addKey, List.mem_cons]
    tauto

omit [DecidableEq ι] in
/-- A bucket that is dropped held nothing. -/
lemma mem_filter_ne_nil {bucket : Option (List ι)} :
    y ∈ (bucket.filter (· ≠ [])).getD [] ↔ y ∈ bucket.getD [] := by
  cases bucket with
  | none => exact Iff.rfl
  | some members =>
    rw [Option.filter_some]
    split_ifs with hmembers
    · exact Iff.rfl
    · have hnil : members = [] := by simpa using hmembers
      simp [hnil]

lemma mem_dropKey : y ∈ (dropKey x b k k').getD [] ↔ y ∈ (b k').getD [] ∧ ¬(y = x ∧ k' = k) := by
  unfold dropKey
  rw [Function.update_apply]
  split_ifs with hk
  · rw [mem_filter_ne_nil, hk]
    cases b k with
    | none => simp
    | some => simp [List.mem_filter]
  · simp [hk]

lemma mem_drop : y ∈ (drop x keys b k).getD [] ↔ y ∈ (b k).getD [] ∧ ¬(y = x ∧ k ∈ keys) := by
  unfold drop
  induction keys generalizing b with
  | nil => simp
  | cons key keys ih =>
    rw [List.foldl_cons, ih, mem_dropKey, List.mem_cons]
    tauto

omit [DecidableEq ι] in
lemma Tight.add (h : Tight b) (hkeys : keys.Nodup) (hout : ∀ k ∈ keys, x ∉ (b k).getD []) :
    Tight (add x keys b) := by
  unfold Inverted.add
  induction keys generalizing b with
  | nil => exact h
  | cons key keys ih =>
    obtain ⟨hkey, hkeys⟩ := List.nodup_cons.mp hkeys
    obtain ⟨hhead, hout⟩ := List.forall_mem_cons.mp hout
    refine ih (fun k xs hxs => ?_) hkeys fun k hk => ?_
    · rw [addKey, Function.update_apply] at hxs
      split_ifs at hxs
      · obtain rfl := Option.some.inj hxs
        have hold : ((b key).getD []).Nodup := by
          cases hb : b key with
          | none => exact List.nodup_nil
          | some members => exact (h key members hb).2
        refine ⟨by simp, List.nodup_append.mpr ⟨hold, List.nodup_singleton x, fun a ha c hc => ?_⟩⟩
        rw [List.mem_singleton.mp hc]
        rintro rfl
        exact hhead ha
      · exact h k xs hxs
    · rw [mem_addKey]
      rintro (hmem | ⟨-, rfl⟩)
      · exact hout k hk hmem
      · exact hkey hk

lemma Tight.drop (h : Tight b) : Tight (drop x keys b) := by
  unfold Inverted.drop
  induction keys generalizing b with
  | nil => exact h
  | cons key keys ih =>
    refine ih fun k xs hxs => ?_
    rw [dropKey, Function.update_apply] at hxs
    split_ifs at hxs
    · obtain ⟨hmap, hne⟩ := Option.filter_eq_some_iff.mp hxs
      obtain ⟨members, hmembers, rfl⟩ := Option.map_eq_some_iff.mp hmap
      exact ⟨of_decide_eq_true hne, (h key members hmembers).2.filter _⟩
    · exact h k xs hxs

/-- Assign keys to a thing that has none. -/
lemma Inverse.add (h : Inverse b assigned) (hx : assigned x = []) (hkeys : keys.Nodup) :
    Inverse (add x keys b) (Function.update assigned x keys) := by
  refine ⟨fun k y => ?_, h.tight.add hkeys fun k _ hmem => ?_⟩
  · rw [mem_add, h.mem, Function.update_apply]
    split_ifs with hy
    · subst hy
      simp [hx]
    · simp [hy]
  · have hk := (h.mem k x).mp hmem
    rw [hx] at hk
    exact List.not_mem_nil hk

/-- Take its keys from a thing. -/
lemma Inverse.drop (h : Inverse b assigned) (hx : assigned x = keys) :
    Inverse (drop x keys b) (Function.update assigned x []) := by
  refine ⟨fun k y => ?_, h.tight.drop⟩
  rw [mem_drop, h.mem, Function.update_apply]
  split_ifs with hy
  · subst hy
    simp [hx]
  · simp [hy]

/-- Assign keys to some things, one after the other. -/
lemma inverse_foldl (keysOf : ι → List κ) (hkeys : ∀ x, (keysOf x).Nodup) {xs : List ι}
    (hnodup : xs.Nodup) :
    Inverse (xs.foldl (fun b x => Inverted.add x (keysOf x) b) fun _ => none)
      fun x => if x ∈ xs then keysOf x else [] := by
  suffices hfold : ∀ (xs : List ι) (b : κ → Option (List ι)) (assigned : ι → List κ),
      Inverse b assigned → (∀ x ∈ xs, assigned x = []) → xs.Nodup →
      Inverse (xs.foldl (fun b x => Inverted.add x (keysOf x) b) b)
        fun x => if x ∈ xs then keysOf x else assigned x from
    hfold xs _ _ inverse_empty (fun _ _ => rfl) hnodup
  intro xs
  induction xs with
  | nil => exact fun b assigned h _ _ => by simpa using h
  | cons x xs ih =>
    intro b assigned h hout hnodup
    obtain ⟨hx, hnodup⟩ := List.nodup_cons.mp hnodup
    obtain ⟨hhead, hout⟩ := List.forall_mem_cons.mp hout
    have hleft : ∀ y ∈ xs, Function.update assigned x (keysOf x) y = [] := by
      intro y hy
      have hne : y ≠ x := fun heq => hx (heq ▸ hy)
      rw [Function.update_of_ne hne]
      exact hout y hy
    have hsame : (fun y => if y ∈ xs then keysOf y else Function.update assigned x (keysOf x) y) =
        fun y => if y ∈ x :: xs then keysOf y else assigned y := by
      funext y
      by_cases hy : y = x
      · subst hy
        simp
      · simp [hy]
    exact hsame ▸ ih _ _ (h.add hhead (hkeys x)) hleft hnodup

end Postings

section Positions

variable {ι γ : Type*}

/-- A vector of things, and where each of them stands. -/
structure Placed (ι γ : Type*) where
  vec : List (ι × γ)
  pos : ι → Option ℕ

namespace Placed

def empty : Placed ι γ := ⟨[], fun _ => none⟩

/-- Positions are those in the vector. -/
def Exact (p : Placed ι γ) : Prop := ∀ x i, p.pos x = some i ↔ p.vec[i]?.map (·.1) = some x

variable {p : Placed ι γ} {x y : ι} {c : γ}

lemma exact_empty : (empty : Placed ι γ).Exact := fun x i => by simp [empty]

/-- What has a position is in the vector. -/
lemma Exact.mem_iff (h : p.Exact) : x ∈ p.vec.map (·.1) ↔ (p.pos x).isSome = true := by
  rw [List.mem_iff_getElem?, Option.isSome_iff_exists]
  simp only [List.getElem?_map, h x]

/-- A thing stands in the vector once. -/
lemma Exact.nodup (h : p.Exact) : (p.vec.map (·.1)).Nodup := by
  rw [List.nodup_iff_getElem?_ne_getElem?]
  intro i j hij hj heq
  rw [List.getElem?_map, List.getElem?_map] at heq
  rw [List.length_map] at hj
  obtain ⟨x, hx⟩ : ∃ x, p.vec[j]?.map (·.1) = some x := ⟨_, by rw [List.getElem?_eq_getElem hj]; rfl⟩
  have hi := (h x i).mpr (heq.trans hx)
  rw [(h x j).mpr hx] at hi
  exact absurd (Option.some.inj hi) (by omega)

variable [DecidableEq ι]

/-- Put a thing at the end. -/
def push (p : Placed ι γ) (x : ι) (c : γ) : Placed ι γ :=
  ⟨p.vec ++ [(x, c)], Function.update p.pos x (some p.vec.length)⟩

/-- Put the last entry in the place of a thing. -/
def swapRemove (p : Placed ι γ) (x : ι) : Placed ι γ :=
  match p.pos x with
  | none => p
  | some i =>
    match p.vec.getLast? with
    | none => ⟨p.vec, Function.update p.pos x none⟩
    | some last =>
      let pos := if i = p.vec.length - 1 then p.pos else Function.update p.pos last.1 (some i)
      ⟨(p.vec.set i last).dropLast, Function.update pos x none⟩

lemma map_push : (p.push x c).vec.map (·.1) = p.vec.map (·.1) ++ [x] := by
  simp [Placed.push]

lemma Exact.push (h : p.Exact) (hx : p.pos x = none) : (p.push x c).Exact := by
  have hout : ∀ i : ℕ, p.vec[i]?.map (·.1) ≠ some x := fun i hi => by
    rw [(h x i).mpr hi] at hx
    exact absurd hx (by simp)
  intro y i
  have hvec : (p.push x c).vec[i]?.map (·.1) =
      if i = p.vec.length then some x else p.vec[i]?.map (·.1) := by
    rw [Placed.push]
    rcases lt_trichotomy i p.vec.length with hlt | rfl | hgt
    · rw [List.getElem?_append_left hlt, if_neg (by omega)]
    · simp
    · rw [List.getElem?_eq_none (by simp; omega), List.getElem?_eq_none (by omega), if_neg (by omega)]
  rw [hvec]
  unfold Placed.push
  dsimp only
  rw [Function.update_apply]
  by_cases hy : y = x
  · subst hy
    rw [if_pos rfl]
    split_ifs with hi
    · simp [hi]
    · constructor
      · exact fun heq => absurd (Option.some.inj heq).symm hi
      · exact fun hmem => absurd hmem (hout i)
  · rw [if_neg hy, h y i]
    split_ifs with hi
    · rw [hi, List.getElem?_eq_none (le_refl _)]
      constructor
      · exact fun hnone => absurd hnone (by simp)
      · exact fun heq => absurd (Option.some.inj heq).symm hy
    · exact Iff.rfl

/-- The last entry takes the place, so all others keep theirs. -/
lemma Exact.swapRemove (h : p.Exact) (x : ι) : (p.swapRemove x).Exact := by
  unfold Placed.swapRemove
  cases hx : p.pos x with
  | none => exact h
  | some i =>
    have hi : p.vec[i]?.map (·.1) = some x := (h x i).mp hx
    have hlt : i < p.vec.length := by
      by_contra hge
      rw [List.getElem?_eq_none (by omega)] at hi
      exact absurd hi (by simp)
    have hget : p.vec.getLast? = p.vec[p.vec.length - 1]? := List.getLast?_eq_getElem?
    obtain ⟨last, hlast⟩ : ∃ last, p.vec[p.vec.length - 1]? = some last :=
      ⟨_, List.getElem?_eq_getElem (by omega)⟩
    have hposLast : p.pos last.1 = some (p.vec.length - 1) := (h _ _).mpr (by rw [hlast]; rfl)
    rw [hget, hlast]
    dsimp only
    intro y j
    have hvec : ((p.vec.set i last).dropLast)[j]?.map (·.1) =
        if j < p.vec.length - 1 then if j = i then some last.1 else p.vec[j]?.map (·.1) else none := by
      rw [List.getElem?_dropLast, List.length_set]
      split_ifs with hj hji
      · rw [hji, List.getElem?_set_self hlt]
        rfl
      · rw [List.getElem?_set_ne (fun heq => hji heq.symm)]
      · rfl
    dsimp only
    rw [hvec, Function.update_apply]
    have hat : ∀ z (k l : ℕ), p.pos z = some k → p.pos z = some l → k = l := fun z k l hk hl =>
      Option.some.inj (hk.symm.trans hl)
    by_cases hy : y = x
    · subst hy
      rw [if_pos rfl]
      refine ⟨fun hnone => absurd hnone (by simp), fun heq => ?_⟩
      split_ifs at heq with hj hji
      · have hsame := Option.some.inj heq
        rw [hsame] at hposLast
        exact absurd (hat y i _ hx hposLast) (by omega)
      · exact absurd (hat y i j hx ((h y j).mpr heq)) (fun heq => hji heq.symm)
    · rw [if_neg hy]
      have hpos : (if i = p.vec.length - 1 then p.pos else Function.update p.pos last.1 (some i)) y =
          if y = last.1 ∧ i ≠ p.vec.length - 1 then some i else p.pos y := by
        split_ifs with h₁ h₂ h₂
        · exact absurd h₁ h₂.2
        · rfl
        · rw [h₂.1, Function.update_self]
        · exact Function.update_of_ne (fun heq => h₂ ⟨heq, h₁⟩) _ _
      rw [hpos]
      by_cases hylast : y = last.1
      · by_cases hilast : i = p.vec.length - 1
        · -- the thing itself was the last one
          rw [hilast, hlast] at hi
          exact absurd (hylast.trans (Option.some.inj hi)) hy
        · rw [if_pos ⟨hylast, hilast⟩]
          constructor
          · intro heq
            obtain rfl := Option.some.inj heq
            rw [if_pos (by omega), if_pos rfl, hylast]
          · intro heq
            split_ifs at heq with hj hji
            · rw [hji]
            · rw [← hylast] at hposLast
              exact absurd (hat y _ j hposLast ((h y j).mpr heq)) (by omega)
      · rw [if_neg fun hboth => hylast hboth.1]
        constructor
        · intro heq
          have hj := (h y j).mp heq
          have hji : j ≠ i := by
            rintro rfl
            exact hy (Option.some.inj (hj.symm.trans hi))
          have hjlast : j ≠ p.vec.length - 1 := by
            intro hjl
            rw [hjl, hlast] at hj
            exact hylast (Option.some.inj hj).symm
          have hjlt : j < p.vec.length := by
            by_contra hge
            rw [List.getElem?_eq_none (by omega)] at hj
            exact absurd hj (by simp)
          rw [if_pos (by omega), if_neg hji, hj]
        · intro heq
          split_ifs at heq with hj hji
          · exact absurd (Option.some.inj heq).symm hylast
          · exact (h y j).mpr heq

lemma isSome_pos_swapRemove (h : p.Exact) :
    ((p.swapRemove x).pos y).isSome = true ↔ (p.pos y).isSome = true ∧ y ≠ x := by
  unfold Placed.swapRemove
  cases hx : p.pos x with
  | none =>
    refine ⟨fun hy => ⟨hy, ?_⟩, And.left⟩
    rintro rfl
    rw [hx] at hy
    exact absurd hy (by simp)
  | some i =>
    cases hlast : p.vec.getLast? with
    | none =>
      dsimp only
      rw [Function.update_apply]
      split_ifs with hy
      · simp [hy]
      · simp [hy]
    | some last =>
      have hposLast : (p.pos last.1).isSome = true :=
        h.mem_iff.mp (List.mem_map.mpr ⟨last, List.mem_of_getLast? hlast, rfl⟩)
      dsimp only
      rw [Function.update_apply]
      split_ifs with hy hend
      · simp [hy]
      · simp [hy]
      · rw [Function.update_apply]
        split_ifs with hylast
        · simp [hy, hylast ▸ hposLast]
        · simp [hy]

/-- What is removed is out of the vector, and nothing else is. -/
lemma Exact.mem_swapRemove (h : p.Exact) :
    y ∈ (p.swapRemove x).vec.map (·.1) ↔ y ∈ p.vec.map (·.1) ∧ y ≠ x := by
  rw [(h.swapRemove x).mem_iff, h.mem_iff, isSome_pos_swapRemove h]

/-- Put different things one after the other into an empty vector. -/
lemma exact_foldl_push {xs : List (ι × γ)} (hnodup : (xs.map (·.1)).Nodup) :
    (xs.foldl (fun p e => p.push e.1 e.2) empty).Exact ∧
      (xs.foldl (fun p e => p.push e.1 e.2) empty).vec = xs := by
  suffices hfold : ∀ (xs : List (ι × γ)) (p : Placed ι γ), p.Exact →
      (∀ e ∈ xs, p.pos e.1 = none) → (xs.map (·.1)).Nodup →
      (xs.foldl (fun p e => p.push e.1 e.2) p).Exact ∧
        (xs.foldl (fun p e => p.push e.1 e.2) p).vec = p.vec ++ xs from
    hfold xs empty exact_empty (fun _ _ => rfl) hnodup
  intro xs
  induction xs with
  | nil => exact fun p hp _ _ => ⟨hp, (List.append_nil _).symm⟩
  | cons e xs ih =>
    intro p hp hout hnodup
    obtain ⟨he, hnodup⟩ := List.nodup_cons.mp hnodup
    obtain ⟨hhead, hout⟩ := List.forall_mem_cons.mp hout
    have hrest := ih (p.push e.1 e.2) (hp.push hhead) (fun e' he' => ?_) hnodup
    · refine ⟨hrest.1, hrest.2.trans ?_⟩
      rw [Placed.push, List.append_assoc]
      rfl
    · have hne : e'.1 ≠ e.1 := fun heq => he (List.mem_map.mpr ⟨e', he', heq⟩)
      have hpos : (p.push e.1 e.2).pos e'.1 = p.pos e'.1 := Function.update_of_ne hne _ _
      exact hpos.trans (hout e' he')

end Placed

end Positions

end ChittaField.Inverted
