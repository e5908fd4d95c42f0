import Mathlib.Data.Finset.Lattice.Lemmas
import Mathlib.Data.List.Flatten
import Mathlib.Data.List.Pairwise
import Mathlib.Data.List.Sort
import Mathlib.Order.MinMax

/-!
# Sorting, maxima and unions of lists

Insertion sort is stable, so sorting what a filter leaves is the same as filtering what was sorted.
The union of a family over two sets of indices is the same up to order if they differ only in
indices that contribute nothing.
-/

namespace ChittaField.Lists

/-! ## Sorting -/

variable {α : Type*} {r : α → α → Prop} [DecidableRel r]

/-- Inserting into a sorted list commutes with a filter. -/
lemma filter_orderedInsert [IsTrans α r] (p : α → Bool) (a : α) {l : List α}
    (hl : l.Pairwise r) :
    (l.orderedInsert r a).filter p =
      if p a then (l.filter p).orderedInsert r a else l.filter p := by
  induction l with
  | nil => cases h : p a <;> simp [h]
  | cons b l ih =>
    rw [List.pairwise_cons] at hl
    by_cases hab : r a b
    · have hall : ∀ c ∈ (b :: l).filter p, r a c := by
        intro c hc
        rcases List.mem_cons.mp (List.mem_filter.mp hc).1 with rfl | hc
        · exact hab
        · exact IsTrans.trans _ _ _ hab (hl.1 c hc)
      have hinsert : ((b :: l).filter p).orderedInsert r a = a :: (b :: l).filter p := by
        cases hl' : (b :: l).filter p with
        | nil => rfl
        | cons c l' =>
          have hac : r a c := hall c (hl' ▸ List.mem_cons_self)
          rw [List.orderedInsert, if_pos hac]
      rw [hinsert, List.orderedInsert, if_pos hab, List.filter_cons]
    · rw [List.orderedInsert, if_neg hab, List.filter_cons, List.filter_cons, ih hl.2]
      cases p b with
      | false => rfl
      | true =>
        cases p a with
        | false => rfl
        | true => simp [hab]

/-- Sorting forgets in what order a list was. -/
lemma insertionSort_perm [IsTrans α r] [Std.Total r] [Std.Antisymm r] {l l' : List α}
    (h : l.Perm l') : l.insertionSort r = l'.insertionSort r :=
  List.Perm.eq_of_pairwise' (List.pairwise_insertionSort r l) (List.pairwise_insertionSort r l')
    ((List.perm_insertionSort r l).trans (h.trans (List.perm_insertionSort r l').symm))

/-- Sorting commutes with a filter. -/
lemma filter_insertionSort [IsTrans α r] [Std.Total r] (p : α → Bool) (l : List α) :
    (l.insertionSort r).filter p = (l.filter p).insertionSort r := by
  induction l with
  | nil => rfl
  | cons a l ih =>
    rw [List.insertionSort_cons, filter_orderedInsert p a (List.pairwise_insertionSort r l), ih,
      List.filter_cons]
    split <;> rfl

/-- Two images of elements of a list, of which the relation puts the one in front of the other. -/
def Before (r : α → α → Prop) {β : Type*} (f : α → β) (l : List α) (x y : β) : Prop :=
  ∃ a ∈ l, ∃ b ∈ l, f a = x ∧ f b = y ∧ r a b

/-- The images of the sorted elements stand in the order of the relation. -/
lemma pairwise_before_insertionSort [IsTrans α r] [Std.Total r] {β : Type*} (f : α → β)
    (l : List α) : ((l.insertionSort r).map f).Pairwise (Before r f l) := by
  have hperm := List.perm_insertionSort r l
  refine List.pairwise_map.mpr ((List.pairwise_insertionSort r l).imp_of_mem ?_)
  exact fun ha hb hab => ⟨_, hperm.mem_iff.mp ha, _, hperm.mem_iff.mp hb, rfl, rfl, hab⟩

/-- Two lists have the same images in the same order, once sorted, just if they have the same images
and the relation puts them in the same order. -/
lemma map_insertionSort_eq_iff [IsTrans α r] [Std.Total r] {β : Type*} {f : α → β} {l l' : List α}
    (hl : (l.map f).Nodup) (hl' : (l'.map f).Nodup)
    (hanti : ∀ x y, Before r f l x y → Before r f l y x → x = y)
    (hanti' : ∀ x y, Before r f l' x y → Before r f l' y x → x = y) :
    (l.insertionSort r).map f = (l'.insertionSort r).map f ↔
      (∀ x, x ∈ l.map f ↔ x ∈ l'.map f) ∧
        ∀ x ∈ l.map f, ∀ y ∈ l.map f, (Before r f l x y ↔ Before r f l' x y) := by
  have hperm := (List.perm_insertionSort r l).map f
  have hperm' := (List.perm_insertionSort r l').map f
  have hsorted := pairwise_before_insertionSort (r := r) f l
  have hsorted' := pairwise_before_insertionSort (r := r) f l'
  constructor
  · intro heq
    have hmem : ∀ x, x ∈ l.map f ↔ x ∈ l'.map f := fun x => by
      rw [← hperm.mem_iff, heq, hperm'.mem_iff]
    refine ⟨hmem, fun x hx y hy => ?_⟩
    have hrefl : ∀ {l : List α} {x : β}, x ∈ l.map f → Before r f l x x := by
      intro l x hx
      obtain ⟨a, ha, rfl⟩ := List.mem_map.mp hx
      exact ⟨a, ha, a, ha, rfl, rfl, (Std.Total.total a a).elim id id⟩
    -- of two images that differ, each list puts the same one in front
    have hboth : ((l.insertionSort r).map f).Pairwise fun x y =>
        (Before r f l x y ↔ Before r f l' x y) ∧ (Before r f l y x ↔ Before r f l' y x) := by
      have hall := (hsorted.and (heq ▸ hsorted')).and (hperm.nodup_iff.mpr hl)
      refine hall.imp fun {x y} h => ⟨iff_of_true h.1.1 h.1.2, ?_⟩
      exact iff_of_false (fun hyx => h.2 (hanti _ _ h.1.1 hyx))
        fun hyx => h.2 (hanti' _ _ h.1.2 hyx)
    have hsymm : Std.Symm fun x y =>
        (Before r f l x y ↔ Before r f l' x y) ∧ (Before r f l y x ↔ Before r f l' y x) :=
      ⟨fun _ _ h => ⟨h.2, h.1⟩⟩
    refine (List.Pairwise.forall_of_forall (fun x hx => ?_) hboth (hperm.mem_iff.mpr hx)
      (hperm.mem_iff.mpr hy)).1
    have hx := hperm.mem_iff.mp hx
    have hiff := iff_of_true (hrefl hx) (hrefl ((hmem x).mp hx))
    exact ⟨hiff, hiff⟩
  · rintro ⟨hmem, horder⟩
    have hsame : ((l.insertionSort r).map f).Perm ((l'.insertionSort r).map f) :=
      hperm.trans (((List.perm_ext_iff_of_nodup hl hl').mpr hmem).trans hperm'.symm)
    refine hsame.eq_of_pairwise (fun x y _ _ => hanti x y) hsorted (hsorted'.imp_of_mem ?_)
    intro x y hx hy h
    exact (horder x ((hmem x).mpr (hperm'.mem_iff.mp hx)) y
      ((hmem y).mpr (hperm'.mem_iff.mp hy))).mpr h

omit [DecidableRel r] in
lemma before_filter {β : Type*} {f : α → β} {p : β → Bool} {l : List α} {x y : β}
    (hx : p x = true) (hy : p y = true) :
    Before r f (l.filter fun a => p (f a)) x y ↔ Before r f l x y := by
  constructor
  · rintro ⟨a, ha, b, hb, hax, hby, hab⟩
    exact ⟨a, (List.mem_filter.mp ha).1, b, (List.mem_filter.mp hb).1, hax, hby, hab⟩
  · rintro ⟨a, ha, b, hb, rfl, rfl, hab⟩
    exact ⟨a, List.mem_filter.mpr ⟨ha, hx⟩, b, List.mem_filter.mpr ⟨hb, hy⟩, rfl, rfl, hab⟩

/-- A list of pairs has no duplicates if it has none for any first component. -/
lemma nodup_of_filter_fst {ι β : Type*} [DecidableEq ι] {l : List (ι × β)}
    (h : ∀ i, ((l.filter (·.1 = i)).map Prod.snd).Nodup) : l.Nodup := by
  classical
  refine List.nodup_iff_count.mpr fun a => ?_
  rw [← List.count_filter (p := fun b : ι × β => b.1 = a.1) (by simp)]
  exact List.nodup_iff_count.mp (h a.1).of_map a

/-! ## Maxima -/

lemma le_foldl_max {l : List ℕ} {b n : ℕ} (h : n ∈ l ∨ n ≤ b) : n ≤ l.foldl max b := by
  induction l generalizing b with
  | nil => simpa using h
  | cons a l ih =>
    refine ih ?_
    rcases h with h | h
    · rcases List.mem_cons.mp h with rfl | h
      · exact Or.inr (le_max_right _ _)
      · exact Or.inl h
    · exact Or.inr (h.trans (le_max_left _ _))

lemma foldl_max_le {l : List ℕ} {b n : ℕ} (hl : ∀ a ∈ l, a ≤ n) (hb : b ≤ n) :
    l.foldl max b ≤ n :=
  List.foldlRecOn (motive := (· ≤ n)) l _ hb fun _ h a ha => max_le h (hl a ha)

/-- The maximum of a list is reached. -/
lemma foldl_max_mem (l : List ℕ) (b : ℕ) : l.foldl max b = b ∨ l.foldl max b ∈ l := by
  induction l generalizing b with
  | nil => exact Or.inl rfl
  | cons a l ih =>
    rcases ih (max b a) with h | h
    · rcases max_choice b a with hm | hm
      · exact Or.inl (h.trans hm)
      · exact Or.inr (List.mem_cons.mpr (Or.inl (h.trans hm)))
    · exact Or.inr (List.mem_cons_of_mem _ h)

/-! ## Unions -/

/-- Two pairs of lists, joined crosswise. -/
lemma append_append_perm {α : Type*} (a a' b b' : List α) :
    (a ++ a' ++ (b ++ b')).Perm (a ++ b ++ (a' ++ b')) := by
  rw [List.append_assoc, List.append_assoc]
  exact (List.perm_append_comm_assoc a' b b').append_left a

lemma flatMap_filter_ne_nil {β : Type*} (f : α → List β) (l : List α) :
    (l.filter fun a => !(f a).isEmpty).flatMap f = l.flatMap f := by
  induction l with
  | nil => rfl
  | cons a l ih =>
    cases h : (f a).isEmpty with
    | true => simp [ih, List.isEmpty_iff.mp h]
    | false => simp [h, ih]

/-- The indices that contribute nothing do not matter. -/
lemma flatMap_perm {β : Type*} {f : α → List β} {l l' : List α} (hl : l.Nodup) (hl' : l'.Nodup)
    (h : ∀ a, f a ≠ [] → (a ∈ l ↔ a ∈ l')) : (l.flatMap f).Perm (l'.flatMap f) := by
  rw [← flatMap_filter_ne_nil f l, ← flatMap_filter_ne_nil f l']
  refine List.Perm.flatMap_right f ((List.perm_ext_iff_of_nodup (hl.filter _) (hl'.filter _)).mpr
    fun a => ?_)
  simp only [List.mem_filter, Bool.not_eq_true', List.isEmpty_eq_false_iff]
  exact and_congr_left fun hne => h a hne

/-- What a fold has put together out of sets. -/
lemma mem_foldl_union {α β : Type*} [DecidableEq β] (f : α → Finset β) (l : List α) (s : Finset β)
    (b : β) : b ∈ l.foldl (fun s a => s ∪ f a) s ↔ b ∈ s ∨ ∃ a ∈ l, b ∈ f a := by
  induction l generalizing s with
  | nil => simp
  | cons a l ih => rw [List.foldl_cons, ih, Finset.mem_union, List.exists_mem_cons_iff, or_assoc]

/-- Only the value at the entry that is modified matters. -/
lemma modify_congr {α : Type*} {l : List α} {i : ℕ} {f g : α → α}
    (h : ∀ a, l[i]? = some a → f a = g a) : l.modify i f = l.modify i g := by
  refine List.ext_getElem? fun j => ?_
  rw [List.getElem?_modify, List.getElem?_modify]
  by_cases hij : i = j
  · subst hij
    cases ha : l[i]? with
    | none => rfl
    | some a => simp [h a ha]
  · simp [hij]

/-- Modifying an entry that the function keeps changes nothing. -/
lemma modify_of_fixed {α : Type*} {l : List α} {i : ℕ} {f : α → α}
    (h : ∀ a, l[i]? = some a → f a = a) : l.modify i f = l :=
  (modify_congr h).trans (List.modify_id i l)

/-- What the function keeps of an entry is kept of all. -/
lemma map_modify_of_fixed {α β : Type*} {f : α → α} {g : α → β} (h : ∀ a, g (f a) = g a)
    (l : List α) (i : ℕ) : (l.modify i f).map g = l.map g := by
  refine List.ext_getElem? fun j => ?_
  rw [List.getElem?_map, List.getElem?_map, List.getElem?_modify]
  by_cases hij : i = j
  · simp [hij, Option.map_map, Function.comp_def, h]
  · simp [hij]

/-- What meets one of two conditions that exclude each other. -/
lemma length_filter_or {α : Type*} (l : List α) {p q : α → Bool}
    (h : ∀ a ∈ l, p a = true → q a = false) :
    (l.filter fun a => p a || q a).length = (l.filter p).length + (l.filter q).length := by
  induction l with
  | nil => rfl
  | cons a l ih =>
    have ih' := ih (List.forall_mem_cons.mp h).2
    have ha := h a List.mem_cons_self
    cases hp : p a <;> cases hq : q a <;> simp_all <;> omega

/-- A family that contributes something for one element only. -/
lemma flatMap_ite_eq {α β : Type*} [DecidableEq α] {l : List α} (hl : l.Nodup) {a : α} (ha : a ∈ l)
    (bs : List β) : l.flatMap (fun b => if b = a then bs else []) = bs := by
  induction l with
  | nil => exact absurd ha List.not_mem_nil
  | cons b l ih =>
    obtain ⟨hb, hl'⟩ := List.nodup_cons.mp hl
    rw [List.flatMap_cons]
    by_cases hab : b = a
    · subst hab
      have hrest : l.flatMap (fun c => if c = b then bs else []) = [] :=
        List.flatMap_eq_nil_iff.mpr fun c hc => if_neg (ne_of_mem_of_not_mem hc hb)
      rw [if_pos rfl, hrest, List.append_nil]
    · rw [if_neg hab, List.nil_append]
      exact ih hl' ((List.mem_cons.mp ha).resolve_left (Ne.symm hab))

/-- A filter changes nothing of a family when what it drops contributes nothing. -/
lemma flatMap_eq_flatMap_filter_iff {α β : Type*} {l : List α} {p : α → Bool} {f : α → List β} :
    l.flatMap f = (l.filter p).flatMap f ↔ ∀ a ∈ l, p a = false → f a = [] := by
  induction l with
  | nil => simp
  | cons a l ih =>
    rw [List.flatMap_cons, List.forall_mem_cons, ← ih]
    cases hp : p a with
    | true =>
      rw [List.filter_cons_of_pos hp, List.flatMap_cons, List.append_right_inj]
      simp
    | false =>
      rw [List.filter_cons_of_neg (by simp [hp])]
      -- the filtered family is no longer than the family behind the element
      have hle : ((l.filter p).flatMap f).length ≤ (l.flatMap f).length :=
        (List.filter_sublist.flatMap f).length_le
      refine ⟨fun h => ?_, fun ⟨ha, h⟩ => by rw [ha rfl, h, List.nil_append]⟩
      have hlen := congrArg List.length h
      rw [List.length_append] at hlen
      have ha : f a = [] := List.eq_nil_of_length_eq_zero (by omega)
      exact ⟨fun _ => ha, by rwa [ha, List.nil_append] at h⟩

/-! ## Results of entries -/

/-- The entries of a list that are related to those of another one. -/
lemma exists_forall₂ {α β : Type*} {R : α → β → Prop} {l : List α} (h : ∀ a ∈ l, ∃ b, R a b) :
    ∃ l', List.Forall₂ R l l' := by
  induction l with
  | nil => exact ⟨[], .nil⟩
  | cons a l ih =>
    obtain ⟨b, hb⟩ := h a List.mem_cons_self
    obtain ⟨l', hl'⟩ := ih (List.forall_mem_cons.mp h).2
    exact ⟨b :: l', .cons hb hl'⟩

/-- All entries have results. -/
lemma mapM_eq_some {α β : Type*} {f : α → Option β} {l : List α} {l' : List β} :
    l.mapM f = some l' ↔ List.Forall₂ (fun a b => f a = some b) l l' := by
  induction l generalizing l' with
  | nil => simp [eq_comm]
  | cons a l ih =>
    rw [List.mapM_cons, Option.bind_eq_bind, Option.bind_eq_some_iff]
    constructor
    · rintro ⟨b, hb, hrest⟩
      obtain ⟨bs, hbs, heq⟩ := Option.bind_eq_some_iff.mp hrest
      cases heq
      exact .cons hb (ih.mp hbs)
    · rintro (_ | ⟨hb, hbs⟩)
      exact ⟨_, hb, Option.bind_eq_some_iff.mpr ⟨_, ih.mpr hbs, rfl⟩⟩

end ChittaField.Lists
