import Mathlib.Algebra.BigOperators.Group.Finset.Basic
import Mathlib.Data.Sym.Sym2
import Mathlib.Tactic.Ring

/-!
# Pairs of entries

The pairs of entries of a list, each with those behind it, and how often two things make a pair.
-/

namespace ChittaField.Pairs

variable {α : Type*}

/-- The pairs of the entries of a list. -/
def pairs : List α → List (α × α)
  | [] => []
  | x :: xs => xs.map (x, ·) ++ pairs xs

/-- A pair without its order. -/
def unordered (p : α × α) : Sym2 α := s(p.1, p.2)

variable [DecidableEq α] {x y : α}

lemma count_map_pair (z : α) (xs : List α) : ((xs.map (z, ·)).map unordered).count s(x, y) =
    if z = x then xs.count y else if z = y then xs.count x else 0 := by
  rw [List.map_map, List.count, List.countP_map]
  split_ifs with hx hy
  · subst hx
    refine List.countP_congr fun w _ => ?_
    change (s(z, w) == s(z, y)) = true ↔ (w == y) = true
    rw [beq_iff_eq, beq_iff_eq, Sym2.congr_right]
  · subst hy
    refine List.countP_congr fun w _ => ?_
    change (s(z, w) == s(x, z)) = true ↔ (w == x) = true
    rw [beq_iff_eq, beq_iff_eq, Sym2.eq_swap, Sym2.congr_left]
  · refine List.countP_eq_zero.mpr fun w _ => ?_
    change ¬(s(z, w) == s(x, y)) = true
    rw [beq_iff_eq, Sym2.eq_iff]
    rintro (⟨h, -⟩ | ⟨h, -⟩)
    · exact hx h
    · exact hy h

/-- Two different things are a pair as often as the product of how often they are there. -/
lemma count_pairs (hne : x ≠ y) (xs : List α) :
    ((pairs xs).map unordered).count s(x, y) = xs.count x * xs.count y := by
  induction xs with
  | nil => rfl
  | cons z xs ih =>
    rw [pairs, List.map_append, List.count_append, ih, count_map_pair]
    by_cases hx : z = x
    · subst hx
      rw [if_pos rfl, List.count_cons_self, List.count_cons_of_ne hne]
      ring
    · by_cases hy : z = y
      · subst hy
        rw [if_neg hx, if_pos rfl, List.count_cons_self, List.count_cons_of_ne hx]
        ring
      · rw [if_neg hx, if_neg hy, List.count_cons_of_ne hx, List.count_cons_of_ne hy, Nat.zero_add]

/-- A thing is a pair with itself as often as two of its places can be chosen. -/
lemma count_pairs_self (xs : List α) :
    ((pairs xs).map unordered).count s(x, x) = (xs.count x).choose 2 := by
  induction xs with
  | nil => rfl
  | cons z xs ih =>
    rw [pairs, List.map_append, List.count_append, ih, count_map_pair]
    by_cases hx : z = x
    · subst hx
      rw [if_pos rfl, List.count_cons_self, Nat.choose_succ_succ, Nat.choose_one_right]
    · rw [if_neg hx, if_neg hx, List.count_cons_of_ne hx, Nat.zero_add]

/-- Pairs that are kept whichever way round. -/
lemma count_filter_unordered {p : α → α → Bool} (hsymm : ∀ a b, p a b = p b a) (ps : List (α × α)) :
    ((ps.filter fun q => p q.1 q.2).map unordered).count s(x, y) =
      if p x y then (ps.map unordered).count s(x, y) else 0 := by
  induction ps with
  | nil => split_ifs <;> rfl
  | cons q ps ih =>
    by_cases heq : unordered q = s(x, y)
    · have hp : p q.1 q.2 = p x y := by
        rcases Sym2.eq_iff.mp heq with ⟨hx, hy⟩ | ⟨hx, hy⟩
        · rw [hx, hy]
        · rw [hx, hy, hsymm]
      rw [List.map_cons, heq, List.count_cons_self, List.filter_cons, hp]
      split_ifs with hxy
      · rw [List.map_cons, heq, List.count_cons_self, ih, if_pos hxy]
      · rw [ih, if_neg hxy]
    · rw [List.map_cons, List.count_cons_of_ne heq, List.filter_cons]
      split_ifs with hq hxy hxy
      · rw [List.map_cons, List.count_cons_of_ne heq, ih, if_pos hxy]
      · rw [List.map_cons, List.count_cons_of_ne heq, ih, if_neg hxy]
      · rw [ih, if_pos hxy]
      · rw [ih, if_neg hxy]

/-- How often two lists agree in a key is the sum over the keys. -/
lemma sum_countP_mul {β κ : Type*} [DecidableEq κ] (f : β → κ) (l l' : List β) {keys : List κ}
    (hnodup : keys.Nodup) (hkeys : ∀ a ∈ l, f a ∈ keys) :
    (keys.map fun k => l.countP (f · = k) * l'.countP (f · = k)).sum =
      (l ×ˢ l').countP fun p => f p.1 = f p.2 := by
  induction l with
  | nil => simp
  | cons a l ih =>
    obtain ⟨ha, hkeys⟩ := List.forall_mem_cons.mp hkeys
    have hone : (keys.map fun k => (if f a = k then 1 else 0) * l'.countP (f · = k)).sum =
        l'.countP (f · = f a) := by
      rw [← List.sum_toFinset _ hnodup, Finset.sum_eq_single (f a), if_pos rfl, Nat.one_mul]
      · intro k _ hk
        rw [if_neg (Ne.symm hk), Nat.zero_mul]
      · exact fun hnot => absurd (List.mem_toFinset.mpr ha) hnot
    have hsplit : ∀ k, (a :: l).countP (f · = k) * l'.countP (f · = k) =
        l.countP (f · = k) * l'.countP (f · = k) + (if f a = k then 1 else 0) * l'.countP (f · = k) := by
      intro k
      rw [List.countP_cons, Nat.add_mul]
      simp only [decide_eq_true_eq]
    simp only [hsplit]
    rw [List.sum_map_add, ih hkeys, hone, List.product_cons, List.countP_append, List.countP_map,
      Nat.add_comm]
    congr 1
    exact List.countP_congr fun b _ => by simp [eq_comm]

end ChittaField.Pairs
