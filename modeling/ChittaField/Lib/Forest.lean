import Mathlib.Algebra.BigOperators.Group.List.Basic
import Mathlib.Algebra.Order.Ring.Nat
import Mathlib.Data.Finset.Card

/-!
# Forests

A forest is walked with a stack, without a record of what was visited: what is on top is taken, what
it owns is collected, and its children are pushed.  Where there are sets of descendants, each larger
than those of the children together, the loop ends after as many steps as there are descendants of
what is on the stack, and has collected what they own.
-/

namespace ChittaField.Forest

variable {α β : Type*} [DecidableEq β]

/-- Collect what the nodes on the stack and below them own; the fuel is used up by nodes. -/
def gather (node : α → Option (List α × Finset β)) :
    ℕ → List α → Finset β → Option (Finset β)
  | _, [], found => some found
  | 0, _ :: _, _ => none
  | fuel + 1, a :: rest, found =>
    match node a with
    | none => none
    | some (children, own) => gather node fuel (children.reverse ++ rest) (found ∪ own)

variable {node : α → Option (List α × Finset β)}

/-- A node, its children and its descendants. -/
structure Descends (node : α → Option (List α × Finset β)) (valid : α → Prop) (below : α → Finset α) :
    Prop where
  present : ∀ a, valid a → ∃ children own, node a = some (children, own) ∧
    (children.map fun c => (below c).card).sum < (below a).card ∧
    (∀ c ∈ children, valid c) ∧ ∀ d, d ∈ below a ↔ d = a ∨ ∃ c ∈ children, d ∈ below c

/-- The loop ends, and has collected what the descendants own. -/
theorem gather_eq {valid : α → Prop} {below : α → Finset α} (h : Descends node valid below)
    {fuel : ℕ} (stack : List α) (found : Finset β) (hvalid : ∀ a ∈ stack, valid a)
    (hfuel : (stack.map fun a => (below a).card).sum ≤ fuel) :
    ∃ r, gather node fuel stack found = some r ∧ ∀ b, b ∈ r ↔ b ∈ found ∨
      ∃ a ∈ stack, ∃ d ∈ below a, ∃ children own, node d = some (children, own) ∧ b ∈ own := by
  induction fuel generalizing stack found with
  | zero =>
    cases stack with
    | nil => exact ⟨found, by rw [gather], fun b => by simp⟩
    | cons a rest =>
      obtain ⟨_, _, _, hlt, _⟩ := h.present a (hvalid a List.mem_cons_self)
      rw [List.map_cons, List.sum_cons] at hfuel
      omega
  | succ fuel ih =>
    cases stack with
    | nil => exact ⟨found, by rw [gather], fun b => by simp⟩
    | cons a rest =>
      obtain ⟨children, own, hnode, hlt, hchildren, hbelow⟩ :=
        h.present a (hvalid a List.mem_cons_self)
      rw [List.map_cons, List.sum_cons] at hfuel
      have hvalid' : ∀ c ∈ children.reverse ++ rest, valid c := by
        intro c hc
        rcases List.mem_append.mp hc with hc | hc
        · exact hchildren c (List.mem_reverse.mp hc)
        · exact hvalid c (List.mem_cons_of_mem a hc)
      have hfuel' : ((children.reverse ++ rest).map fun c => (below c).card).sum ≤ fuel := by
        rw [List.map_append, List.sum_append, List.map_reverse, List.sum_reverse]
        omega
      obtain ⟨r, hr, hmem⟩ := ih _ (found ∪ own) hvalid' hfuel'
      refine ⟨r, by rw [gather, hnode]; exact hr, fun b => ?_⟩
      rw [hmem b, Finset.mem_union, or_assoc]
      refine or_congr_right ?_
      constructor
      · rintro (hb | ⟨c, hc, d, hd, howns⟩)
        · exact ⟨a, List.mem_cons_self, a, (hbelow a).mpr (Or.inl rfl), children, own, hnode, hb⟩
        · rcases List.mem_append.mp hc with hc | hc
          · exact ⟨a, List.mem_cons_self, d,
              (hbelow d).mpr (Or.inr ⟨c, List.mem_reverse.mp hc, hd⟩), howns⟩
          · exact ⟨c, List.mem_cons_of_mem a hc, d, hd, howns⟩
      · rintro ⟨c, hc, d, hd, children', own', hnode', hb⟩
        rcases List.mem_cons.mp hc with rfl | hc
        · rcases (hbelow d).mp hd with rfl | ⟨c', hc', hd'⟩
          · rw [hnode] at hnode'
            obtain ⟨rfl, rfl⟩ := Prod.mk.inj (Option.some.inj hnode')
            exact Or.inl hb
          · exact Or.inr ⟨c', List.mem_append_left _ (List.mem_reverse.mpr hc'), d, hd', children',
              own', hnode', hb⟩
        · exact Or.inr ⟨c, List.mem_append_right _ hc, d, hd, children', own', hnode', hb⟩

end ChittaField.Forest
