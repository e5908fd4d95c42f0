import Mathlib.Data.Finset.Card
import Mathlib.Data.Finset.Union
import Mathlib.Data.List.TakeWhile

/-!
# Worklists

A graph is walked with a stack: what is on top of it is visited, unless it was visited already, and
its successors are pushed.  `visit` is this loop, with what is collected along the way.  Where the
successors stay within a finite set and the fuel is above its size, the loop visits exactly what can
be reached from the stack.

Walks of two graphs that differ only where nothing that is asked for leads to are the same.
-/

namespace ChittaField.Worklist

open Relation

variable {α β : Type*} [DecidableEq α] [DecidableEq β]

/-- Visit what is on the stack and what follows it; the fuel is used up by first visits. -/
def visit (next : α → List α) (own : α → Finset β) :
    ℕ → List α → Finset α → Finset β → Finset α × Finset β
  | 0, _, visited, found => (visited, found)
  | fuel + 1, pending, visited, found =>
    match pending.dropWhile (· ∈ visited) with
    | [] => (visited, found)
    | a :: rest =>
      visit next own fuel ((next a).reverse ++ rest) (insert a visited) (found ∪ own a)

variable {next : α → List α} {own : α → Finset β}

/-- An edge to a successor. -/
def Edge (next : α → List α) (a b : α) : Prop := b ∈ next a

/-- What is collected is what belongs to the visited ones. -/
lemma found_visit (fuel : ℕ) (pending : List α) {visited : Finset α} {found : Finset β}
    (h : found = visited.biUnion own) :
    (visit next own fuel pending visited found).2 =
      (visit next own fuel pending visited found).1.biUnion own := by
  induction fuel generalizing pending visited found with
  | zero => exact h
  | succ fuel ih =>
    rw [visit]
    split
    · exact h
    · rename_i a rest _
      refine ih _ ?_
      rw [h, Finset.biUnion_insert, Finset.union_comm]

/-- The loop between two visits: what is visited and what is pending can be reached and is within the
finite set, and the successors of what is visited are visited or pending. -/
structure Walking (next : α → List α) (start : List α) (support : Finset α) (pending : List α)
    (visited : Finset α) : Prop where
  seeded : ∀ a ∈ start, a ∈ visited ∨ a ∈ pending
  closed : ∀ a ∈ visited, ∀ b ∈ next a, b ∈ visited ∨ b ∈ pending
  reached : ∀ a, a ∈ visited ∨ a ∈ pending → ∃ s ∈ start, ReflTransGen (Edge next) s a
  within : ∀ a ∈ pending, a ∈ support

variable {start pending : List α} {support visited : Finset α}

/-- What was visited already is dropped. -/
lemma Walking.dropWhile (h : Walking next start support pending visited) :
    Walking next start support (pending.dropWhile (· ∈ visited)) visited := by
  have hsplit : ∀ a, a ∈ visited ∨ a ∈ pending →
      a ∈ visited ∨ a ∈ pending.dropWhile (· ∈ visited) := by
    rintro a (ha | ha)
    · exact Or.inl ha
    · rw [← List.takeWhile_append_dropWhile (p := (· ∈ visited)) (l := pending),
        List.mem_append] at ha
      rcases ha with ha | ha
      · exact Or.inl (by simpa using List.mem_takeWhile_imp ha)
      · exact Or.inr ha
  have hsub : ∀ a ∈ pending.dropWhile (· ∈ visited), a ∈ pending :=
    fun a ha => (List.dropWhile_sublist _).subset ha
  exact ⟨fun a ha => hsplit a (h.seeded a ha), fun a ha b hb => hsplit b (h.closed a ha b hb),
    fun a ha => h.reached a (ha.imp_right (hsub a)), fun a ha => h.within a (hsub a ha)⟩

/-- A visit. -/
lemma Walking.visit {a : α} {rest : List α}
    (h : Walking next start support (a :: rest) visited) (hnext : ∀ b ∈ next a, b ∈ support) :
    Walking next start support ((next a).reverse ++ rest) (insert a visited) where
  seeded := by
    intro s hs
    rcases h.seeded s hs with hs | hs
    · exact Or.inl (Finset.mem_insert_of_mem hs)
    · rcases List.mem_cons.mp hs with rfl | hs
      · exact Or.inl (Finset.mem_insert_self _ _)
      · exact Or.inr (List.mem_append_right _ hs)
  closed := by
    intro b hb c hc
    rcases Finset.mem_insert.mp hb with rfl | hb
    · exact Or.inr (List.mem_append_left _ (List.mem_reverse.mpr hc))
    · rcases h.closed b hb c hc with hc | hc
      · exact Or.inl (Finset.mem_insert_of_mem hc)
      · rcases List.mem_cons.mp hc with rfl | hc
        · exact Or.inl (Finset.mem_insert_self _ _)
        · exact Or.inr (List.mem_append_right _ hc)
  reached := by
    have ha : ∃ s ∈ start, ReflTransGen (Edge next) s a :=
      h.reached a (Or.inr List.mem_cons_self)
    rintro b (hb | hb)
    · rcases Finset.mem_insert.mp hb with rfl | hb
      · exact ha
      · exact h.reached b (Or.inl hb)
    · rcases List.mem_append.mp hb with hb | hb
      · obtain ⟨s, hs, hpath⟩ := ha
        exact ⟨s, hs, hpath.tail (List.mem_reverse.mp hb)⟩
      · exact h.reached b (Or.inr (List.mem_cons_of_mem _ hb))
  within := by
    intro b hb
    rcases List.mem_append.mp hb with hb | hb
    · exact hnext b (List.mem_reverse.mp hb)
    · exact h.within b (List.mem_cons_of_mem _ hb)

omit [DecidableEq α] in
/-- Nothing is pending. -/
lemma Walking.done (h : Walking next start support [] visited) (a : α) :
    a ∈ visited ↔ ∃ s ∈ start, ReflTransGen (Edge next) s a := by
  refine ⟨fun ha => h.reached a (Or.inl ha), ?_⟩
  rintro ⟨s, hs, hpath⟩
  induction hpath with
  | refl => exact (h.seeded s hs).resolve_right List.not_mem_nil
  | tail _ hedge ih => exact (h.closed _ ih _ hedge).resolve_right List.not_mem_nil

/-- With enough fuel, what is visited is what can be reached. -/
lemma Walking.mem_visit (h : Walking next start support pending visited)
    (hnext : ∀ a, ∀ b ∈ next a, b ∈ support) {fuel : ℕ} (hfuel : (support \ visited).card < fuel)
    (found : Finset β) (a : α) :
    a ∈ (Worklist.visit next own fuel pending visited found).1 ↔
      ∃ s ∈ start, ReflTransGen (Edge next) s a := by
  induction fuel generalizing pending visited found with
  | zero => exact absurd hfuel (Nat.not_lt_zero _)
  | succ fuel ih =>
    rw [Worklist.visit]
    have hdrop := h.dropWhile
    split
    · rename_i hnil
      rw [hnil] at hdrop
      exact hdrop.done a
    · rename_i b rest hcons
      have hb : b ∉ visited := by
        have := List.head?_dropWhile_not (· ∈ visited) pending
        rw [hcons] at this
        simpa using this
      rw [hcons] at hdrop
      have hin : b ∈ support \ visited :=
        Finset.mem_sdiff.mpr ⟨hdrop.within b List.mem_cons_self, hb⟩
      refine ih (hdrop.visit (hnext b)) ?_ _
      have hcard := Finset.card_erase_of_mem hin
      have hpos := Finset.card_pos.mpr ⟨b, hin⟩
      rw [Finset.sdiff_insert]
      omega

/-- A walk from the start. -/
theorem mem_visit (hstart : ∀ a ∈ start, a ∈ support) (hnext : ∀ a, ∀ b ∈ next a, b ∈ support)
    {fuel : ℕ} (hfuel : support.card < fuel) (a : α) :
    a ∈ (visit next own fuel start ∅ ∅).1 ↔ ∃ s ∈ start, ReflTransGen (Edge next) s a := by
  have h : Walking next start support start ∅ :=
    ⟨fun a ha => Or.inr ha, fun a ha => absurd ha (Finset.notMem_empty a),
      fun a ha => ⟨a, ha.resolve_left (Finset.notMem_empty a), .refl⟩, hstart⟩
  exact h.mem_visit hnext (by rwa [Finset.sdiff_empty]) ∅ a

/-- What a walk from the start collects. -/
theorem mem_found (hstart : ∀ a ∈ start, a ∈ support) (hnext : ∀ a, ∀ b ∈ next a, b ∈ support)
    {fuel : ℕ} (hfuel : support.card < fuel) (v : β) :
    v ∈ (visit next own fuel start ∅ ∅).2 ↔
      ∃ s ∈ start, ∃ a, ReflTransGen (Edge next) s a ∧ v ∈ own a := by
  rw [found_visit fuel start Finset.biUnion_empty.symm, Finset.mem_biUnion]
  constructor
  · rintro ⟨a, ha, hv⟩
    obtain ⟨s, hs, hpath⟩ := (mem_visit hstart hnext hfuel a).mp ha
    exact ⟨s, hs, a, hpath, hv⟩
  · rintro ⟨s, hs, a, hpath, hv⟩
    exact ⟨a, (mem_visit hstart hnext hfuel a).mpr ⟨s, hs, hpath⟩, hv⟩

omit [DecidableEq α] in
/-- Where the graphs differ, and what leads there, cannot be reached from elsewhere; so the same is
reached. -/
theorem reaches_congr {r r' : α → α → Prop} {touched : α → Prop}
    (hclosed : ∀ a b, r' a b → touched b → touched a)
    (hsame : ∀ a, ¬touched a → ∀ b, r a b ↔ r' a b) {a : α} (ha : ¬touched a) (b : α) :
    (ReflTransGen r a b ↔ ReflTransGen r' a b) ∧ (ReflTransGen r' a b → ¬touched b) := by
  have hout : ∀ b, ReflTransGen r' a b → ¬touched b := by
    intro b hpath
    induction hpath with
    | refl => exact ha
    | tail _ hedge ih => exact fun hb => ih (hclosed _ _ hedge hb)
  refine ⟨⟨fun hpath => ?_, fun hpath => ?_⟩, hout b⟩
  · induction hpath with
    | refl => exact .refl
    | tail _ hedge ih => exact ih.tail ((hsame _ (hout _ ih) _).mp hedge)
  · induction hpath with
    | refl => exact .refl
    | tail hinit hedge ih => exact ih.tail ((hsame _ (hout _ hinit) _).mpr hedge)

end ChittaField.Worklist
