import Mathlib.Algebra.BigOperators.Group.Finset.Basic
import ChittaField.Organs.CdawgStep

/-!
# The suffix automaton is exact

What the automaton of a sequence answers is what a look at the sequence says: which patterns are in
it, and where they end.
-/

namespace ChittaField.CdawgOrgan

open Factors

variable {F : Type} {turn : ℕ → ℕ} {name : ℕ → List ℕ} {w : List ℕ} {o : CdawgOrgan F}

/-- The turns at which a pattern ends, in order. -/
def occurrences (s p : List ℕ) : List ℕ :=
  (List.range s.length).filter fun i => p <:+ s.take (i + 1)

lemma mem_occurrences {s p : List ℕ} {i : ℕ} : i ∈ occurrences s p ↔ EndsAt s p (i + 1) := by
  simp only [occurrences, List.mem_filter, List.mem_range, decide_eq_true_eq]
  rfl

/-! ## Sequences -/

/-- An automaton that was fed a sequence. -/
structure Reads (turn : ℕ → ℕ) (w : List ℕ) (name : ℕ → List ℕ) (o : CdawgOrgan F) : Prop where
  exact : Exact turn w name o.states
  last : o.last < o.states.length
  name_last : name o.last = w
  length_le : o.states.length ≤ 2 * w.length + 1

lemma reads_new [Zero F] : Reads turn [] (fun _ => []) (new : CdawgOrgan F) :=
  ⟨exact_new, Nat.one_pos, rfl, le_rfl⟩

/-- A symbol is fed. -/
lemma Reads.extend [Zero F] (h : Reads turn w name o) (c : ℕ) :
    ∃ o' name', o.extend c (turn w.length) = some o' ∧ Fed turn w c name o name' o' ∧
      Reads turn (w ++ [c]) name' o' := by
  obtain ⟨o', name', ho', hfed⟩ := h.exact.extend h.last h.name_last c
  refine ⟨o', name', ho', hfed, hfed.exact, hfed.last, hfed.name_last, ?_⟩
  have hle := hfed.length_le
  have hle' := h.length_le
  rw [List.length_append, List.length_singleton]
  omega

/-- Symbols are fed. -/
lemma Reads.extendAll [Zero F] (h : Reads id w name o) (s : List ℕ) :
    ∃ o' name', o.extendAll w.length s = some o' ∧ Reads id (w ++ s) name' o' := by
  induction s generalizing w name o with
  | nil => exact ⟨o, name, rfl, by rwa [List.append_nil]⟩
  | cons c s ih =>
    obtain ⟨o₁, name₁, ho₁, -, h₁⟩ := h.extend c
    obtain ⟨o', name', ho', h'⟩ := ih h₁
    rw [List.length_append, List.length_singleton] at ho'
    rw [List.append_assoc, List.singleton_append] at h'
    refine ⟨o', name', ?_, h'⟩
    change o.extend c w.length = some o₁ at ho₁
    rw [CdawgOrgan.extendAll, ho₁, Option.bind_some, ho']

/-! ## Walks -/

lemma Exact.next_eq_some_iff (h : Exact turn w name o.states) {v : ℕ} (hv : v < o.states.length)
    (c u : ℕ) : o.next v c = some u ↔ u < o.states.length ∧ Extends w (name v ++ [c]) (name u) := by
  rw [CdawgOrgan.next, List.getElem?_eq_getElem hv, Option.bind_some,
    h.next v _ (List.getElem?_eq_getElem hv)]

/-- Symbols lead to what they, behind a name, extend to. -/
lemma Exact.walkFrom_eq_some_iff (h : Exact turn w name o.states) {v : ℕ} (hv : v < o.states.length)
    (p : List ℕ) (u : ℕ) :
    o.walkFrom v p = some u ↔ u < o.states.length ∧ Extends w (name v ++ p) (name u) := by
  induction p generalizing v with
  | nil =>
    rw [walkFrom, List.append_nil, Option.some_inj]
    have hself := (h.longest v hv).extends
    constructor
    · rintro rfl
      exact ⟨hv, hself⟩
    · rintro ⟨hu, hext⟩
      exact h.inj v hv u hu (hself.unique hext)
  | cons c p ih =>
    rw [walkFrom, Option.bind_eq_some_iff, List.append_cons]
    constructor
    · rintro ⟨u', hu', hwalk⟩
      obtain ⟨hlt, hext⟩ := (h.next_eq_some_iff hv c u').mp hu'
      obtain ⟨hu, hext'⟩ := (ih hlt).mp hwalk
      exact ⟨hu, (hext.append_iff p).mpr hext'⟩
    · rintro ⟨hu, hext⟩
      have hfac : name v ++ [c] <:+: w :=
        (List.prefix_append (name v ++ [c]) p).isInfix.trans hext.factor
      obtain ⟨y, hy⟩ := exists_extends hfac
      obtain ⟨u', hlt, rfl⟩ := h.exists_name y hy.longest
      exact ⟨u', (h.next_eq_some_iff hv c u').mpr ⟨hlt, hy⟩,
        (ih hlt).mpr ⟨hu, (hy.append_iff p).mp hext⟩⟩

/-- A pattern leads to what it extends to. -/
lemma Exact.walk_eq_some_iff (h : Exact turn w name o.states) (p : List ℕ) (u : ℕ) :
    o.walk p = some u ↔ u < o.states.length ∧ Extends w p (name u) := by
  rw [walk, h.walkFrom_eq_some_iff h.pos, h.root, List.nil_append]

lemma Exact.walk_eq_none_iff (h : Exact turn w name o.states) (p : List ℕ) :
    o.walk p = none ↔ ¬ p <:+: w := by
  rw [Option.eq_none_iff_forall_ne_some, ← not_exists, not_iff_not]
  constructor
  · rintro ⟨u, hu⟩
    exact ((h.walk_eq_some_iff p u).mp hu).2.factor
  · intro hfac
    obtain ⟨y, hy⟩ := exists_extends hfac
    obtain ⟨u, hu, rfl⟩ := h.exists_name y hy.longest
    exact ⟨u, (h.walk_eq_some_iff p u).mpr ⟨hu, hy⟩⟩

/-! ## The tree of links -/

/-- The states below one in the tree of links are those whose names end with its name. -/
def below (name : ℕ → List ℕ) (n v : ℕ) : Finset ℕ :=
  (Finset.range n).filter fun u => name v <:+ name u

lemma mem_below {n u v : ℕ} : u ∈ below name n v ↔ u < n ∧ name v <:+ name u := by
  simp [below]

/-- A state that is linked to another. -/
lemma Exact.of_mem_children (h : Exact turn w name o.states) {v c : ℕ} {st : CdawgState F}
    (hst : o.states[v]? = some st) (hc : c ∈ st.slChildren) :
    c < o.states.length ∧ IsLink w (name c) (name v) := by
  obtain ⟨sc, hsc, hlink⟩ := (h.children v st hst c).mp hc
  exact ⟨lt_of_getElem? hsc, ((h.link c sc hsc v).mp hlink).2⟩

/-- Below a state are the state itself and what is below its children. -/
lemma Exact.mem_below_iff (h : Exact turn w name o.states) {v : ℕ} {st : CdawgState F}
    (hst : o.states[v]? = some st) (d : ℕ) :
    d ∈ below name o.states.length v ↔
      d = v ∨ ∃ c ∈ st.slChildren, d ∈ below name o.states.length c := by
  have hv := lt_of_getElem? hst
  constructor
  · intro hd
    induction hn : (name d).length using Nat.strong_induction_on generalizing d with
    | _ n ih =>
      obtain ⟨hdn, hs⟩ := mem_below.mp hd
      by_cases hdv : d = v
      · exact Or.inl hdv
      · right
        have hne : name v ≠ name d := fun heq => hdv (h.inj d hdn v hv heq.symm)
        have hnil : name d ≠ [] := fun hnil => hne ((List.suffix_nil.mp (hnil ▸ hs)).trans hnil.symm)
        obtain ⟨y, hy⟩ := exists_isLink (w := w) hnil
        obtain ⟨u, hu, rfl⟩ := h.exists_name y hy.longest
        have hvu : name v <:+ name u := hy.le _ (h.longest v hv) hs hne
        have hdst := List.getElem?_eq_getElem hdn
        have hlink := (h.link d _ hdst u).mpr ⟨hu, hy⟩
        rcases ih _ (hn ▸ hy.length_lt) u (mem_below.mpr ⟨hu, hvu⟩) rfl with rfl | ⟨c, hc, hcu⟩
        · exact ⟨d, (h.children u st hst d).mpr ⟨_, hdst, hlink⟩, mem_below.mpr ⟨hdn, List.suffix_rfl⟩⟩
        · exact ⟨c, hc, mem_below.mpr ⟨hdn, (mem_below.mp hcu).2.trans hy.suffix⟩⟩
  · rintro (rfl | ⟨c, hc, hd⟩)
    · exact mem_below.mpr ⟨hv, List.suffix_rfl⟩
    · obtain ⟨hdn, hs⟩ := mem_below.mp hd
      exact mem_below.mpr ⟨hdn, (h.of_mem_children hst hc).2.suffix.trans hs⟩

/-- Nothing is below two children of a state. -/
lemma Exact.disjoint_below (h : Exact turn w name o.states) {v : ℕ} {st : CdawgState F}
    (hst : o.states[v]? = some st) {c c' : ℕ} (hc : c ∈ st.slChildren) (hc' : c' ∈ st.slChildren)
    (hne : c ≠ c') : Disjoint (below name o.states.length c) (below name o.states.length c') := by
  obtain ⟨hcn, hl⟩ := h.of_mem_children hst hc
  obtain ⟨hcn', hl'⟩ := h.of_mem_children hst hc'
  have hnames : name c ≠ name c' := fun heq => hne (h.inj c hcn c' hcn' heq)
  rw [Finset.disjoint_left]
  intro d hd hd'
  rcases List.suffix_or_suffix_of_suffix (mem_below.mp hd).2 (mem_below.mp hd').2 with hs | hs
  · have hle := hl'.le _ (h.longest c hcn) hs hnames
    exact hl.ne (eq_of_suffix hl.suffix hle)
  · have hle := hl.le _ (h.longest c' hcn') hs hnames.symm
    exact hl'.ne (eq_of_suffix hl'.suffix hle)

/-- The states are a forest. -/
lemma Exact.descends (h : Exact turn w name o.states) :
    Forest.Descends (fun v => (o.states[v]?).map fun st => (st.slChildren, st.endpos))
      (· < o.states.length) (below name o.states.length) where
  present v hv := by
    have hst : o.states[v]? = some o.states[v] := List.getElem?_eq_getElem hv
    refine ⟨_, _, by rw [hst, Option.map_some], ?_,
      fun c hc => (h.of_mem_children hst hc).1, h.mem_below_iff hst⟩
    have hsum : (o.states[v].slChildren.map fun c => (below name o.states.length c).card).sum =
        (o.states[v].slChildren.toFinset.biUnion (below name o.states.length)).card := by
      rw [Finset.card_biUnion, List.sum_toFinset _ (h.nodup v _ hst)]
      intro c hc c' hc' hne
      exact h.disjoint_below hst (List.mem_toFinset.mp hc) (List.mem_toFinset.mp hc') hne
    rw [hsum]
    refine Finset.card_lt_card ⟨fun d hd => ?_, fun hsub => ?_⟩
    · obtain ⟨c, hc, hd⟩ := Finset.mem_biUnion.mp hd
      exact (h.mem_below_iff hst d).mpr (Or.inr ⟨c, List.mem_toFinset.mp hc, hd⟩)
    · obtain ⟨c, hc, hd⟩ := Finset.mem_biUnion.mp (hsub (mem_below.mpr ⟨hv, List.suffix_rfl⟩))
      have hl := (h.of_mem_children hst (List.mem_toFinset.mp hc)).2
      exact hl.ne (eq_of_suffix hl.suffix (mem_below.mp hd).2)

/-- What is collected below a state are the turns of the positions at which its name ends. -/
lemma Exact.collectEndposBitmap_eq (h : Exact turn w name o.states) {v : ℕ}
    (hv : v < o.states.length) :
    o.collectEndposBitmap v = some ((occurrences w (name v)).map turn).toFinset := by
  have hfuel : ([v].map fun v => (below name o.states.length v).card).sum ≤ o.states.length := by
    rw [List.map_singleton, List.sum_singleton]
    exact (Finset.card_filter_le _ _).trans (Finset.card_range _).le
  obtain ⟨r, hr, hmem⟩ := Forest.gather_eq h.descends [v] ∅
    (fun a ha => List.mem_singleton.mp ha ▸ hv) hfuel
  rw [collectEndposBitmap, hr]
  congr 1
  ext i
  rw [hmem i, List.mem_toFinset, List.mem_map]
  simp only [Finset.notMem_empty, false_or, List.mem_singleton, exists_eq_left, mem_occurrences]
  constructor
  · rintro ⟨d, hd, children, own, hnode, hi⟩
    obtain ⟨st, hst, heq⟩ := Option.map_eq_some_iff.mp hnode
    obtain ⟨rfl, rfl⟩ := Prod.mk.inj heq
    obtain ⟨j, hj, hend⟩ := h.endsAt d st hst i hi
    exact ⟨j, hend.of_suffix (mem_below.mp hd).2, hj⟩
  · rintro ⟨j, hj, rfl⟩
    obtain ⟨d, hd, hname⟩ := h.exists_name _ (longest_take hj.1)
    have hst := List.getElem?_eq_getElem hd
    refine ⟨d, mem_below.mpr ⟨hd, hname ▸ hj.2⟩, _, _, by rw [hst, Option.map_some], ?_⟩
    exact h.prefixes d _ hst j hj.1 hname

lemma occurrences_congr {p q : List ℕ} (h : Extends w p q) : occurrences w q = occurrences w p := by
  unfold occurrences
  refine List.filter_congr fun i hi => ?_
  have hiff := h.endsAt_iff (i := i + 1)
  have hlt : i + 1 ≤ w.length := List.mem_range.mp hi
  unfold EndsAt at hiff
  rw [and_iff_right hlt, and_iff_right hlt] at hiff
  exact decide_eq_decide.mpr hiff

lemma pairwise_occurrences (s p : List ℕ) : (occurrences s p).Pairwise (· < ·) :=
  List.pairwise_lt_range.filter _

lemma sort_occurrences (s p : List ℕ) : (occurrences s p).toFinset.sort (· ≤ ·) = occurrences s p := by
  have hsorted := pairwise_occurrences s p
  exact (List.toFinset_sort (· ≤ ·) (hsorted.imp fun h => h.ne)).mpr (hsorted.imp fun h => h.le)

/-- The last of a list in order is its largest. -/
lemma getLast?_eq_max? {l : List ℕ} (h : l.Pairwise (· < ·)) : l.getLast? = l.max? := by
  induction l using List.reverseRecOn with
  | nil => rfl
  | append_singleton l a _ =>
    rw [List.getLast?_concat, eq_comm, List.max?_eq_some_iff]
    refine ⟨List.mem_append_right l (List.mem_singleton_self a), fun b hb => ?_⟩
    rcases List.mem_append.mp hb with hb | hb
    · exact ((List.pairwise_append.mp h).2.2 b hb a (List.mem_singleton_self a)).le
    · exact (List.mem_singleton.mp hb).le

/-! ## Answers -/

/-- The states are a tree along their links: the children are those that are linked to a state, and a
link leads to a shorter state, but from the first one. -/
structure LinkTree (o : CdawgOrgan F) : Prop where
  children : ∀ (v : ℕ) (st : CdawgState F), o.states[v]? = some st → st.slChildren.Nodup ∧
    ∀ u, u ∈ st.slChildren ↔ ∃ su : CdawgState F, o.states[u]? = some su ∧ su.link = some v
  root : ∀ (v : ℕ) (st : CdawgState F), o.states[v]? = some st → (st.link = none ↔ v = 0)
  shorter : ∀ (v u : ℕ) (st : CdawgState F), o.states[v]? = some st → st.link = some u →
    ∃ su, o.states[u]? = some su ∧ su.len < st.len

lemma Exact.linkTree (h : Exact turn w name o.states) : LinkTree o where
  children v st hst := ⟨h.nodup v st hst, h.children v st hst⟩
  root v st hst := by
    rw [h.link_eq_none_iff hst]
    exact ⟨h.eq_zero (lt_of_getElem? hst), fun hv => hv ▸ h.root⟩
  shorter v u st hst hlink := by
    obtain ⟨hu, hl⟩ := (h.link v st hst u).mp hlink
    refine ⟨_, List.getElem?_eq_getElem hu, ?_⟩
    rw [h.len v st hst, h.len u _ (List.getElem?_eq_getElem hu)]
    exact hl.length_lt

/-- A pattern leads to a state iff it is in the sequence, and what is collected there are the turns of
the positions at which it ends. -/
lemma Exact.map_walk (h : Exact turn w name o.states) (p : List ℕ) :
    (o.walk p).map o.collectEndposBitmap =
      if p <:+: w then some (some ((occurrences w p).map turn).toFinset) else none := by
  cases hwalk : o.walk p with
  | none => rw [if_neg ((h.walk_eq_none_iff p).mp hwalk), Option.map_none]
  | some v =>
    obtain ⟨hv, hext⟩ := (h.walk_eq_some_iff p v).mp hwalk
    rw [if_pos hext.factor, Option.map_some, h.collectEndposBitmap_eq hv, occurrences_congr hext]

/-- The automaton of a sequence: a pattern leads to a state iff it is in the sequence; what is collected
there are the turns at which it ends, the last of them is the last occurrence; the states are a tree
along their links, and there are at most two for each symbol besides the first. -/
theorem suffix_automaton_exact [Zero F] (s : List ℕ) :
    ∃ o : CdawgOrgan F, new.extendAll 0 s = some o ∧
      (∀ p, (o.walk p).map o.collectEndpos =
        if p <:+: s then some (some (occurrences s p)) else none) ∧
      (∀ p, o.lastOccurrence p = (occurrences s p).max?) ∧
      o.LinkTree ∧ o.states.length ≤ 2 * s.length + 1 := by
  obtain ⟨o, name, ho, hreads⟩ := (reads_new (F := F)).extendAll s
  rw [List.nil_append] at hreads
  have h := hreads.exact
  refine ⟨o, ho, fun p => ?_, fun p => ?_, h.linkTree, hreads.length_le⟩
  · have hmap := congrArg (Option.map (Option.map fun b : Finset ℕ => b.sort (· ≤ ·))) (h.map_walk p)
    rw [Option.map_map] at hmap
    refine Eq.trans ?_ (hmap.trans ?_)
    · rfl
    · split
      · rw [Option.map_some, Option.map_some, List.map_id, sort_occurrences]
      · rfl
  · have hmap := h.map_walk p
    unfold lastOccurrence
    cases hwalk : o.walk p with
    | none =>
      have hempty : occurrences s p = [] := by
        refine List.eq_nil_iff_forall_not_mem.mpr fun i hi => ?_
        exact (h.walk_eq_none_iff p).mp hwalk (mem_occurrences.mp hi).isInfix
      rw [hempty]
      rfl
    | some v =>
      rw [hwalk, Option.map_some] at hmap
      split at hmap
      · rw [Option.bind_some, Option.some.inj hmap, Option.bind_some, List.map_id,
          sort_occurrences,
          getLast?_eq_max? (pairwise_occurrences s p)]
      · cases hmap

/-- The turns of a pattern that occurs twice; another one does not occur. -/
example : ((new : CdawgOrgan ℕ).extendAll 0 [1, 2, 2, 1, 2]).map
    (fun o => (o.states.length, (o.walk [1, 2]).map o.collectEndposBitmap, o.walk [1, 1])) =
      some (7, some (some {1, 4}), none) := by
  decide +kernel

end ChittaField.CdawgOrgan
