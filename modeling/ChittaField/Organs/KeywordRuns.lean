import Mathlib.Algebra.BigOperators.Group.Finset.Basic
import Mathlib.Data.String.Basic
import ChittaField.Lib.Replayed
import ChittaField.Organs.Keyword

/-!
# The keyword index along a run

An index holds some documents if what it has of each memory, its postings and its length, is that of
its document, and the totals are those of the lengths.  What a removal leaves does not depend on the
way it takes: the reverse index, as far as it knows a memory, has the terms of the memory's postings.
`keyword_fresh` says that behind every run the index holds what the same documents indexed once give,
if a reverse index is published as it was prepared.
-/

namespace ChittaField.Keyword

open HashMaps

variable {T : Casing} {k k' : KeywordIndex} {id : MemoryId} {term : String} {termIds : List ℕ}

/-! ## The reverse index -/

/-- Ids and names of terms belong together, and free ids have no names. -/
structure Naming (k : KeywordIndex) : Prop where
  named : ∀ term termId, k.termIds term = some termId ↔ k.nameOf termId = some term
  free : ∀ termId ∈ k.freeTermIds, termId < k.termNames.length ∧ k.nameOf termId = none
  nodup : k.freeTermIds.Nodup

/-- A term has a posting of a memory. -/
def Posted (k : KeywordIndex) (id : MemoryId) (term : String) : Prop :=
  ∃ p ∈ k.postingsOf term, p.memoryId = id

/-- The ids are those of the terms that have postings of the memory. -/
structure Listed (k : KeywordIndex) (id : MemoryId) (termIds : List ℕ) : Prop where
  alive : ∀ i ∈ termIds, ∃ term, k.nameOf i = some term
  terms : ∀ term, Posted k id term ↔ ∃ i ∈ termIds, k.nameOf i = some term

/-- Where a memory has terms noted, these are the terms of its postings. -/
structure ReverseOk (k : KeywordIndex) : Prop extends Naming k where
  known : ∀ id termIds, k.docLengths id ≠ none → k.docTerms id = some termIds → Listed k id termIds

lemma nameOf_eq_some {termId : ℕ} :
    k.nameOf termId = some term ↔ k.termNames[termId]? = some (some term) := by
  unfold KeywordIndex.nameOf
  exact Option.join_eq_some_iff

lemma nameOf_set {names : List (Option String)} {termId i : ℕ} {x : Option String}
    (hi : termId < names.length) : ((names.set termId x)[i]?).join =
      if i = termId then x else names[i]?.join := by
  rw [List.getElem?_set]
  by_cases h : termId = i
  · subst h
    simp [hi]
  · rw [if_neg h, if_neg (Ne.symm h)]

/-- A name is of one id only. -/
lemma Naming.nameOf_inj (h : Naming k) {i j : ℕ} (hi : k.nameOf i = some term)
    (hj : k.nameOf j = some term) : i = j :=
  Option.some.inj (((h.named term i).mpr hi).symm.trans ((h.named term j).mpr hj))

/-- Ids and names still belong together where an id gets a term or loses it. -/
lemma Naming.named_update (h : Naming k) {i : ℕ} {x : Option String} {y : Option ℕ}
    (hi : ∀ t, k.nameOf i = some t → t = term) (hterm : ∀ j, k.nameOf j = some term → j = i)
    (hxy : x = some term ∧ y = some i ∨ x = none ∧ y = none) (t : String) (j : ℕ) :
    Function.update k.termIds term y t = some j ↔
      (if j = i then x else k.nameOf j) = some t := by
  by_cases ht : t = term
  · subst ht
    rw [Function.update_self]
    split_ifs with hj
    · subst hj
      rcases hxy with ⟨rfl, rfl⟩ | ⟨rfl, rfl⟩ <;> simp
    · refine iff_of_false ?_ fun hname => hj (hterm j hname)
      rcases hxy with ⟨-, rfl⟩ | ⟨-, rfl⟩
      · exact fun heq => hj (Option.some.inj heq).symm
      · simp
  · rw [Function.update_of_ne ht, h.named]
    split_ifs with hj
    · subst hj
      refine iff_of_false (fun hname => ht (hi t hname)) ?_
      rcases hxy with ⟨rfl, -⟩ | ⟨rfl, -⟩
      · exact fun heq => ht (Option.some.inj heq).symm
      · simp
    · exact Iff.rfl

/-- Ids stay those of a memory where its terms keep their names and their postings. -/
lemma Listed.of_kept (h : Listed k id termIds)
    (hnames : ∀ i t, Posted k id t → k.nameOf i = some t → k'.nameOf i = some t)
    (hposted : ∀ t, Posted k' id t ↔ Posted k id t) : Listed k' id termIds := by
  have hsame : ∀ i ∈ termIds, k'.nameOf i = k.nameOf i := by
    intro i hi
    obtain ⟨t, ht⟩ := h.alive i hi
    rw [ht]
    exact hnames i t ((h.terms t).mpr ⟨i, hi, ht⟩) ht
  refine ⟨fun i hi => ?_, fun t => ?_⟩
  · rw [hsame i hi]
    exact h.alive i hi
  · rw [hposted, h.terms]
    exact exists_congr fun i => and_congr_right fun hi => by rw [hsame i hi]

/-- The id of a term to which a posting of the memory is added. -/
lemma Listed.concat {i : ℕ} (h : Listed k id termIds)
    (hnames : ∀ j t, k.nameOf j = some t → k'.nameOf j = some t) (hi : k'.nameOf i = some term)
    (hposted : ∀ t, Posted k' id t ↔ Posted k id t ∨ t = term) : Listed k' id (termIds ++ [i]) := by
  refine ⟨fun j hj => ?_, fun t => ?_⟩
  · rcases List.mem_append.mp hj with hj | hj
    · exact (h.alive j hj).imp fun t => hnames j t
    · rw [List.mem_singleton.mp hj]
      exact ⟨term, hi⟩
  · rw [hposted, h.terms]
    simp only [List.mem_append, List.mem_singleton, or_and_right, exists_or, exists_eq_left, hi,
      Option.some_inj]
    refine or_congr (exists_congr fun j => and_congr_right fun hj => ?_) eq_comm
    obtain ⟨t', ht'⟩ := h.alive j hj
    rw [ht', hnames j t' ht']

/-! ## Removing terms -/

section DropTerm

lemma without_without (id : MemoryId) (ps : List Posting) :
    KeywordIndex.without id (KeywordIndex.without id ps) = KeywordIndex.without id ps := by
  simp [KeywordIndex.without]

lemma mem_without {ps : List Posting} {p : Posting} :
    p ∈ KeywordIndex.without id ps ↔ p ∈ ps ∧ p.memoryId ≠ id := by
  rw [KeywordIndex.without, List.mem_filter, decide_eq_true_iff]

/-- The other memories keep their postings. -/
lemma exists_mem_without {ps : List Posting} {id' : MemoryId} (hne : id' ≠ id) :
    (∃ p ∈ KeywordIndex.without id ps, p.memoryId = id') ↔ ∃ p ∈ ps, p.memoryId = id' := by
  refine exists_congr fun p => ?_
  rw [mem_without, and_assoc]
  exact and_congr_right fun _ => and_iff_right_of_imp fun hp => hp ▸ hne

/-- What dropping a posting does: nothing, if the id is of no term with postings; else the term loses
the postings of the memory, and its id if it has no others. -/
lemma dropTerm_cases (id : MemoryId) (k : KeywordIndex) (termId : ℕ) :
    (k.dropTerm id termId = k ∧
      ∀ term, k.nameOf termId = some term → k.postings.lookup term = none) ∨
    ∃ term, k.nameOf termId = some term ∧
      ((KeywordIndex.without id (k.postingsOf term) = [] ∧ k.dropTerm id termId =
          { k with
            postings := k.postings.erase term
            termIds := Function.update k.termIds term none
            termNames := k.termNames.set termId none
            freeTermIds := termId :: k.freeTermIds }) ∨
        (KeywordIndex.without id (k.postingsOf term) ≠ [] ∧ k.dropTerm id termId =
          { k with
            postings := k.postings.insert term (KeywordIndex.without id (k.postingsOf term)) })) := by
  unfold KeywordIndex.dropTerm KeywordIndex.postingsOf
  cases hname : k.nameOf termId with
  | none => exact Or.inl ⟨rfl, fun term hterm => by cases hterm⟩
  | some term =>
    cases hps : k.postings.lookup term with
    | none =>
      refine Or.inl ⟨by simp [hps], fun t ht => ?_⟩
      rw [← Option.some.inj ht, hps]
    | some ps =>
      refine Or.inr ⟨term, rfl, ?_⟩
      rw [hps, Option.getD_some]
      by_cases hnil : KeywordIndex.without id ps = []
      · exact Or.inl ⟨hnil, by simp [hps, hnil]⟩
      · exact Or.inr ⟨hnil, by simp [hps, hnil]⟩

/-- The postings of a term behind the drop: without those of the memory, if the id is its. -/
lemma postingsOf_dropTerm (id : MemoryId) (k : KeywordIndex) (termId : ℕ) (term : String) :
    (k.dropTerm id termId).postingsOf term =
      if k.nameOf termId = some term then KeywordIndex.without id (k.postingsOf term)
      else k.postingsOf term := by
  rcases dropTerm_cases id k termId with ⟨heq, hnone⟩ | ⟨t, hname, ⟨hnil, heq⟩ | ⟨-, heq⟩⟩
  · rw [heq]
    split_ifs with hname
    · rw [KeywordIndex.postingsOf, hnone term hname]
      rfl
    · rfl
  all_goals
    rw [heq, hname]
    by_cases ht : t = term
    · subst ht
      simp_all [KeywordIndex.postingsOf]
    · simp [KeywordIndex.postingsOf, ht, Finmap.lookup_erase_ne (Ne.symm ht),
        Finmap.lookup_insert_of_ne _ (Ne.symm ht)]

/-- The name of an id behind the drop: none, if its term has no postings any more. -/
lemma nameOf_dropTerm (id : MemoryId) (k : KeywordIndex) (termId i : ℕ) :
    (k.dropTerm id termId).nameOf i = k.nameOf i ∨
      (i = termId ∧ (k.dropTerm id termId).nameOf i = none ∧
        ∀ term, k.nameOf i = some term → KeywordIndex.without id (k.postingsOf term) = []) := by
  rcases dropTerm_cases id k termId with ⟨heq, -⟩ | ⟨t, hname, ⟨hnil, heq⟩ | ⟨-, heq⟩⟩
  · exact Or.inl (by rw [heq])
  · rw [heq]
    have hlt := (List.getElem?_eq_some_iff.mp (nameOf_eq_some.mp hname)).1
    by_cases hi : i = termId
    · subst hi
      refine Or.inr ⟨rfl, (nameOf_set hlt).trans (if_pos rfl), fun term hterm => ?_⟩
      rwa [← Option.some.inj (hname.symm.trans hterm)]
    · exact Or.inl ((nameOf_set hlt).trans (if_neg hi))
  · exact Or.inl (by rw [heq]; rfl)

lemma rest_dropTerm (id : MemoryId) (k : KeywordIndex) (termId : ℕ) :
    (k.dropTerm id termId).docLengths = k.docLengths ∧
      (k.dropTerm id termId).docTerms = k.docTerms ∧
      (k.dropTerm id termId).totalTokens = k.totalTokens ∧
      (k.dropTerm id termId).totalDocs = k.totalDocs := by
  rcases dropTerm_cases id k termId with ⟨heq, -⟩ | ⟨t, -, ⟨-, heq⟩ | ⟨-, heq⟩⟩
  all_goals rw [heq]; exact ⟨rfl, rfl, rfl, rfl⟩

lemma Naming.dropTerm (h : Naming k) (id : MemoryId) (termId : ℕ) :
    Naming (k.dropTerm id termId) := by
  rcases dropTerm_cases id k termId with ⟨heq, -⟩ | ⟨t, ht, ⟨-, heq⟩ | ⟨-, heq⟩⟩
  · rwa [heq]
  · have hlt := (List.getElem?_eq_some_iff.mp (nameOf_eq_some.mp ht)).1
    have hnames : ∀ i, (k.dropTerm id termId).nameOf i = if i = termId then none else k.nameOf i := by
      intro i
      rw [heq]
      exact nameOf_set hlt
    refine ⟨fun term i => ?_, fun i hi => ?_, ?_⟩
    · rw [hnames, heq]
      exact h.named_update (fun t' ht' => Option.some.inj (ht'.symm.trans ht))
        (fun j hj => h.nameOf_inj hj ht) (Or.inr ⟨rfl, rfl⟩) term i
    · rw [hnames]
      rw [heq] at hi ⊢
      dsimp only at hi ⊢
      rw [List.length_set]
      rcases List.mem_cons.mp hi with rfl | hi
      · exact ⟨hlt, if_pos rfl⟩
      · exact ⟨(h.free i hi).1, ite_eq_left_iff.mpr fun _ => (h.free i hi).2⟩
    · rw [heq]
      refine List.nodup_cons.mpr ⟨fun hmem => ?_, h.nodup⟩
      have hnone := (h.free termId hmem).2
      rw [ht] at hnone
      cases hnone
  · rw [heq]
    exact ⟨h.named, h.free, h.nodup⟩

/-- The reverse index stays right where a memory that is not indexed loses a posting. -/
lemma ReverseOk.dropTerm (h : ReverseOk k) (hid : k.docLengths id = none) (termId : ℕ) :
    ReverseOk (k.dropTerm id termId) := by
  obtain ⟨hlengths, hterms, -, -⟩ := rest_dropTerm id k termId
  refine ⟨h.toNaming.dropTerm id termId, fun id' termIds hid' hdoc => ?_⟩
  rw [hlengths] at hid'
  rw [hterms] at hdoc
  have hne : id' ≠ id := fun heq => hid' (heq ▸ hid)
  refine (h.known id' termIds hid' hdoc).of_kept (fun i t hposted hi => ?_) fun t => ?_
  · rcases nameOf_dropTerm id k termId i with heq | ⟨-, -, hgone⟩
    · rw [heq, hi]
    · obtain ⟨p, hp, -⟩ := (exists_mem_without hne).mpr hposted
      rw [hgone t hi] at hp
      exact absurd hp List.not_mem_nil
  · unfold Posted
    rw [postingsOf_dropTerm]
    split_ifs
    · exact exists_mem_without hne
    · rfl

/-- Terms without postings are forgotten. -/
def Tight (k : KeywordIndex) : Prop := ∀ term, k.postings.lookup term ≠ some []

lemma Tight.insert (h : Tight k) {ps : List Posting} (hps : ps ≠ []) :
    Tight { k with postings := k.postings.insert term ps } := by
  intro t ht
  by_cases heq : t = term
  · subst heq
    simp [hps] at ht
  · exact h t ((Finmap.lookup_insert_of_ne _ heq).symm.trans ht)

lemma Tight.dropTerm (h : Tight k) (termId : ℕ) : Tight (k.dropTerm id termId) := by
  rcases dropTerm_cases id k termId with ⟨heq, -⟩ | ⟨t, -, ⟨-, heq⟩ | ⟨hne, heq⟩⟩
  · rwa [heq]
  · rw [heq]
    intro term hterm
    by_cases ht : term = t
    · subst ht
      simp at hterm
    · exact h term ((Finmap.lookup_erase_ne ht).symm.trans hterm)
  · rw [heq]
    exact h.insert hne

/-- The postings of a term behind drops: without those of the memory, if one of the ids is its. -/
lemma postingsOf_foldl_dropTerm (id : MemoryId) (termIds : List ℕ) (k : KeywordIndex) (term : String) :
    (termIds.foldl (KeywordIndex.dropTerm id) k).postingsOf term =
      if ∃ i ∈ termIds, k.nameOf i = some term then KeywordIndex.without id (k.postingsOf term)
      else k.postingsOf term := by
  induction termIds generalizing k with
  | nil => simp
  | cons termId termIds ih =>
    rw [List.foldl_cons, ih, postingsOf_dropTerm]
    by_cases hname : k.nameOf termId = some term
    · have hsome : ∃ i ∈ termId :: termIds, k.nameOf i = some term :=
        ⟨termId, List.mem_cons_self, hname⟩
      rw [if_pos hname, if_pos hsome, without_without, ite_self]
    · have hsame : (∃ i ∈ termIds, (k.dropTerm id termId).nameOf i = some term) ↔
          ∃ i ∈ termId :: termIds, k.nameOf i = some term := by
        rw [List.exists_mem_cons_iff, or_iff_right hname]
        refine exists_congr fun i => and_congr_right fun _ => ?_
        rcases nameOf_dropTerm id k termId i with heq | ⟨rfl, hnone, -⟩
        · rw [heq]
        · exact iff_of_false (by simp [hnone]) hname
      rw [if_neg hname]
      exact if_congr hsame rfl rfl

/-- What is kept of an index where a memory that is not indexed loses postings. -/
lemma foldl_dropTerm (h : ReverseOk k) (htight : Tight k) (hid : k.docLengths id = none)
    (termIds : List ℕ) :
    let k' := termIds.foldl (KeywordIndex.dropTerm id) k
    ReverseOk k' ∧ Tight k' ∧ k'.docLengths = k.docLengths ∧ k'.totalTokens = k.totalTokens ∧
      k'.totalDocs = k.totalDocs := by
  induction termIds generalizing k with
  | nil => exact ⟨h, htight, rfl, rfl, rfl⟩
  | cons termId termIds ih =>
    obtain ⟨hlengths, -, htokens, hdocs⟩ := rest_dropTerm id k termId
    have hrest := ih (h.dropTerm hid termId) (htight.dropTerm termId) (by rwa [hlengths])
    rwa [hlengths, htokens, hdocs] at hrest

end DropTerm

/-! ## Adding terms -/

section Interning

/-- What interning a term leaves: the id has its name, and no other name is lost. -/
structure Interned (k : KeywordIndex) (term : String) (r : ℕ × KeywordIndex) : Prop where
  reverse : ReverseOk r.2
  name : r.2.nameOf r.1 = some term
  kept : ∀ i t, k.nameOf i = some t → r.2.nameOf i = some t
  rest : r.2.postings = k.postings ∧ r.2.docLengths = k.docLengths ∧ r.2.docTerms = k.docTerms ∧
    r.2.totalTokens = k.totalTokens ∧ r.2.totalDocs = k.totalDocs

/-- Giving an unnamed id to a term without one. -/
lemma ReverseOk.give (h : ReverseOk k) {i : ℕ} (hterm : k.termIds term = none)
    (hi : k.nameOf i = none) {names : List (Option String)} {free : List ℕ}
    (hnames : ∀ j, (names[j]?).join = if j = i then some term else k.nameOf j)
    (hlength : k.termNames.length ≤ names.length) (hfree : free.Sublist k.freeTermIds)
    (hout : i ∉ free) : Interned k term (i, { k with
      termNames := names
      termIds := Function.update k.termIds term (some i)
      freeTermIds := free }) := by
  have hno : ∀ t, k.nameOf i ≠ some t := fun t heq => by simp [hi] at heq
  have hkept : ∀ j t, k.nameOf j = some t → (names[j]?).join = some t := by
    intro j t hj
    have hne : j ≠ i := fun heq => hno t (heq ▸ hj)
    rw [hnames, if_neg hne, hj]
  refine ⟨⟨⟨fun t j => ?_, fun j hj => ?_, h.nodup.sublist hfree⟩, fun id termIds hid hdoc => ?_⟩,
    (hnames i).trans (if_pos rfl), hkept, rfl, rfl, rfl, rfl, rfl⟩
  · refine Iff.trans ?_ (by rw [KeywordIndex.nameOf, hnames])
    refine h.named_update (fun t ht => absurd ht (hno t)) (fun j hj => ?_) (Or.inl ⟨rfl, rfl⟩) t j
    rw [(h.named term j).mpr hj] at hterm
    cases hterm
  · obtain ⟨hlt, hnone⟩ := h.free j (hfree.subset hj)
    refine ⟨hlt.trans_le hlength, (hnames j).trans ?_⟩
    have hne : j ≠ i := fun heq => hout (heq ▸ hj)
    rw [if_neg hne, hnone]
  · exact (h.known id termIds hid hdoc).of_kept (fun j t _ hj => hkept j t hj) fun t => Iff.rfl

lemma ReverseOk.internTerm (h : ReverseOk k) (term : String) : Interned k term (k.internTerm term) := by
  unfold KeywordIndex.internTerm
  cases hterm : k.termIds term with
  | some i => exact ⟨h, (h.named term i).mp hterm, fun _ _ hj => hj, rfl, rfl, rfl, rfl, rfl⟩
  | none =>
    cases hfree : k.freeTermIds with
    | cons i free =>
      obtain ⟨hlt, hnone⟩ := h.free i (hfree ▸ List.mem_cons_self)
      have hnodup := h.nodup
      rw [hfree] at hnodup
      refine h.give hterm hnone (fun j => nameOf_set hlt) (by rw [List.length_set]) ?_
        (List.nodup_cons.mp hnodup).1
      rw [hfree]
      exact List.sublist_cons_self ..
    | nil =>
      have hnone : k.nameOf k.termNames.length = none := by
        rw [KeywordIndex.nameOf, List.getElem?_eq_none le_rfl]
        rfl
      have hgive : Interned k term (k.termNames.length, { k with
          termNames := k.termNames ++ [some term]
          termIds := Function.update k.termIds term (some k.termNames.length)
          freeTermIds := [] }) := by
        refine h.give hterm hnone (fun j => ?_) (by simp) (List.nil_sublist _) List.not_mem_nil
        rw [List.getElem?_append]
        split_ifs with hlt heq heq
        · omega
        · rfl
        · subst heq
          simp
        · have hout : k.termNames[j]? = none := List.getElem?_eq_none (by omega)
          rw [KeywordIndex.nameOf, hout, List.getElem?_eq_none (by simp; omega)]
      exact hgive

/-- The terms of a memory are added to an index that has nothing of it. -/
structure Adding (id : MemoryId) (tokens : List String) (k : KeywordIndex) (done : List String)
    (p : KeywordIndex × List ℕ) : Prop where
  reverse : ReverseOk p.1
  tight : Tight p.1
  postings : ∀ term, p.1.postingsOf term =
    k.postingsOf term ++ if term ∈ done then [⟨id, tokens.count term % 2 ^ 32⟩] else []
  rest : p.1.docLengths = k.docLengths ∧ p.1.docTerms = k.docTerms ∧
    p.1.totalTokens = k.totalTokens ∧ p.1.totalDocs = k.totalDocs
  listed : Listed p.1 id p.2

lemma Adding.addTerm {tokens done : List String} {p : KeywordIndex × List ℕ}
    (h : Adding id tokens k done p) (hid : k.docLengths id = none) (hterm : term ∉ done) :
    Adding id tokens k (done ++ [term]) (KeywordIndex.addTerm id tokens p term) := by
  obtain ⟨hreverse, hname, hkept, hpostings, hlengths, hterms, htokens, hdocs⟩ :=
    h.reverse.internTerm term
  set r := p.1.internTerm term with hr
  have hof : ∀ t, r.2.postingsOf t = p.1.postingsOf t := by
    intro t
    rw [KeywordIndex.postingsOf, hpostings]
    rfl
  have hafter : ∀ t, (KeywordIndex.addTerm id tokens p term).1.postingsOf t =
      p.1.postingsOf t ++ if t = term then [⟨id, tokens.count term % 2 ^ 32⟩] else [] := by
    intro t
    unfold KeywordIndex.addTerm KeywordIndex.postingsOf
    rw [← hr]
    dsimp only
    by_cases ht : t = term
    · subst ht
      rw [Finmap.lookup_insert, if_pos rfl]
      exact congrArg (· ++ _) (hof t)
    · rw [Finmap.lookup_insert_of_ne _ ht, hpostings, if_neg ht, List.append_nil]
  have hposted : ∀ id' t, Posted (KeywordIndex.addTerm id tokens p term).1 id' t ↔
      Posted p.1 id' t ∨ t = term ∧ id = id' := by
    intro id' t
    unfold Posted
    rw [hafter]
    split_ifs with ht <;> simp [ht, or_and_right, exists_or]
  have hlength : r.2.docLengths id = none := by
    rw [hlengths, h.rest.1]
    exact hid
  have htight : Tight r.2 := fun t => by
    rw [hpostings]
    exact h.tight t
  refine ⟨⟨⟨hreverse.named, hreverse.free, hreverse.nodup⟩, fun id' termIds hid' hdoc => ?_⟩,
    htight.insert (by simp), fun t => ?_,
    ⟨hlengths.trans h.rest.1, hterms.trans h.rest.2.1, htokens.trans h.rest.2.2.1,
      hdocs.trans h.rest.2.2.2⟩, ?_⟩
  · refine (hreverse.known id' termIds hid' hdoc).of_kept (fun _ _ _ hi => hi) fun t => ?_
    refine (hposted id' t).trans ((or_iff_left ?_).trans ?_)
    · rintro ⟨-, rfl⟩
      exact hid' hlength
    · rw [Posted, Posted, hof]
  · rw [hafter, h.postings]
    by_cases ht : t = term
    · subst ht
      simp [hterm]
    · simp [ht]
  · refine h.listed.concat hkept hname fun t => (hposted id t).trans ?_
    rw [and_iff_left rfl]

lemma Adding.foldl {tokens terms done : List String} {p : KeywordIndex × List ℕ}
    (h : Adding id tokens k done p) (hid : k.docLengths id = none)
    (hterms : (done ++ terms).Nodup) :
    Adding id tokens k (done ++ terms) (terms.foldl (KeywordIndex.addTerm id tokens) p) := by
  induction terms generalizing done p with
  | nil =>
    rw [List.append_nil]
    exact h
  | cons term terms ih =>
    have hsplit : done ++ term :: terms = (done ++ [term]) ++ terms := by simp
    have hout : term ∉ done := fun hmem =>
      (List.nodup_append.mp hterms).2.2 term hmem term List.mem_cons_self rfl
    rw [hsplit] at hterms ⊢
    exact ih (h.addTerm hid hout) hterms

end Interning

/-! ## Documents -/

/-- The texts that are indexed. -/
abbrev Documents := Finmap fun _ : MemoryId => String

/-- The length that is noted of a text; none, if it has no tokens. -/
def lengthOf (T : Casing) (content : String) : Option ℕ :=
  if (tokenize T content).length % 2 ^ 32 = 0 then none
  else some ((tokenize T content).length % 2 ^ 32)

/-- What the index has of a memory is that of its text. -/
structure Held (T : Casing) (k : KeywordIndex) (id : MemoryId) (text : Option String) : Prop where
  postings : ∀ term tf, ⟨id, tf⟩ ∈ k.postingsOf term ↔ ∃ content, text = some content ∧
    lengthOf T content ≠ none ∧ term ∈ tokenize T content ∧
    tf = (tokenize T content).count term % 2 ^ 32
  length : k.docLengths id = text.bind (lengthOf T)

/-- The totals are those of the lengths. -/
def Totals (lengths : MemoryId → Option ℕ) (tokens docs : ℕ) : Prop :=
  ∃ live : Finset MemoryId, (∀ id, id ∈ live ↔ lengths id ≠ none) ∧
    tokens = ∑ id ∈ live, (lengths id).getD 0 ∧ docs = live.card

/-- The index is that of some documents. -/
structure Holds (T : Casing) (k : KeywordIndex) (docs : Documents) : Prop where
  held : ∀ id, Held T k id (docs.lookup id)
  nodup : ∀ term, (k.postingsOf term).Nodup
  tight : Tight k
  totals : Totals k.docLengths k.totalTokens k.totalDocs

variable {docs : Documents}

section Held

variable {text : Option String}

/-- A memory with a posting has a length. -/
lemma Held.length_ne_none (h : Held T k id text) (hp : Posted k id term) : k.docLengths id ≠ none := by
  obtain ⟨p, hp, rfl⟩ := hp
  obtain ⟨content, rfl, hlength, -⟩ := (h.postings term p.tf).mp hp
  rw [h.length]
  exact hlength

/-- Nothing is to be had of a text without tokens, or of none. -/
lemma held_of_not_posted (htext : text.bind (lengthOf T) = none) (hp : ∀ term, ¬Posted k id term)
    (hlength : k.docLengths id = none) : Held T k id text := by
  refine ⟨fun term tf => iff_of_false (fun hmem => hp term ⟨_, hmem, rfl⟩) ?_, hlength.trans htext.symm⟩
  rintro ⟨content, rfl, hlen, -⟩
  exact hlen htext

lemma Held.of_same (h : Held T k id text)
    (hpostings : ∀ term tf, (⟨id, tf⟩ : Posting) ∈ k'.postingsOf term ↔ ⟨id, tf⟩ ∈ k.postingsOf term)
    (hlength : k'.docLengths id = k.docLengths id) : Held T k' id text :=
  ⟨fun term tf => (hpostings term tf).trans (h.postings term tf), hlength.trans h.length⟩

end Held

section Totals

variable {lengths : MemoryId → Option ℕ} {tokens docs : ℕ}

lemma sum_getD_update {s : Finset MemoryId} (hid : id ∉ s) (x : Option ℕ) :
    ∑ i ∈ s, (Function.update lengths id x i).getD 0 = ∑ i ∈ s, (lengths i).getD 0 := by
  refine Finset.sum_congr rfl fun i hi => ?_
  have hne : i ≠ id := fun heq => hid (heq ▸ hi)
  rw [Function.update_of_ne hne]

lemma Totals.erase (h : Totals lengths tokens docs) (id : MemoryId) :
    Totals (Function.update lengths id none) (tokens - (lengths id).getD 0)
      (docs - if lengths id = none then 0 else 1) := by
  obtain ⟨live, hlive, rfl, rfl⟩ := h
  refine ⟨live.erase id, fun x => ?_, ?_, ?_⟩
  · rw [Finset.mem_erase, hlive]
    by_cases hx : x = id
    · subst hx
      simp
    · rw [Function.update_of_ne hx]
      exact and_iff_right hx
  · rw [sum_getD_update (Finset.notMem_erase id live)]
    by_cases hid : id ∈ live
    · rw [← Finset.sum_erase_add _ _ hid, Nat.add_sub_cancel]
    · rw [Finset.erase_eq_of_notMem hid, not_not.mp ((hlive id).not.mp hid)]
      rfl
  · split_ifs with hid
    · rw [Finset.erase_eq_of_notMem ((hlive id).not.mpr (not_not.mpr hid))]
      rfl
    · rw [Finset.card_erase_of_mem ((hlive id).mpr hid)]

lemma Totals.insert (h : Totals lengths tokens docs) (hid : lengths id = none) (n : ℕ) :
    Totals (Function.update lengths id (some n)) (tokens + n) (docs + 1) := by
  obtain ⟨live, hlive, rfl, rfl⟩ := h
  have hout : id ∉ live := fun hmem => (hlive id).mp hmem hid
  refine ⟨insert id live, fun x => ?_, ?_, (Finset.card_insert_of_notMem hout).symm⟩
  · rw [Finset.mem_insert, hlive]
    by_cases hx : x = id
    · subst hx
      simp
    · rw [Function.update_of_ne hx]
      exact or_iff_right hx
  · rw [Finset.sum_insert hout, sum_getD_update hout, Function.update_self, Nat.add_comm]
    rfl

end Totals

/-! ## Removing -/

/-- What a removal leaves, whichever way it takes. -/
structure Removed (k : KeywordIndex) (id : MemoryId) (k' : KeywordIndex) : Prop where
  postings : ∀ term, k'.postingsOf term = KeywordIndex.without id (k.postingsOf term)
  lengths : k'.docLengths = Function.update k.docLengths id none
  tokens : k'.totalTokens = k.totalTokens - (k.docLengths id).getD 0
  docs : k'.totalDocs = k.totalDocs - if k.docLengths id = none then 0 else 1
  tight : Tight k'
  reverse : ReverseOk k'

lemma without_eq_self (h : ¬Posted k id term) :
    KeywordIndex.without id (k.postingsOf term) = k.postingsOf term :=
  List.filter_eq_self.mpr fun p hp => decide_eq_true fun heq => h ⟨p, hp, heq⟩

/-- Postings behind a walk through all terms. -/
lemma postingsOf_retain (order : KeyOrder String) (id : MemoryId) (k : KeywordIndex) (term : String) :
    (k.retain order id).postingsOf term = KeywordIndex.without id (k.postingsOf term) := by
  unfold KeywordIndex.postingsOf KeywordIndex.retain
  rw [lookup_collect]
  split_ifs with hmem
  · cases hps : k.postings.lookup term with
    | none => rfl
    | some ps =>
      by_cases hnil : KeywordIndex.without id ps = []
      · simp [hnil, Option.filter]
      · simp [hnil, Option.filter]
  · rw [order.mem, ← lookup_eq_none_iff] at hmem
    rw [hmem]
    rfl

lemma tight_retain (order : KeyOrder String) (id : MemoryId) (k : KeywordIndex) :
    Tight (k.retain order id) := by
  intro term hterm
  unfold KeywordIndex.retain at hterm
  rw [lookup_collect] at hterm
  split_ifs at hterm
  exact absurd (Option.mem_filter_iff.mp hterm).2 (by simp)

/-- A reverse index that is right stays so where only postings of a memory that is not indexed go. -/
lemma ReverseOk.retain (h : ReverseOk k) (hid : k.docLengths id = none) (order : KeyOrder String) :
    ReverseOk (k.retain order id) := by
  refine ⟨⟨h.named, h.free, h.nodup⟩, fun id' termIds hid' hdoc => ?_⟩
  refine (h.known id' termIds hid' hdoc).of_kept (fun _ _ _ hi => hi) fun term => ?_
  rw [Posted, postingsOf_retain]
  exact exists_mem_without fun heq => hid' (heq ▸ hid)

/-- A memory that is not indexed has no part in the reverse index. -/
lemma ReverseOk.forget (h : ReverseOk k) (id : MemoryId) (docTerms : MemoryId → Option (List ℕ))
    (hterms : ∀ id', id' ≠ id → docTerms id' = k.docTerms id') (tokens docs : ℕ) :
    ReverseOk { k with
      docLengths := Function.update k.docLengths id none
      docTerms := docTerms
      totalTokens := tokens
      totalDocs := docs } := by
  refine ⟨⟨h.named, h.free, h.nodup⟩, fun id' termIds hid' hdoc => ?_⟩
  have hne : id' ≠ id := by
    rintro rfl
    exact hid' (Function.update_self ..)
  have hlength : k.docLengths id' ≠ none := fun heq => hid' ((Function.update_of_ne hne ..).trans heq)
  exact (h.known id' termIds hlength ((hterms id' hne).symm.trans hdoc)).of_kept (fun _ _ _ hi => hi)
    fun t => Iff.rfl

/-- Both ways of removing a memory leave the same of the postings. -/
lemma Holds.removed (h : Holds T k docs) (hreverse : ReverseOk k) (order : KeyOrder String)
    (id : MemoryId) : Removed k id (k.remove order id) := by
  unfold KeywordIndex.remove
  cases hlength : k.docLengths id with
  | none =>
    refine ⟨fun term => ?_, ?_, by simp [hlength], by simp [hlength], h.tight, hreverse⟩
    · exact (without_eq_self fun hp => (h.held id).length_ne_none hp hlength).symm
    · exact (Function.update_eq_self_iff.mpr hlength.symm).symm
  | some oldLen =>
    have hnone : Function.update k.docLengths id none id = none := Function.update_self ..
    dsimp only
    cases hdoc : k.docTerms id with
    | none =>
      have hforget := hreverse.forget id k.docTerms (fun _ _ => rfl) (k.totalTokens - oldLen)
        (k.totalDocs - 1)
      refine ⟨fun term => postingsOf_retain order id _ term, rfl, ?_, ?_, tight_retain order id _,
        hforget.retain hnone order⟩
      · simp [KeywordIndex.retain, hlength]
      · simp [KeywordIndex.retain, hlength]
    | some termIds =>
      have hforget := hreverse.forget id (Function.update k.docTerms id none)
        (fun _ hne => Function.update_of_ne hne ..) (k.totalTokens - oldLen) (k.totalDocs - 1)
      obtain ⟨hleft, htight, hlengths, htokens, hdocs⟩ := foldl_dropTerm hforget h.tight hnone termIds
      refine ⟨fun term => ?_, hlengths, htokens.trans (by simp [hlength]),
        hdocs.trans (by simp [hlength]), htight, hleft⟩
      -- terms that the reverse index does not name have no posting of the memory
      rw [postingsOf_foldl_dropTerm]
      split_ifs with hsome
      · rfl
      · exact (without_eq_self fun hp =>
          hsome (((hreverse.known id termIds (by simp [hlength]) hdoc).terms term).mp hp)).symm

lemma Removed.not_posted (hr : Removed k id k') (term : String) : ¬Posted k' id term := by
  rintro ⟨p, hp, hid⟩
  rw [hr.postings] at hp
  exact (mem_without.mp hp).2 hid

/-- Documents without the one that is removed. -/
lemma Holds.erase (h : Holds T k docs) (hr : Removed k id k') : Holds T k' (docs.erase id) := by
  refine ⟨fun x => ?_, fun term => ?_, hr.tight, ?_⟩
  · by_cases hx : x = id
    · subst hx
      exact held_of_not_posted (by simp) hr.not_posted (by rw [hr.lengths, Function.update_self])
    · rw [Finmap.lookup_erase_ne hx]
      refine (h.held x).of_same (fun term tf => ?_) ?_
      · rw [hr.postings, mem_without]
        exact and_iff_left hx
      · rw [hr.lengths, Function.update_of_ne hx]
  · rw [hr.postings]
    exact (h.nodup term).filter _
  · rw [hr.lengths, hr.tokens, hr.docs]
    exact h.totals.erase id

/-! ## Indexing -/

/-- What the index has of the memories where the text of one is put and the others stay. -/
lemma held_insert {content : String} (h : ∀ x, Held T k x ((docs.erase id).lookup x))
    (hid : Held T k' id (some content))
    (hpostings : ∀ x, x ≠ id → ∀ term tf,
      (⟨x, tf⟩ : Posting) ∈ k'.postingsOf term ↔ ⟨x, tf⟩ ∈ k.postingsOf term)
    (hlengths : ∀ x, x ≠ id → k'.docLengths x = k.docLengths x) (x : MemoryId) :
    Held T k' x ((docs.insert id content).lookup x) := by
  by_cases hx : x = id
  · subst hx
    rwa [Finmap.lookup_insert]
  · have hold := h x
    rw [Finmap.lookup_erase_ne hx] at hold
    rw [Finmap.lookup_insert_of_ne _ hx]
    exact hold.of_same (hpostings x hx) (hlengths x hx)

/-- All terms of a text are added. -/
lemma adding_tokens (hreverse : ReverseOk k) (htight : Tight k) (hid : k.docLengths id = none)
    (hnot : ∀ term, ¬Posted k id term) (order : KeyOrder String) (tokens : List String) :
    Adding id tokens k (order.list tokens.toFinset)
      ((order.list tokens.toFinset).foldl (KeywordIndex.addTerm id tokens) (k, [])) := by
  have hnone : Adding id tokens k [] (k, []) :=
    ⟨hreverse, htight, fun term => by simp, ⟨rfl, rfl, rfl, rfl⟩, by simp,
      fun term => iff_of_false (hnot term) (by simp)⟩
  exact hnone.foldl hid (order.nodup _)

/-- What indexing a text with tokens leaves. -/
lemma Holds.adding (h : Holds T k (docs.erase id)) (hid : k.docLengths id = none)
    (hnot : ∀ term, ¬Posted k id term) {content : String} {n : ℕ}
    (hlen : lengthOf T content = some n) {done : List String} {r : KeywordIndex × List ℕ}
    (hadd : Adding id (tokenize T content) k done r)
    (hdone : ∀ term, term ∈ done ↔ term ∈ tokenize T content) :
    let k' := { r.1 with
      docTerms := Function.update r.1.docTerms id (some r.2)
      docLengths := Function.update r.1.docLengths id (some n)
      totalTokens := r.1.totalTokens + n
      totalDocs := r.1.totalDocs + 1 }
    Holds T k' (docs.insert id content) ∧ ReverseOk k' := by
  obtain ⟨hlengths, hterms, htokens, hdocs⟩ := hadd.rest
  -- the postings of the memory are the new ones
  have hmem : ∀ term p, p ∈ r.1.postingsOf term ↔ p ∈ k.postingsOf term ∨
      (term ∈ tokenize T content ∧ p = ⟨id, (tokenize T content).count term % 2 ^ 32⟩) := by
    intro term p
    rw [hadd.postings, ← hdone]
    split_ifs with hterm <;> simp [hterm]
  refine ⟨⟨held_insert h.held ⟨fun term tf => ?_, ?_⟩ (fun x hx term tf => ?_) fun x hx => ?_,
    fun term => ?_, hadd.tight, ?_⟩, ⟨hadd.reverse.named, hadd.reverse.free, hadd.reverse.nodup⟩,
    fun x termIds hx hdoc => ?_⟩
  · refine (hmem term _).trans ?_
    rw [or_iff_right fun hp => hnot term ⟨_, hp, rfl⟩]
    simp [hlen]
  · exact (Function.update_self ..).trans hlen.symm
  · exact (hmem term _).trans (or_iff_left fun hp => hx (congrArg Posting.memoryId hp.2))
  · exact (Function.update_of_ne hx ..).trans (congrFun hlengths x)
  · change (r.1.postingsOf term).Nodup
    rw [hadd.postings]
    split_ifs
    · rw [← List.concat_eq_append]
      exact (h.nodup term).concat fun hp => hnot term ⟨⟨id, _⟩, hp, rfl⟩
    · rw [List.append_nil]
      exact h.nodup term
  · dsimp only
    rw [hlengths, htokens, hdocs]
    exact h.totals.insert hid n
  · by_cases hxid : x = id
    · subst hxid
      dsimp only at hdoc
      rw [Function.update_self] at hdoc
      obtain rfl := Option.some.inj hdoc
      exact ⟨hadd.listed.alive, hadd.listed.terms⟩
    · have hold := hadd.reverse.known x termIds (fun heq => hx ((Function.update_of_ne hxid ..).trans heq))
        ((Function.update_of_ne hxid ..).symm.trans hdoc)
      exact ⟨hold.alive, hold.terms⟩

/-- What indexing a text leaves. -/
lemma Holds.index (h : Holds T k docs) (hreverse : ReverseOk k) (order : KeyOrder String)
    (id : MemoryId) (content : String) :
    Holds T (k.index T order id content) (docs.insert id content) ∧
      ReverseOk (k.index T order id content) := by
  have hr := h.removed hreverse order id
  have he := h.erase hr
  have hnot := hr.not_posted
  have hnone : (k.remove order id).docLengths id = none := by
    rw [hr.lengths, Function.update_self]
  unfold KeywordIndex.index
  dsimp only
  split_ifs with hzero
  · -- a text without tokens
    have hid : Held T _ id (some content) := held_of_not_posted (if_pos hzero) hnot hnone
    exact ⟨⟨held_insert he.held hid (fun _ _ _ _ => Iff.rfl) fun _ _ => rfl, he.nodup, he.tight,
      he.totals⟩, hr.reverse⟩
  · refine he.adding hnone hnot (if_neg hzero)
      (adding_tokens hr.reverse he.tight hnone hnot order _) fun term => ?_
    rw [order.mem, List.mem_toFinset]

/-! ## Rebuilding -/

section Rebuilding

variable {r : KeywordReverseIndex} {es : List (String × List Posting)}

/-- What is noted of some terms: their names in order, and for each memory the ids of its terms. -/
structure Noted (es : List (String × List Posting)) (r : KeywordReverseIndex) : Prop where
  names : r.termNames = es.map fun e => some e.1
  ids : ∀ term i, r.termIds term = some i ↔ (es[i]?).map (·.1) = some term
  docs : ∀ id i, i ∈ (r.docTerms id).getD [] ↔ ∃ e, es[i]? = some e ∧ ∃ p ∈ e.2, p.memoryId = id

/-- An id that is noted for the memories of some postings. -/
lemma mem_foldl_push (n : ℕ) (ps : List Posting) (d : MemoryId → Option (List ℕ)) (id : MemoryId)
    (i : ℕ) : i ∈ (ps.foldl (fun d p => Maps.push d p.memoryId n) d id).getD [] ↔
      i ∈ (d id).getD [] ∨ i = n ∧ ∃ p ∈ ps, p.memoryId = id := by
  induction ps generalizing d with
  | nil => simp
  | cons p ps ih =>
    rw [List.foldl_cons, ih, List.exists_mem_cons_iff]
    by_cases hp : p.memoryId = id
    · subst hp
      rw [Maps.push, Function.update_self, Option.getD_some, List.mem_append, List.mem_singleton]
      tauto
    · rw [Maps.push, Function.update_of_ne (Ne.symm hp)]
      tauto

lemma Noted.addEntry (h : Noted es r) {e : String × List Posting} (he : e.1 ∉ es.map (·.1)) :
    Noted (es ++ [e]) (KeywordIndex.addEntry r e) := by
  have hlen : r.termNames.length = es.length := by rw [h.names, List.length_map]
  have hget : ∀ i e', (es ++ [e])[i]? = some e' ↔ es[i]? = some e' ∨ i = es.length ∧ e = e' := by
    intro i e'
    rcases Nat.lt_trichotomy i es.length with hi | hi | hi
    · rw [List.getElem?_append_left hi]
      exact (or_iff_left fun hand => absurd hand.1 hi.ne).symm
    · subst hi
      simp
    · rw [List.getElem?_eq_none (by simp; omega), List.getElem?_eq_none hi.le]
      exact iff_of_false (by simp) fun hor => hor.elim (by simp) fun hand => absurd hand.1 hi.ne'
  refine ⟨by simp [KeywordIndex.addEntry, h.names], fun term i => ?_, fun id i => ?_⟩
  · rw [Option.map_eq_some_iff]
    simp only [hget]
    by_cases hterm : term = e.1
    · subst hterm
      unfold KeywordIndex.addEntry
      dsimp only
      rw [Function.update_self, hlen, Option.some_inj]
      constructor
      · rintro rfl
        exact ⟨e, Or.inr ⟨rfl, rfl⟩, rfl⟩
      · rintro ⟨e', he' | ⟨rfl, -⟩, hname⟩
        · exact absurd (hname ▸ List.mem_map_of_mem (List.mem_of_getElem? he')) he
        · rfl
    · unfold KeywordIndex.addEntry
      dsimp only
      rw [Function.update_of_ne hterm, h.ids, Option.map_eq_some_iff]
      refine exists_congr fun e' => ⟨fun hand => ⟨Or.inl hand.1, hand.2⟩, ?_⟩
      rintro ⟨he' | ⟨-, rfl⟩, hname⟩
      · exact ⟨he', hname⟩
      · exact absurd hname.symm hterm
  · rw [KeywordIndex.addEntry, mem_foldl_push, h.docs, hlen]
    simp only [hget]
    constructor
    · rintro (⟨e', he', hp⟩ | ⟨rfl, hp⟩)
      · exact ⟨e', Or.inl he', hp⟩
      · exact ⟨e, Or.inr ⟨rfl, rfl⟩, hp⟩
    · rintro ⟨e', he' | ⟨rfl, rfl⟩, hp⟩
      · exact Or.inl ⟨e', he', hp⟩
      · exact Or.inr ⟨rfl, hp⟩

lemma Noted.foldl {done : List (String × List Posting)} (h : Noted done r)
    (hnodup : ((done ++ es).map (·.1)).Nodup) :
    Noted (done ++ es) (es.foldl KeywordIndex.addEntry r) := by
  induction es generalizing done r with
  | nil =>
    rw [List.append_nil]
    exact h
  | cons e es ih =>
    have hsplit : done ++ e :: es = (done ++ [e]) ++ es := by simp
    have hout : e.1 ∉ done.map (·.1) := by
      intro hmem
      rw [List.map_append, List.map_cons] at hnodup
      exact (List.nodup_append.mp hnodup).2.2 e.1 hmem e.1 List.mem_cons_self rfl
    rw [hsplit] at hnodup ⊢
    exact ih (h.addEntry hout) hnodup

/-- What was noted of the postings is a right reverse index. -/
lemma Noted.reverseOk {order : KeyOrder String} (h : Noted (entries order k.postings) r) :
    ReverseOk (k.publishReverseIndex r) := by
  have hname : ∀ i, (k.publishReverseIndex r).nameOf i =
      ((entries order k.postings)[i]?).map (·.1) := by
    intro i
    rw [KeywordIndex.nameOf, KeywordIndex.publishReverseIndex, h.names, List.getElem?_map]
    cases (entries order k.postings)[i]? <;> rfl
  have hids : ∀ id terms i, r.docTerms id = some terms → (i ∈ terms ↔
      ∃ e, (entries order k.postings)[i]? = some e ∧ ∃ p ∈ e.2, p.memoryId = id) := by
    intro id terms i hdoc
    rw [← h.docs, hdoc, Option.getD_some]
  refine ⟨⟨fun term i => ?_, fun i hi => absurd hi List.not_mem_nil, List.nodup_nil⟩,
    fun id terms _ hdoc => ⟨fun i hi => ?_, fun term => ?_⟩⟩
  · rw [hname]
    exact h.ids term i
  · obtain ⟨e, he, -⟩ := (hids id terms i hdoc).mp hi
    exact ⟨e.1, by rw [hname, he]; rfl⟩
  · constructor
    · rintro ⟨p, hp, hpid⟩
      have hps : k.postings.lookup term = some (k.postingsOf term) := by
        have hp' : p ∈ k.postingsOf term := hp
        unfold KeywordIndex.postingsOf at hp' ⊢
        cases hlookup : k.postings.lookup term with
        | none =>
          rw [hlookup] at hp'
          exact absurd hp' List.not_mem_nil
        | some ps => rfl
      obtain ⟨i, hi⟩ := List.mem_iff_getElem?.mp
        (mem_entries.mpr hps : (term, k.postingsOf term) ∈ entries order k.postings)
      exact ⟨i, (hids id terms i hdoc).mpr ⟨_, hi, p, hp, hpid⟩, by rw [hname, hi]; rfl⟩
    · rintro ⟨i, hi, hterm⟩
      obtain ⟨e, he, p, hp, hpid⟩ := (hids id terms i hdoc).mp hi
      rw [hname, he] at hterm
      obtain rfl := Option.some.inj hterm
      have hlookup : k.postings.lookup e.1 = some e.2 := mem_entries.mp (List.mem_of_getElem? he)
      refine ⟨p, ?_, hpid⟩
      change p ∈ (k.postings.lookup e.1).getD []
      rw [hlookup]
      exact hp

lemma ReverseOk.rebuild (h : ReverseOk k) (order : KeyOrder String) (cancelled : Bool) :
    ReverseOk (k.rebuildReverseIndex order cancelled) := by
  unfold KeywordIndex.rebuildReverseIndex KeywordIndex.prepareReverseIndex
  cases cancelled with
  | true => exact h
  | false =>
    have hnoted : Noted ([] ++ entries order k.postings)
        ((entries order k.postings).foldl KeywordIndex.addEntry ⟨fun _ => none, [], fun _ => none⟩) := by
      refine Noted.foldl ⟨rfl, by simp, by simp⟩ ?_
      exact nodup_entries order
    exact Noted.reverseOk hnoted

/-- Postings, lengths and totals stay as they are. -/
lemma Holds.of_eq (h : Holds T k docs) {k' : KeywordIndex} (hpostings : k'.postings = k.postings)
    (hlengths : k'.docLengths = k.docLengths) (htokens : k'.totalTokens = k.totalTokens)
    (hdocs : k'.totalDocs = k.totalDocs) : Holds T k' docs := by
  obtain ⟨postings, docLengths, docTerms, names, ids, free, tokens, total⟩ := k'
  dsimp only at hpostings hlengths htokens hdocs
  subst hpostings hlengths htokens hdocs
  exact ⟨fun id => ⟨(h.held id).postings, (h.held id).length⟩, h.nodup, h.tight, h.totals⟩

lemma Holds.rebuild (h : Holds T k docs) (order : KeyOrder String) (cancelled : Bool) :
    Holds T (k.rebuildReverseIndex order cancelled) docs := by
  unfold KeywordIndex.rebuildReverseIndex
  cases k.prepareReverseIndex order cancelled with
  | none => exact h
  | some r => exact h.of_eq rfl rfl rfl rfl

lemma reverseOk_deserialised (k : KeywordIndex) : ReverseOk k.deserialised := by
  refine ⟨⟨fun term i => ?_, fun i hi => absurd hi List.not_mem_nil, List.nodup_nil⟩,
    fun id terms _ hdoc => by cases hdoc⟩
  exact iff_of_false (by simp [KeywordIndex.deserialised])
    (by simp [KeywordIndex.deserialised, KeywordIndex.nameOf])

end Rebuilding

/-! ## Searching -/

section Searching

variable {F : Type*} {bm : Bm25 F}

/-- The terms that are looked up are in the index. -/
lemma exists_of_mem_queryTerms {terms : List String} {t : QueryTerm F}
    (h : t ∈ k.queryTerms bm terms) : ∃ term, t.postings = k.postingsOf term := by
  unfold KeywordIndex.queryTerms at h
  dsimp only at h
  have hmem := List.mem_of_mem_take h
  have hsorted : t ∈ (terms.filterMap fun term => (k.postings.lookup term).map fun ps =>
      (⟨ps, ps.length, bm.idf k.totalDocs ps.length⟩ : QueryTerm F)) := by
    split_ifs at hmem
    · exact (List.mem_insertionSort _).mp (List.mem_of_mem_filter hmem)
    · exact (List.mem_insertionSort _).mp hmem
  obtain ⟨term, -, hterm⟩ := List.mem_filterMap.mp hsorted
  obtain ⟨ps, hps, rfl⟩ := Option.map_eq_some_iff.mp hterm
  exact ⟨term, by rw [KeywordIndex.postingsOf, hps]; rfl⟩

/-- Only memories of postings get scores. -/
lemma keys_foldl_addScore {idf : F} {ps : List Posting} {scores : Finmap fun _ : MemoryId => F}
    (h : id ∈ (ps.foldl (k.addScore bm idf) scores).keys) :
    id ∈ scores.keys ∨ ∃ p ∈ ps, p.memoryId = id := by
  induction ps generalizing scores with
  | nil => exact Or.inl h
  | cons p ps ih =>
    rcases ih h with hkey | ⟨q, hq, hqid⟩
    · rw [KeywordIndex.addScore, keys_insert, Finset.mem_insert] at hkey
      rcases hkey with rfl | hkey
      · exact Or.inr ⟨p, List.mem_cons_self, rfl⟩
      · exact Or.inl hkey
    · exact Or.inr ⟨q, List.mem_cons_of_mem _ hq, hqid⟩

lemma keys_foldl_scores {ts : List (QueryTerm F)} {scores : Finmap fun _ : MemoryId => F}
    (h : id ∈ (ts.foldl (fun scores t => t.postings.foldl (k.addScore bm t.idf) scores) scores).keys) :
    id ∈ scores.keys ∨ ∃ t ∈ ts, ∃ p ∈ t.postings, p.memoryId = id := by
  induction ts generalizing scores with
  | nil => exact Or.inl h
  | cons t ts ih =>
    rcases ih h with hkey | ⟨u, hu, hp⟩
    · rcases keys_foldl_addScore hkey with hkey | hp
      · exact Or.inl hkey
      · exact Or.inr ⟨t, List.mem_cons_self, hp⟩
    · exact Or.inr ⟨u, List.mem_cons_of_mem _ hu, hp⟩

/-- The best hits are hits that were pushed. -/
lemma mem_pushTopK {limit : ℕ} {heap : List (KeywordHit F)} {hit x : KeywordHit F}
    (h : x ∈ KeywordIndex.pushTopK bm limit heap hit) : x ∈ heap ∨ x = hit := by
  have hpush : ∀ hits, x ∈ hit :: hits → (∀ y ∈ hits, y ∈ heap) → x ∈ heap ∨ x = hit := by
    intro hits hx hsub
    exact (List.mem_cons.mp hx).elim Or.inr fun hx => Or.inl (hsub x hx)
  unfold KeywordIndex.pushTopK at h
  split_ifs at h
  · exact hpush heap h fun _ => id
  · cases hw : KeywordIndex.worst bm heap with
    | none =>
      rw [hw] at h
      exact hpush heap h fun _ => id
    | some w =>
      rw [hw] at h
      dsimp only at h
      split_ifs at h
      · exact hpush _ h fun _ => List.mem_of_mem_eraseP
      · exact Or.inl h

lemma exists_of_mem_foldl_pushTopK {limit : ℕ} {es : List (MemoryId × F)} {heap : List (KeywordHit F)}
    {x : KeywordHit F}
    (h : x ∈ es.foldl (fun heap e => KeywordIndex.pushTopK bm limit heap ⟨e.1, e.2⟩) heap) :
    x ∈ heap ∨ ∃ e ∈ es, x = ⟨e.1, e.2⟩ := by
  induction es generalizing heap with
  | nil => exact Or.inl h
  | cons e es ih =>
    rcases ih h with hx | ⟨e', he', hx⟩
    · rcases mem_pushTopK hx with hx | hx
      · exact Or.inl hx
      · exact Or.inr ⟨e, List.mem_cons_self, hx⟩
    · exact Or.inr ⟨e', List.mem_cons_of_mem _ he', hx⟩

/-- A memory that is found has a posting. -/
lemma exists_of_mem_search {order : KeyOrder MemoryId} {query : String} {limit : ℕ}
    {hit : KeywordHit F} (h : hit ∈ k.search bm T order query limit) :
    ∃ term, ∃ p ∈ k.postingsOf term, p.memoryId = hit.memoryId := by
  unfold KeywordIndex.search at h
  split_ifs at h
  · exact absurd h List.not_mem_nil
  · rcases exists_of_mem_foldl_pushTopK ((List.mem_insertionSort _).mp h) with hx | ⟨e, he, rfl⟩
    · exact absurd hx List.not_mem_nil
    · have hkey := mem_keys_iff.mpr (by rw [mem_entries.mp he]; rfl)
      rcases keys_foldl_scores hkey with hempty | ⟨t, ht, p, hp, hpid⟩
      · exact absurd hempty (by simp)
      · obtain ⟨term, hterm⟩ := exists_of_mem_queryTerms ht
        exact ⟨term, p, hterm ▸ hp, hpid⟩

end Searching

/-! ## Runs -/

/-- What happens to an index; a rebuild publishes what it prepared, unless it is cancelled. -/
inductive KeywordStep where
  | index (id : MemoryId) (content : String)
  | remove (id : MemoryId)
  | rebuild (cancelled : Bool)
  | reload

/-- Take a step, in an order of the terms. -/
def KeywordIndex.step (T : Casing) (k : KeywordIndex) (s : KeywordStep × KeyOrder String) :
    KeywordIndex :=
  match s.1 with
  | .index id content => k.index T s.2 id content
  | .remove id => k.remove s.2 id
  | .rebuild cancelled => k.rebuildReverseIndex s.2 cancelled
  | .reload => k.deserialised

/-- What a step makes of the documents. -/
def document (docs : Documents) : KeywordStep → Documents
  | .index id content => docs.insert id content
  | .remove id => docs.erase id
  | .rebuild _ => docs
  | .reload => docs

/-- Index every document once. -/
def fresh (T : Casing) (order : KeyOrder String) (ids : KeyOrder MemoryId) (docs : Documents) :
    KeywordIndex :=
  (entries ids docs).foldl (fun k e => k.index T order e.1 e.2) .new

/-- The indexes are the same, except for the order of the postings of a term. -/
structure Alike (k k' : KeywordIndex) : Prop where
  terms : k.postings.keys = k'.postings.keys
  postings : ∀ term, (k.postingsOf term).Perm (k'.postingsOf term)
  docLengths : k.docLengths = k'.docLengths
  totalTokens : k.totalTokens = k'.totalTokens
  totalDocs : k.totalDocs = k'.totalDocs

lemma holds_new : Holds T .new ∅ := by
  refine ⟨fun id => ?_, fun _ => List.nodup_nil, fun term h => ?_, ∅, ?_, rfl, rfl⟩
  · exact held_of_not_posted (by simp) (fun term ⟨p, hp, _⟩ => List.not_mem_nil hp) rfl
  · cases h
  · simp [KeywordIndex.new]

lemma Holds.step (h : Holds T k docs) (hreverse : ReverseOk k) (s : KeywordStep × KeyOrder String) :
    Holds T (k.step T s) (document docs s.1) ∧ ReverseOk (k.step T s) := by
  obtain ⟨s, order⟩ := s
  cases s with
  | index id content => exact h.index hreverse order id content
  | remove id =>
    have hr := h.removed hreverse order id
    exact ⟨h.erase hr, hr.reverse⟩
  | rebuild cancelled => exact ⟨h.rebuild order cancelled, hreverse.rebuild order cancelled⟩
  | reload => exact ⟨h.of_eq rfl rfl rfl rfl, reverseOk_deserialised k⟩

lemma Holds.run (h : Holds T k docs) (hreverse : ReverseOk k)
    (steps : List (KeywordStep × KeyOrder String)) :
    Holds T (steps.foldl (KeywordIndex.step T) k) ((steps.map (·.1)).foldl document docs) := by
  induction steps generalizing k docs with
  | nil => exact h
  | cons s steps ih =>
    obtain ⟨hs, hrs⟩ := h.step hreverse s
    exact ih hs hrs

/-- Indexes of the same documents are the same. -/
lemma Holds.alike {k' : KeywordIndex} (h : Holds T k docs) (h' : Holds T k' docs) : Alike k k' := by
  have hpostings : ∀ term, (k.postingsOf term).Perm (k'.postingsOf term) := fun term =>
    (List.perm_ext_iff_of_nodup (h.nodup term) (h'.nodup term)).mpr fun p =>
      ((h.held p.memoryId).postings term p.tf).trans ((h'.held p.memoryId).postings term p.tf).symm
  have hlengths : k.docLengths = k'.docLengths := funext fun id =>
    (h.held id).length.trans (h'.held id).length.symm
  have hkey : ∀ {k : KeywordIndex}, Tight k → ∀ term, term ∈ k.postings.keys ↔ k.postingsOf term ≠ [] := by
    intro k htight term
    rw [mem_keys_iff, KeywordIndex.postingsOf]
    cases hps : k.postings.lookup term with
    | none => simp
    | some ps =>
      refine iff_of_true rfl fun hnil => htight term ?_
      rw [hps, ← hnil]
      rfl
  obtain ⟨live, hlive, htokens, hdocs⟩ := h.totals
  obtain ⟨live', hlive', htokens', hdocs'⟩ := h'.totals
  obtain rfl : live = live' := by
    ext id
    rw [hlive, hlive', hlengths]
  refine ⟨?_, hpostings, hlengths, ?_, hdocs.trans hdocs'.symm⟩
  · ext term
    rw [hkey h.tight, hkey h'.tight, ne_eq, ne_eq, ← List.length_eq_zero_iff,
      ← List.length_eq_zero_iff, (hpostings term).length_eq]
  · rw [htokens, htokens', hlengths]

lemma document_entries (ids : KeyOrder MemoryId) (docs : Documents) :
    ((entries ids docs).map fun e => KeywordStep.index e.1 e.2).foldl document ∅ = docs := by
  have hfold : ∀ (es : List (MemoryId × String)) (ds : Documents) (id : MemoryId),
      (es.map (·.1)).Nodup →
      ((es.map fun e => KeywordStep.index e.1 e.2).foldl document ds).lookup id =
        ((es.find? (·.1 = id)).map (·.2)).or (ds.lookup id) := by
    intro es
    induction es with
    | nil => exact fun ds id _ => rfl
    | cons e es ih =>
      intro ds id hnodup
      rw [List.map_cons, List.nodup_cons] at hnodup
      rw [List.map_cons, List.foldl_cons, ih _ _ hnodup.2, document]
      by_cases he : e.1 = id
      · subst he
        have hnone : es.find? (fun x => decide (x.1 = e.1)) = none := by
          refine List.find?_eq_none.mpr fun x hx => ?_
          simp only [decide_eq_true_eq]
          exact fun heq => hnodup.1 (heq ▸ List.mem_map_of_mem hx)
        simp [hnone]
      · simp [he, Finmap.lookup_insert_of_ne _ (Ne.symm he)]
  refine Finmap.ext_lookup fun id => ?_
  rw [hfold _ _ _ (nodup_entries ids), Finmap.lookup_empty, Option.or_none]
  cases hfind : (entries ids docs).find? fun e => decide (e.1 = id) with
  | none =>
    refine (lookup_eq_none_iff.mpr fun hkey => ?_).symm
    obtain ⟨content, hcontent⟩ := Option.isSome_iff_exists.mp (mem_keys_iff.mp hkey)
    have hmem : (id, content) ∈ entries ids docs := mem_entries.mpr hcontent
    exact absurd (List.find?_eq_none.mp hfind _ hmem) (by simp)
  | some e =>
    have hmem := mem_entries.mp (List.mem_of_find?_eq_some hfind)
    have hid : e.1 = id := by simpa using List.find?_some hfind
    rw [← hid, hmem]
    rfl

lemma holds_fresh (order : KeyOrder String) (ids : KeyOrder MemoryId) (docs : Documents) :
    Holds T (fresh T order ids docs) docs := by
  have hrun := (holds_new (T := T)).run (reverseOk_deserialised .new)
    ((entries ids docs).map fun e => (KeywordStep.index e.1 e.2, order))
  rw [List.map_map, List.foldl_map] at hrun
  change Holds T (fresh T order ids docs)
    (((entries ids docs).map fun e => KeywordStep.index e.1 e.2).foldl document ∅) at hrun
  rwa [document_entries] at hrun

/-- Behind every run that indexes, removes, rebuilds and reloads in any order, whatever the order of
the terms was at each step, the index is that of the documents that are left, and finds no others. -/
theorem keyword_fresh {F : Type*} (T : Casing) (steps : List (KeywordStep × KeyOrder String)) :
    let k := steps.foldl (KeywordIndex.step T) .new
    let docs := (steps.map (·.1)).foldl document ∅
    (∀ order ids, Alike k (fresh T order ids docs)) ∧
      ∀ (bm : Bm25 F) order query limit, ∀ hit ∈ k.search bm T order query limit,
        hit.memoryId ∈ docs.keys := by
  intro k docs
  have hrun : Holds T k docs := holds_new.run (reverseOk_deserialised .new) steps
  refine ⟨fun order ids => hrun.alike (holds_fresh order ids docs), fun bm order query limit hit hhit => ?_⟩
  obtain ⟨term, p, hp, hpid⟩ := exists_of_mem_search hhit
  obtain ⟨content, hcontent, -⟩ := ((hrun.held p.memoryId).postings term p.tf).mp hp
  rw [← hpid]
  exact mem_keys_iff.mpr (by rw [hcontent]; rfl)

example : (fresh .ascii sorted upwards ((∅ : Documents).insert 1 "foo bar")).postingsOf "bar" =
    [⟨1, 1⟩] := by decide +kernel

/-- Scores that count the terms of a memory. -/
def counting : Bm25 ℕ where
  zero := 0
  add := (· + ·)
  less a b := decide (a < b)
  eq a b := decide (a = b)
  le a b := decide (a ≤ b)
  idf _ _ := 1
  rare _ _ := true
  share idf tf _ _ _ := idf * tf

/-- A memory that is indexed again between the preparation of a reverse index and its publication keeps
a posting behind its removal, and is still found. -/
theorem published_late :
    let before := KeywordIndex.new.index .ascii sorted 1 "foo"
    let after := (before.index .ascii sorted 1 "bar").index .ascii sorted 2 "qux"
    let k := (before.prepareReverseIndex sorted false).map fun r =>
      (after.publishReverseIndex r).remove sorted 1
    k.map (fun k => (k.postingsOf "bar", (k.search counting .ascii upwards "bar" 5).map (·.memoryId))) =
      some ([⟨1, 1⟩], [1]) := by
  decide +kernel

end ChittaField.Keyword
