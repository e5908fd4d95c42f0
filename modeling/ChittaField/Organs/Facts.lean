import ChittaField.Organs.Constraints

/-!
# The facts of the constraint store

A fact is found through one of three posting lists, and a pattern may leave a part open.  Two active
facts of a branch that say different things of the same are rivals; an assertion that would make
rivals opens a branch for its fact.

`facts_agree` says what holds along a run, and `chains_exact_iff` what a chain of predicates finds.
-/

namespace ChittaField.ConstraintStore

variable {F : Type}

/-! ## Posting lists -/

/-- An index has the ids of the facts with a key, in the order in which the facts were added. -/
def Posts {κ : Type} [DecidableEq κ] (index : IdIndex κ) (key : Constraint F → κ)
    (constraints : List (Constraint F)) : Prop :=
  ∀ x, (index x).getD [] = (constraints.filter (key · = x)).map Constraint.id

section Posts

variable {κ : Type} [DecidableEq κ] {index : IdIndex κ} {key : Constraint F → κ}
  {constraints : List (Constraint F)}

lemma Posts.push (h : Posts index key constraints) (c : Constraint F) :
    Posts (Maps.push index (key c) c.id) key (constraints ++ [c]) := by
  intro x
  rw [List.filter_append, List.map_append, ← h x, Maps.push]
  by_cases hx : x = key c
  · subst hx
    simp
  · simp [hx, Ne.symm hx]

lemma Posts.map (h : Posts index key constraints) {f : Constraint F → Constraint F}
    (hkey : ∀ c, key (f c) = key c) (hid : ∀ c, (f c).id = c.id) :
    Posts index key (constraints.map f) := by
  intro x
  rw [h x, List.filter_map, List.map_map]
  have hkeys : ((fun c => decide (key c = x)) ∘ f) = fun c => decide (key c = x) :=
    funext fun c => by rw [Function.comp_apply, hkey]
  rw [hkeys]
  exact List.map_congr_left fun c _ => (hid c).symm

end Posts

/-- The facts have different ids, and are found by them and by their parts. -/
structure Indexed (s : ConstraintStore F) : Prop where
  below : ∀ c ∈ s.constraints, c.id < s.nextId
  nodup : (s.constraints.map Constraint.id).Nodup
  known : ∀ id idx, s.idToIndex id = some idx ↔ (s.constraints.map Constraint.id)[idx]? = some id
  subjects : Posts s.bySubject Constraint.subject s.constraints
  predicates : Posts s.byPredicate Constraint.predicate s.constraints
  objects : Posts s.byObject Constraint.object s.constraints
  branches : Posts s.byBranch Constraint.branchId s.constraints

variable {s : ConstraintStore F}

lemma indexed_new : (new : ConstraintStore F).Indexed where
  below _ h := nomatch h
  nodup := List.nodup_nil
  known _ _ := ⟨nofun, nofun⟩
  subjects _ := rfl
  predicates _ := rfl
  objects _ := rfl
  branches _ := rfl

variable {c : Constraint F}

/-- A fact is got by its id. -/
lemma Indexed.get (h : s.Indexed) (hc : c ∈ s.constraints) : s.get c.id = some c := by
  obtain ⟨idx, hidx⟩ := List.mem_iff_getElem?.mp hc
  have hmap : (s.constraints.map Constraint.id)[idx]? = some c.id := by
    rw [List.getElem?_map, hidx]
    rfl
  unfold ConstraintStore.get
  rw [(h.known c.id idx).mpr hmap]
  exact hidx

/-- What is got by the ids of some facts. -/
lemma Indexed.filterMap_get (h : s.Indexed) {cs : List (Constraint F)}
    (hcs : ∀ c ∈ cs, c ∈ s.constraints) : (cs.map Constraint.id).filterMap s.get = cs := by
  rw [List.filterMap_map]
  refine (List.filterMap_congr fun c hc => ?_).trans (List.filterMap_some ..)
  exact h.get (hcs c hc)

/-- A fact with an id that is to come. -/
lemma Indexed.insertConstraint (h : s.Indexed) (hid : c.id < s.nextId)
    (hfresh : c.id ∉ s.constraints.map Constraint.id) : (s.insertConstraint c).Indexed where
  below := List.forall_mem_append.mpr ⟨h.below, List.forall_mem_singleton.mpr hid⟩
  nodup := by
    change ((s.constraints ++ [c]).map Constraint.id).Nodup
    rw [List.map_append, List.map_singleton]
    exact List.nodup_append.mpr ⟨h.nodup, List.nodup_singleton _, fun a ha b hb heq =>
      hfresh (List.mem_singleton.mp hb ▸ heq ▸ ha)⟩
  known id idx := by
    change Function.update s.idToIndex c.id (some s.constraints.length) id = some idx ↔
      ((s.constraints ++ [c]).map Constraint.id)[idx]? = some id
    have hlen : (s.constraints.map Constraint.id).length = s.constraints.length := List.length_map _
    have hmem : (s.constraints.map Constraint.id)[idx]? = some id → id ≠ c.id := by
      rintro hget rfl
      exact hfresh (List.mem_of_getElem? hget)
    rw [List.map_append, List.map_singleton, List.getElem?_append, hlen]
    by_cases hx : id = c.id
    · rw [hx, Function.update_self, Option.some.injEq]
      split
      · rename_i hlt
        refine ⟨fun heq => absurd heq hlt.ne', fun hget => absurd hx (hmem (hx ▸ hget))⟩
      · rename_i hge
        rw [List.getElem?_singleton]
        split <;> simp <;> omega
    · rw [Function.update_of_ne hx, h.known]
      split
      · rfl
      · rename_i hge
        rw [List.getElem?_eq_none (by omega), List.getElem?_singleton]
        split <;> simp [Ne.symm hx]
  subjects := h.subjects.push c
  predicates := h.predicates.push c
  objects := h.objects.push c
  branches := h.branches.push c

/-! ## Retraction -/

/-- A fact whose id is among some ids ends. -/
def ended (ids : List ℕ) (nowMs : ℤ) (c : Constraint F) : Constraint F :=
  if c.id ∈ ids then { c with validToMs := nowMs } else c

/-- The facts with some ids end. -/
def endAll (s : ConstraintStore F) (ids : List ℕ) (nowMs : ℤ) : ConstraintStore F :=
  { s with constraints := s.constraints.map (ended ids nowMs) }

@[simp]
lemma id_ended (ids : List ℕ) (nowMs : ℤ) (c : Constraint F) : (ended ids nowMs c).id = c.id := by
  unfold ended
  split <;> rfl

/-- What a fact says does not end. -/
lemma says_ended (ids : List ℕ) (nowMs : ℤ) (c : Constraint F) :
    (ended ids nowMs c).subject = c.subject ∧ (ended ids nowMs c).predicate = c.predicate ∧
      (ended ids nowMs c).object = c.object ∧ (ended ids nowMs c).scope = c.scope ∧
        (ended ids nowMs c).branchId = c.branchId := by
  unfold ended
  split <;> exact ⟨rfl, rfl, rfl, rfl, rfl⟩

lemma map_id_ended (ids : List ℕ) (nowMs : ℤ) (cs : List (Constraint F)) :
    (cs.map (ended ids nowMs)).map Constraint.id = cs.map Constraint.id := by
  rw [List.map_map]
  exact List.map_congr_left fun c _ => id_ended ids nowMs c

lemma Indexed.endAll (h : s.Indexed) (ids : List ℕ) (nowMs : ℤ) : (s.endAll ids nowMs).Indexed where
  below c hc := by
    obtain ⟨c', hc', rfl⟩ := List.mem_map.mp hc
    rw [id_ended]
    exact h.below c' hc'
  nodup := (map_id_ended ids nowMs s.constraints).symm ▸ h.nodup
  known id idx := (h.known id idx).trans
    (by rw [ConstraintStore.endAll, map_id_ended ids nowMs s.constraints])
  subjects := h.subjects.map (fun c => (says_ended ids nowMs c).1) (id_ended ids nowMs)
  predicates := h.predicates.map (fun c => (says_ended ids nowMs c).2.1) (id_ended ids nowMs)
  objects := h.objects.map (fun c => (says_ended ids nowMs c).2.2.1) (id_ended ids nowMs)
  branches := h.branches.map (fun c => (says_ended ids nowMs c).2.2.2.2) (id_ended ids nowMs)

/-- A retraction ends the fact of an id. -/
lemma Indexed.retract_eq (h : s.Indexed) (id : ℕ) (nowMs : ℤ) :
    (s.retract id nowMs).1 = s.endAll [id] nowMs := by
  unfold ConstraintStore.retract ConstraintStore.endAll
  cases hidx : s.idToIndex id with
  | none =>
    have hsame : s.constraints.map (ended [id] nowMs) = s.constraints := by
      refine (List.map_congr_left fun c hc => ?_).trans (List.map_id _)
      have hne : c.id ≠ id := by
        rintro rfl
        have hget := h.get hc
        rw [ConstraintStore.get, hidx] at hget
        cases hget
      simp [ended, hne]
    rw [hsame]
  | some idx =>
    have hsame : s.constraints.modify idx ({ · with validToMs := nowMs }) =
        s.constraints.map (ended [id] nowMs) := by
      have hat := (h.known id idx).mp hidx
      refine List.ext_getElem? fun j => ?_
      rw [List.getElem?_modify, List.getElem?_map]
      cases hj : s.constraints[j]? with
      | none => simp
      | some c =>
        have hid : idx = j ↔ c.id = id := by
          have hmap : (s.constraints.map Constraint.id)[j]? = some c.id := by
            rw [List.getElem?_map, hj]
            rfl
          constructor
          · rintro rfl
            exact Option.some.inj (hmap.symm.trans hat)
          · rintro rfl
            exact Option.some.inj (hidx.symm.trans ((h.known c.id j).mpr hmap))
        by_cases heq : idx = j
        · simp [ended, heq, hid.mp heq]
        · have hne : c.id ≠ id := fun hc => heq (hid.mpr hc)
          simp [ended, heq, hne]
    dsimp only
    rw [hsame]

/-- Retractions end the facts of their ids. -/
lemma Indexed.foldl_retract_eq (h : s.Indexed) (ids : List ℕ) (nowMs : ℤ) :
    ids.foldl (fun s id => (s.retract id nowMs).1) s = s.endAll ids nowMs := by
  induction ids generalizing s with
  | nil =>
    have hsame : s.constraints.map (ended [] nowMs) = s.constraints :=
      (List.map_congr_left fun c _ => if_neg List.not_mem_nil).trans (List.map_id _)
    rw [List.foldl_nil, ConstraintStore.endAll, hsame]
  | cons id ids ih =>
    rw [List.foldl_cons, h.retract_eq, ih (h.endAll [id] nowMs)]
    have hsame : (s.constraints.map (ended [id] nowMs)).map (ended ids nowMs) =
        s.constraints.map (ended (id :: ids) nowMs) := by
      rw [List.map_map]
      refine List.map_congr_left fun c _ => ?_
      by_cases hid : c.id = id <;> by_cases hids : c.id ∈ ids <;> simp [ended, hid, hids]
    unfold ConstraintStore.endAll
    rw [← hsame]

/-! ## Queries -/

/-- A pattern fits a part of a fact. -/
def fits (pattern : Option String) (part : String) : Bool := (fixed pattern).all (part == ·)

/-- A query finds the active facts of its pattern, in the order in which they were added. -/
theorem Indexed.queryUnify_eq (h : s.Indexed) (subject predicate object scope : Option String) :
    s.queryUnify subject predicate object scope = s.constraints.filter fun c => c.isActive &&
      fits subject c.subject && fits predicate c.predicate && fits object c.object &&
        fits scope c.scope := by
  have hfound : ∀ {p q : Constraint F → Bool}, (∀ c, q c = true → p c = true) →
      ((((s.constraints.filter p).map Constraint.id).filterMap s.get).filter q) =
        s.constraints.filter q := by
    intro p q hpq
    rw [h.filterMap_get fun c hc => List.mem_of_mem_filter hc, List.filter_filter]
    refine List.filter_congr fun c _ => ?_
    cases hq : q c with
    | false => rw [Bool.false_and]
    | true => rw [hpq c hq]; rfl
  unfold queryUnify fits
  cases hsubject : fixed subject with
  | some subj =>
    dsimp only
    rw [h.subjects subj]
    refine hfound fun c hc => ?_
    simp_all
  | none =>
    cases hpredicate : fixed predicate with
    | some pred =>
      dsimp only
      rw [h.predicates pred]
      refine hfound fun c hc => ?_
      simp_all
    | none =>
      cases hobject : fixed object with
      | some obj =>
        dsimp only
        rw [h.objects obj]
        refine hfound fun c hc => ?_
        simp_all
      | none =>
        dsimp only
        refine hfound fun c hc => ?_
        simp_all

/-! ## Rivals -/

/-- Two facts of a branch say different things of the same. -/
def Rivals (c d : Constraint F) : Prop :=
  c.subject = d.subject ∧ c.predicate = d.predicate ∧ c.scope = d.scope ∧ c.branchId = d.branchId ∧
    c.object ≠ d.object

/-- No two active facts are rivals. -/
def NoRivals (s : ConstraintStore F) : Prop :=
  ∀ c ∈ s.constraints, ∀ d ∈ s.constraints, c.isActive = true → d.isActive = true → ¬Rivals c d

instance Rivals.decidable (c d : Constraint F) : Decidable (Rivals c d) :=
  inferInstanceAs (Decidable (_ ∧ _ ∧ _ ∧ _ ∧ _))

instance NoRivals.decidable (s : ConstraintStore F) : Decidable s.NoRivals :=
  inferInstanceAs (Decidable (∀ c ∈ s.constraints, ∀ d ∈ s.constraints, _ → _ → ¬_))

lemma Rivals.symm {c d : Constraint F} (h : Rivals c d) : Rivals d c :=
  ⟨h.1.symm, h.2.1.symm, h.2.2.1.symm, h.2.2.2.1.symm, h.2.2.2.2.symm⟩

/-- A fact that is no rival of an active one may be added. -/
lemma NoRivals.insertConstraint (h : s.NoRivals)
    (hc : ∀ d ∈ s.constraints, d.isActive = true → ¬Rivals c d) :
    (s.insertConstraint c).NoRivals := by
  intro a ha b hb hactive hactive' hrivals
  rcases List.mem_append.mp ha with ha | ha <;> rcases List.mem_append.mp hb with hb | hb
  · exact h a ha b hb hactive hactive' hrivals
  · exact hc a ha hactive (List.mem_singleton.mp hb ▸ hrivals.symm)
  · exact hc b hb hactive' (List.mem_singleton.mp ha ▸ hrivals)
  · rw [List.mem_singleton.mp ha, List.mem_singleton.mp hb] at hrivals
    exact hrivals.2.2.2.2 rfl

lemma fits_self (part : String) : fits (some part) part = true := by
  unfold fits fixed
  rw [Option.filter_some]
  split <;> simp

/-- Where no conflict is detected, no active fact is a rival.  A part that is a wildcard finds more
facts, never fewer. -/
lemma Indexed.not_rivals (h : s.Indexed)
    (hnone : s.detectConflict c.subject c.predicate c.object c.scope c.branchId = none) :
    ∀ d ∈ s.constraints, d.isActive = true → ¬Rivals c d := by
  intro d hd hactive ⟨hsubject, hpredicate, hscope, hbranch, hobject⟩
  unfold detectConflict at hnone
  rw [Option.map_eq_none_iff, List.find?_eq_none, h.queryUnify_eq] at hnone
  refine hnone d (List.mem_filter.mpr ⟨hd, ?_⟩) ?_
  · rw [hactive, hsubject, hpredicate, hscope, fits_self, fits_self, fits_self]
    rfl
  · exact decide_eq_true ⟨hobject.symm, hbranch.symm⟩

/-- Facts that say the same and end do not become rivals, unless one that has ended comes back. -/
lemma NoRivals.endAll (h : s.NoRivals) {ids : List ℕ} {nowMs : ℤ}
    (hback : nowMs = 0 → ∀ c ∈ s.constraints, c.id ∈ ids → ∀ d ∈ s.constraints,
      d.id ∈ ids ∨ d.isActive = true → ¬Rivals c d) : (s.endAll ids nowMs).NoRivals := by
  intro c' hc' d' hd' hactive hactive' hrivals
  obtain ⟨c, hc, rfl⟩ := List.mem_map.mp hc'
  obtain ⟨d, hd, rfl⟩ := List.mem_map.mp hd'
  have hsame : Rivals c d := by
    obtain ⟨hs, hp, ho, hsc, hb⟩ := says_ended ids nowMs c
    obtain ⟨hs', hp', ho', hsc', hb'⟩ := says_ended ids nowMs d
    unfold Rivals at hrivals ⊢
    rwa [hs, hp, ho, hsc, hb, hs', hp', ho', hsc', hb'] at hrivals
  have hstate : ∀ e : Constraint F, (ended ids nowMs e).isActive = true →
      (e.id ∈ ids ∧ nowMs = 0) ∨ (e.id ∉ ids ∧ e.isActive = true) := by
    intro e he
    unfold ended at he
    split at he
    · rename_i hid
      exact .inl ⟨hid, by simpa [Constraint.isActive] using he⟩
    · rename_i hid
      exact .inr ⟨hid, he⟩
  rcases hstate c hactive with ⟨hid, hzero⟩ | ⟨-, hlive⟩
  · refine hback hzero c hc hid d hd ?_ hsame
    exact (hstate d hactive').imp And.left And.right
  · rcases hstate d hactive' with ⟨hid, hzero⟩ | ⟨-, hlive'⟩
    · exact hback hzero d hd hid c hc (.inr hlive) hsame.symm
    · exact h c hc d hd hlive hlive' hsame

/-! ## Runs -/

/-- What holds along a run. -/
structure Coherent (s : ConstraintStore F) : Prop where
  indexed : s.Indexed
  noRivals : s.NoRivals
  issued : ∀ c ∈ s.constraints, c.branchId < s.nextBranchId

lemma coherent_new : (new : ConstraintStore F).Coherent :=
  ⟨indexed_new, fun _ hc => (List.not_mem_nil hc).elim, fun _ hc => (List.not_mem_nil hc).elim⟩

/-- A call that brings no rivals back: an assertion is made into branch 0 or one that there is, and
what ends at the time 0, which makes it active, has no active rival. -/
def KeepsApart (s : ConstraintStore F) (c : ℤ × Call F) : Prop :=
  match c.2 with
  | .assertConstraint _ _ _ _ _ branchId _ _ => branchId < s.nextBranchId
  | .retractConstraint factId => c.1 = 0 → ∀ a ∈ s.constraints, a.id = factId →
    ∀ b ∈ s.constraints, b.isActive = true → ¬Rivals a b
  | .createConstraintBranch _ _ => True
  | .resolveConstraintBranch _ loserId => c.1 = 0 → s.branchIdToIndex loserId ≠ none →
    ∀ a ∈ s.constraints, ∀ b ∈ s.constraints, a.branchId = loserId → ¬Rivals a b

/-- Branches do not matter to what is found. -/
lemma Indexed.branch (h : s.Indexed) (nextBranchId : ℕ) (branches : List Branch)
    (branchIdToIndex : ℕ → Option ℕ) :
    ({ s with
      nextBranchId := nextBranchId
      branches := branches
      branchIdToIndex := branchIdToIndex } : ConstraintStore F).Indexed :=
  ⟨h.below, h.nodup, h.known, h.subjects, h.predicates, h.objects, h.branches⟩

/-- An id that has been given out is not that of a fact. -/
lemma Indexed.allocate (h : s.Indexed) {nextId : ℕ} (hle : s.nextId ≤ nextId) :
    ({ s with nextId := nextId } : ConstraintStore F).Indexed :=
  ⟨fun c hc => (h.below c hc).trans_le hle, h.nodup, h.known, h.subjects, h.predicates, h.objects,
    h.branches⟩

lemma Indexed.notMem_of_le (h : s.Indexed) {id : ℕ} (hle : s.nextId ≤ id) :
    id ∉ s.constraints.map Constraint.id := by
  intro hmem
  obtain ⟨c, hc, rfl⟩ := List.mem_map.mp hmem
  exact absurd (h.below c hc) (not_lt_of_ge hle)

lemma Coherent.endAll (h : s.Coherent) {ids : List ℕ} {nowMs : ℤ}
    (hback : nowMs = 0 → ∀ c ∈ s.constraints, c.id ∈ ids → ∀ d ∈ s.constraints,
      d.id ∈ ids ∨ d.isActive = true → ¬Rivals c d) : (s.endAll ids nowMs).Coherent := by
  refine ⟨h.indexed.endAll ids nowMs, h.noRivals.endAll hback, fun c hc => ?_⟩
  obtain ⟨c', hc', rfl⟩ := List.mem_map.mp hc
  rw [(says_ended ids nowMs c').2.2.2.2]
  exact h.issued c' hc'

/-- A fact is named by its id. -/
lemma Indexed.eq_of_id (h : s.Indexed) {c d : Constraint F} (hc : c ∈ s.constraints)
    (hd : d ∈ s.constraints) (hid : c.id = d.id) : c = d :=
  List.inj_on_of_nodup_map h.nodup hc hd hid

lemma Indexed.mem_branch_iff (h : s.Indexed) (hc : c ∈ s.constraints) (branchId : ℕ) :
    c.id ∈ (s.byBranch branchId).getD [] ↔ c.branchId = branchId := by
  rw [h.branches branchId, List.mem_map]
  constructor
  · rintro ⟨d, hd, hid⟩
    rw [← h.eq_of_id (List.mem_of_mem_filter hd) hc hid]
    exact of_decide_eq_true (List.mem_filter.mp hd).2
  · intro heq
    exact ⟨c, List.mem_filter.mpr ⟨hc, decide_eq_true heq⟩, rfl⟩

lemma Indexed.resolveBranch (h : s.Indexed) (winnerId loserId : ℕ) (nowMs : ℤ) :
    (s.resolveBranch winnerId loserId nowMs).1.Indexed := by
  unfold ConstraintStore.resolveBranch
  cases s.branchIdToIndex loserId with
  | none => exact h
  | some idx =>
    have habandoned : (s.setStatus idx .abandoned).Indexed := h.branch _ _ _
    have hended := habandoned.endAll ((s.byBranch loserId).getD []) nowMs
    dsimp only
    rw [habandoned.foldl_retract_eq]
    split
    · exact hended.branch _ _ _
    · exact hended

variable [F32 F]

lemma Indexed.assertFact (h : s.Indexed) {o : AssertConstraintOp F} (hid : o.factId = s.nextId) :
    (s.assertFact o).Indexed := by
  have hallocated := h.allocate (Nat.le_succ s.nextId)
  have hlt : o.factId < s.nextId + 1 := hid.trans_lt (Nat.lt_succ_self _)
  have hfresh : o.factId ∉ s.constraints.map Constraint.id := h.notMem_of_le hid.ge
  unfold ConstraintStore.assertFact
  dsimp only
  split
  · exact (hallocated.branch _ _ _).insertConstraint hlt hfresh
  · exact hallocated.insertConstraint hlt hfresh

lemma Indexed.call (h : s.Indexed) (now : ℤ) (c : Call F) : (s.call now c).1.Indexed := by
  cases c with
  | assertConstraint =>
    exact h.assertFact rfl
  | retractConstraint factId =>
    change (s.retract factId now).1.Indexed
    rw [h.retract_eq]
    exact h.endAll _ _
  | createConstraintBranch => exact h.branch _ _ _
  | resolveConstraintBranch winnerId loserId => exact h.resolveBranch winnerId loserId now

/-- A replay of a fact needs an id of its own. -/
lemma Indexed.apply (h : s.Indexed) {op : Op F}
    (hfresh : ∀ o, op = .assertConstraint o → o.factId ∉ s.constraints.map Constraint.id) :
    (s.apply op).Indexed := by
  cases op with
  | assertConstraint o =>
    have hle : s.nextId ≤ if s.nextId ≤ o.factId then o.factId + 1 else s.nextId := by
      split <;> omega
    refine (h.allocate hle).insertConstraint ?_ (hfresh o rfl)
    change o.factId < if s.nextId ≤ o.factId then o.factId + 1 else s.nextId
    split <;> omega
  | retractConstraint o =>
    change (s.retract o.factId o.retractedAtMs).1.Indexed
    rw [h.retract_eq]
    exact h.endAll _ _
  | createBranch o => exact h.branch _ _ _
  | resolveBranch o => exact h.resolveBranch o.winnerId o.loserId o.resolvedAtMs
  | _ => exact h

/-- An assertion keeps the branches free of rivals: a conflict is detected, and the branch that is
opened has no facts. -/
lemma Coherent.assertFact (h : s.Coherent) {o : AssertConstraintOp F} (hid : o.factId = s.nextId)
    (hbranch : o.branchId < s.nextBranchId) : (s.assertFact o).Coherent := by
  have hallocated := h.indexed.allocate (Nat.le_succ s.nextId)
  refine ⟨h.indexed.assertFact hid, ?_, ?_⟩
  · unfold ConstraintStore.assertFact
    dsimp only
    split
    · -- the branch that is opened has no facts
      refine NoRivals.insertConstraint h.noRivals fun d hd _ hrivals => ?_
      exact absurd hrivals.2.2.2.1 (h.issued d hd).ne'
    · rename_i hconflict
      refine NoRivals.insertConstraint h.noRivals ?_
      exact hallocated.not_rivals (c := asserted o o.branchId) hconflict
  · unfold ConstraintStore.assertFact
    dsimp only
    split
    · exact List.forall_mem_append.mpr ⟨fun c hc => (h.issued c hc).trans (Nat.lt_succ_self _),
        List.forall_mem_singleton.mpr (Nat.lt_succ_self _)⟩
    · exact List.forall_mem_append.mpr ⟨h.issued, List.forall_mem_singleton.mpr hbranch⟩

lemma Coherent.call (h : s.Coherent) {c : ℤ × Call F} (hapart : s.KeepsApart c) :
    (s.call c.1 c.2).1.Coherent := by
  obtain ⟨now, call⟩ := c
  cases call with
  | assertConstraint =>
    exact h.assertFact rfl hapart
  | retractConstraint factId =>
    change (s.retract factId now).1.Coherent
    rw [h.indexed.retract_eq]
    refine h.endAll fun hzero a ha hid b hb hactive => ?_
    have hid' : a.id = factId := List.mem_singleton.mp hid
    rcases hactive with hsame | hactive
    · rw [h.indexed.eq_of_id hb ha ((List.mem_singleton.mp hsame).trans hid'.symm)]
      exact fun hrivals => hrivals.2.2.2.2 rfl
    · exact hapart hzero a ha hid' b hb hactive
  | createConstraintBranch =>
    exact ⟨h.indexed.branch _ _ _, h.noRivals,
      fun c hc => (h.issued c hc).trans (Nat.lt_succ_self _)⟩
  | resolveConstraintBranch winnerId loserId =>
    change (s.resolveBranch winnerId loserId now).1.Coherent
    unfold ConstraintStore.resolveBranch
    cases hloser : s.branchIdToIndex loserId with
    | none => exact h
    | some idx =>
      have habandoned : (s.setStatus idx .abandoned).Coherent :=
        ⟨h.indexed.branch _ _ _, h.noRivals, h.issued⟩
      have hended : ((s.setStatus idx .abandoned).endAll
          ((s.byBranch loserId).getD []) now).Coherent := by
        refine habandoned.endAll fun hzero a ha hid b hb _ => ?_
        refine hapart hzero (hloser ▸ Option.some_ne_none _) a ha b hb ?_
        exact (h.indexed.mem_branch_iff ha loserId).mp hid
      dsimp only
      rw [habandoned.indexed.foldl_retract_eq]
      split
      · exact ⟨hended.indexed.branch _ _ _, hended.noRivals, hended.issued⟩
      · exact hended

/-- Along a run that brings no rivals back, the active facts of a branch agree, an assertion that
would make rivals conflicts, and a query finds the active facts of its pattern, each of them once,
in the order in which they were added. -/
theorem facts_agree {calls : List (ℤ × Call F)}
    (hall : Replayed.All (fun s c => s.call c.1 c.2) KeepsApart new calls) :
    let s := (Replayed.run (fun s c => s.call c.1 c.2) new calls).1
    s.NoRivals ∧
      (∀ o : AssertConstraintOp F,
        s.detectConflict o.subject o.predicate o.object o.scope o.branchId = none →
          (s.insertConstraint (asserted o o.branchId)).NoRivals) ∧
      (s.constraints.map Constraint.id).Nodup ∧
      ∀ subject predicate object scope, s.queryUnify subject predicate object scope =
        s.constraints.filter fun c => c.isActive && fits subject c.subject &&
          fits predicate c.predicate && fits object c.object && fits scope c.scope := by
  have h := Replayed.invariant_run Coherent (fun s c h hapart => h.call hapart) coherent_new hall
  refine ⟨h.noRivals, fun o hnone => ?_, h.indexed.nodup, h.indexed.queryUnify_eq⟩
  exact h.noRivals.insertConstraint (h.indexed.not_rivals (c := asserted o o.branchId) hnone)

/-- Assert a color. -/
def sampleColor (subject object : String) (branchId : ℕ) : Call ℚ :=
  .assertConstraint subject "color" object 1 "global" branchId ⟨"tool", none, "observed"⟩ none

/-- A fact that was retracted, and then contradicted, is active again when it is retracted at the
time 0, which the clock gives before 1970. -/
theorem rivals_return :
    ¬(Replayed.run (fun s c => s.call c.1 c.2) (new : ConstraintStore ℚ)
      [(4, sampleColor "X" "red" 0), (5, .retractConstraint 1), (6, sampleColor "X" "blue" 0),
        (0, .retractConstraint 1)]).1.NoRivals := by
  decide +kernel

/-- Two colors conflict, a third is asserted in the branch that was opened, and the trunk wins. -/
def sampleFacts : List (ℤ × Call ℚ) :=
  [(4, sampleColor "X" "red" 0), (5, sampleColor "X" "blue" 0), (6, sampleColor "X" "green" 1),
    (7, .resolveConstraintBranch 0 1), (8, .retractConstraint 1)]

/-- No two colors of a branch are active. -/
theorem facts_agree_sample :
    (Replayed.run (fun s c => s.call c.1 c.2) (new : ConstraintStore ℚ) sampleFacts).1.NoRivals := by
  have hall : Replayed.All (fun s c => s.call c.1 c.2) KeepsApart (new : ConstraintStore ℚ)
      sampleFacts := by
    refine ⟨Nat.lt_succ_self 0, ?_, ?_, fun hzero => ?_, fun hzero => ?_, trivial⟩
    · change 0 < nextBranchId _
      decide +kernel
    · change 1 < nextBranchId _
      decide +kernel
    · exact absurd hzero (by decide)
    · exact absurd hzero (by decide)
  exact (facts_agree hall).1

/-! ## Chains -/

omit [F32 F] in
/-- Follow a chain of predicates from a subject. -/
def queryChain (s : ConstraintStore F) : String → List String → ℕ → List (List (Constraint F))
  | _, [], _ => []
  | _, _ :: _, 0 => []
  | start, p :: ps, maxDepth + 1 =>
    let depth := min (ps.length + 1) (maxDepth + 1)
    let firstMatches := s.queryUnify (some start) (some p) none none
    if depth = 1 then firstMatches.map ([·])
    else firstMatches.flatMap fun first =>
      (s.queryChain first.object ps (depth - 1)).map (first :: ·)

/-- A chain of active facts: the first is about the start, each other one about the object of the one
before, and they have the predicates. -/
structure IsChainOf (s : ConstraintStore F) (start : String) (ps : List String)
    (fs : List (Constraint F)) : Prop where
  active : ∀ f ∈ fs, f ∈ s.constraints ∧ f.isActive = true
  start : fs.head?.map Constraint.subject = some start
  predicates : fs.map Constraint.predicate = ps
  linked : fs.IsChain fun f g => g.subject = f.object

/-- Some facts that fit lead through all of the predicates. -/
def Leads (s : ConstraintStore F) : String → List String → Prop
  | _, [] => True
  | start, p :: ps => ∃ f ∈ s.constraints, f.isActive = true ∧
    fits (some start) f.subject = true ∧ fits (some p) f.predicate = true ∧ s.Leads f.object ps

/-- Wherever a fact fits, and leads on through all of the predicates, it has that very subject and
predicate. -/
def Anchored (s : ConstraintStore F) : String → List String → Prop
  | _, [] => True
  | start, p :: ps => ∀ f ∈ s.constraints, f.isActive = true →
    fits (some start) f.subject = true → fits (some p) f.predicate = true → s.Leads f.object ps →
      f.subject = start ∧ f.predicate = p ∧ s.Anchored f.object ps

/-! ### What a query follows -/

variable {ps : List String} {start : String}

section Following

omit [F32 F]

/-- Facts that fit, one behind the other, through all of the predicates. -/
def Fitting (s : ConstraintStore F) : String → List String → List (Constraint F) → Prop
  | _, [], [] => True
  | start, p :: ps, f :: fs => (f ∈ s.constraints ∧ f.isActive = true ∧
      fits (some start) f.subject = true ∧ fits (some p) f.predicate = true) ∧ s.Fitting f.object ps fs
  | _, _, _ => False

/-- Facts that follow each other through all of the predicates. -/
def Following (s : ConstraintStore F) : String → List String → List (Constraint F) → Prop
  | _, [], [] => True
  | start, p :: ps, f :: fs => (f ∈ s.constraints ∧ f.isActive = true ∧
      f.subject = start ∧ f.predicate = p) ∧ s.Following f.object ps fs
  | _, _, _ => False

lemma leads_iff :
    s.Leads start ps ↔ ∃ fs, s.Fitting start ps fs := by
  induction ps generalizing start with
  | nil => exact ⟨fun _ => ⟨[], trivial⟩, fun _ => trivial⟩
  | cons p ps ih =>
    constructor
    · rintro ⟨f, hf, hactive, hsubject, hpredicate, hleads⟩
      obtain ⟨fs, hfs⟩ := ih.mp hleads
      exact ⟨f :: fs, ⟨hf, hactive, hsubject, hpredicate⟩, hfs⟩
    · rintro ⟨fs, hfs⟩
      cases fs with
      | nil => exact hfs.elim
      | cons f fs =>
        obtain ⟨⟨hf, hactive, hsubject, hpredicate⟩, hrest⟩ := hfs
        exact ⟨f, hf, hactive, hsubject, hpredicate, ih.mpr ⟨fs, hrest⟩⟩

variable {fs : List (Constraint F)}

lemma Following.fitting (h : s.Following start ps fs) : s.Fitting start ps fs := by
  induction ps generalizing start fs with
  | nil => cases fs <;> exact h
  | cons p ps ih =>
    cases fs with
    | nil => exact h
    | cons f fs =>
      obtain ⟨⟨hf, hactive, rfl, rfl⟩, hrest⟩ := h
      exact ⟨⟨hf, hactive, fits_self _, fits_self _⟩, ih hrest⟩

/-- What fits follows iff the subjects and predicates are anchored. -/
lemma anchored_iff :
    s.Anchored start ps ↔ ∀ fs, s.Fitting start ps fs → s.Following start ps fs := by
  induction ps generalizing start with
  | nil =>
    refine ⟨fun _ fs hfs => ?_, fun _ => trivial⟩
    cases fs <;> exact hfs
  | cons p ps ih =>
    constructor
    · intro h fs hfs
      cases fs with
      | nil => exact hfs
      | cons f fs =>
        obtain ⟨⟨hf, hactive, hsubject, hpredicate⟩, hrest⟩ := hfs
        obtain ⟨hsubject', hpredicate', hanchored⟩ :=
          h f hf hactive hsubject hpredicate (leads_iff.mpr ⟨fs, hrest⟩)
        exact ⟨⟨hf, hactive, hsubject', hpredicate'⟩, ih.mp hanchored fs hrest⟩
    · intro h f hf hactive hsubject hpredicate hleads
      have hnext : ∀ fs, s.Fitting f.object ps fs → s.Following start (p :: ps) (f :: fs) :=
        fun fs hfs => h (f :: fs) ⟨⟨hf, hactive, hsubject, hpredicate⟩, hfs⟩
      obtain ⟨fs, hfs⟩ := leads_iff.mp hleads
      obtain ⟨-, -, hsubject', hpredicate'⟩ := (hnext fs hfs).1
      exact ⟨hsubject', hpredicate', ih.mpr fun fs hfs => (hnext fs hfs).2⟩

lemma isChainOf_iff :
    s.IsChainOf start ps fs ↔ fs ≠ [] ∧ s.Following start ps fs := by
  induction ps generalizing start fs with
  | nil =>
    constructor
    · intro h
      have hnil := h.predicates
      rw [List.map_eq_nil_iff] at hnil
      subst hnil
      exact absurd h.start (Option.some_ne_none _).symm
    · rintro ⟨hne, hfs⟩
      cases fs with
      | nil => exact absurd rfl hne
      | cons f fs => exact hfs.elim
  | cons p ps ih =>
    cases fs with
    | nil => exact ⟨fun h => absurd h.start (Option.some_ne_none _).symm, fun h => absurd rfl h.1⟩
    | cons f fs =>
      constructor
      · intro h
        obtain ⟨hpredicate, hpredicates⟩ := List.cons.inj h.predicates
        obtain ⟨hf, hactive⟩ := h.active f List.mem_cons_self
        refine ⟨List.cons_ne_nil _ _, ⟨hf, hactive, Option.some.inj h.start, hpredicate⟩, ?_⟩
        cases fs with
        | nil =>
          rw [← hpredicates]
          trivial
        | cons g fs =>
          obtain ⟨hlink, hlinked⟩ := List.isChain_cons_cons.mp h.linked
          refine (ih.mp ⟨(List.forall_mem_cons.mp h.active).2, ?_, hpredicates,
            hlinked⟩).2
          rw [← hlink]
          rfl
      · rintro ⟨-, ⟨hf, hactive, hsubject, hpredicate⟩, hrest⟩
        cases fs with
        | nil =>
          cases ps with
          | nil =>
            refine ⟨fun e he => ?_, ?_, ?_, List.isChain_singleton _⟩
            · rw [List.mem_singleton.mp he]
              exact ⟨hf, hactive⟩
            · rw [← hsubject]
              rfl
            · rw [← hpredicate]
              rfl
          | cons q qs => exact hrest.elim
        | cons g fs =>
          have hchain := ih.mpr ⟨List.cons_ne_nil g fs, hrest⟩
          refine ⟨fun e he => ?_, ?_, ?_, List.isChain_cons_cons.mpr ⟨?_, hchain.linked⟩⟩
          · rcases List.mem_cons.mp he with rfl | he
            · exact ⟨hf, hactive⟩
            · exact hchain.active e he
          · rw [← hsubject]
            rfl
          · rw [List.map_cons, hchain.predicates, hpredicate]
          · exact Option.some.inj hchain.start

/-- The facts of a hop. -/
lemma Indexed.mem_hop_iff (h : s.Indexed) {start p : String} {f : Constraint F} :
    f ∈ s.queryUnify (some start) (some p) none none ↔ f ∈ s.constraints ∧ f.isActive = true ∧
      fits (some start) f.subject = true ∧ fits (some p) f.predicate = true := by
  rw [h.queryUnify_eq, List.mem_filter]
  refine and_congr_right fun _ => ?_
  simp [fits, fixed, and_assoc]

/-- A query follows the facts that fit. -/
lemma Indexed.mem_queryChain_iff (h : s.Indexed) {maxDepth : ℕ} : fs ∈ s.queryChain start ps maxDepth ↔
      fs ≠ [] ∧ s.Fitting start (ps.take maxDepth) fs := by
  induction ps generalizing start maxDepth fs with
  | nil =>
    rw [List.take_nil]
    cases fs <;> simp [queryChain, Fitting]
  | cons p ps ih =>
    cases maxDepth with
    | zero =>
      rw [List.take_zero]
      cases fs <;> simp [queryChain, Fitting]
    | succ n =>
      rw [List.take_succ_cons]
      simp only [queryChain]
      split
      · -- the last hop
        rename_i hdepth
        have hlast : ps.take n = [] := by
          rw [List.take_eq_nil_iff]
          rcases Nat.eq_zero_or_pos n with hn | hn
          · exact .inl hn
          · exact .inr (List.length_eq_zero_iff.mp (by omega))
        rw [hlast, List.mem_map]
        constructor
        · rintro ⟨f, hf, rfl⟩
          exact ⟨List.cons_ne_nil _ _, h.mem_hop_iff.mp hf, trivial⟩
        · rintro ⟨hne, hfs⟩
          cases fs with
          | nil => exact absurd rfl hne
          | cons f fs =>
            obtain ⟨hf, hrest⟩ := hfs
            cases fs with
            | nil => exact ⟨f, h.mem_hop_iff.mpr hf, rfl⟩
            | cons g fs => exact hrest.elim
      · rename_i hdepth
        have hmore : ps.take n ≠ [] := by
          rw [Ne, List.take_eq_nil_iff]
          rintro (hn | hnil)
          · omega
          · rw [hnil] at hdepth
            exact hdepth (by rw [List.length_nil]; omega)
        have hmin : ps.take (min (ps.length + 1) (n + 1) - 1) = ps.take n := by
          rw [List.take_eq_take_iff]
          omega
        rw [List.mem_flatMap]
        constructor
        · rintro ⟨f, hf, hfs⟩
          obtain ⟨rest, hrest, rfl⟩ := List.mem_map.mp hfs
          obtain ⟨-, hfitting⟩ := ih.mp hrest
          rw [hmin] at hfitting
          exact ⟨List.cons_ne_nil _ _, h.mem_hop_iff.mp hf, hfitting⟩
        · rintro ⟨hne, hfs⟩
          cases fs with
          | nil => exact absurd rfl hne
          | cons f fs =>
            obtain ⟨hf, hrest⟩ := hfs
            refine ⟨f, h.mem_hop_iff.mpr hf, List.mem_map.mpr ⟨fs, ih.mpr ⟨?_, ?_⟩, rfl⟩⟩
            · rintro rfl
              cases hps : ps.take n with
              | nil => exact hmore hps
              | cons q qs =>
                rw [hps] at hrest
                exact hrest
            · rwa [hmin]

/-- A query finds no chain twice. -/
lemma Indexed.nodup_queryChain (h : s.Indexed) (start : String) (ps : List String) (maxDepth : ℕ) :
    (s.queryChain start ps maxDepth).Nodup := by
  have hhop : ∀ start p, (s.queryUnify (some start) (some p) none none).Nodup := fun start p => by
    rw [h.queryUnify_eq]
    exact (List.Nodup.of_map _ h.nodup).filter _
  induction ps generalizing start maxDepth with
  | nil => exact List.nodup_nil
  | cons p ps ih =>
    cases maxDepth with
    | zero => exact List.nodup_nil
    | succ n =>
      simp only [queryChain]
      split
      · exact (hhop start p).map fun f g hfg => List.singleton_inj.mp hfg
      · refine List.nodup_flatMap.mpr ⟨fun f _ => ?_, (hhop start p).imp fun hne => ?_⟩
        · exact (ih f.object _).map fun a b hab => (List.cons.inj hab).2
        · intro fs hfs hfs'
          obtain ⟨rest, -, rfl⟩ := List.mem_map.mp hfs
          obtain ⟨rest', -, heq⟩ := List.mem_map.mp hfs'
          exact hne (List.cons.inj heq).1.symm

end Following

/-! ### Stores -/

/-- A store that calls and replays have built; no replay brings a fact with the id of another. -/
inductive Built : ConstraintStore F → Prop
  | new : Built .new
  | call {s : ConstraintStore F} (h : Built s) (now : ℤ) (c : Call F) : Built (s.call now c).1
  | apply {s : ConstraintStore F} (h : Built s) (op : Op F)
      (hfresh : ∀ o, op = .assertConstraint o → o.factId ∉ s.constraints.map Constraint.id) :
      Built (s.apply op)

lemma Built.indexed (h : s.Built) : s.Indexed := by
  induction h with
  | new => exact indexed_new
  | call _ now c ih => exact ih.call now c
  | apply _ op hfresh ih => exact ih.apply hfresh

/-- A query finds the chains of active facts, each of them once, iff wherever a fact fits and leads on
to the end it has the subject and predicate that were asked for. -/
theorem chains_exact_iff (h : s.Built) (start : String) (ps : List String) (maxDepth : ℕ) :
    ((s.queryChain start ps maxDepth).Nodup ∧ ∀ fs, fs ∈ s.queryChain start ps maxDepth ↔
      s.IsChainOf start (ps.take maxDepth) fs) ↔ s.Anchored start (ps.take maxDepth) := by
  have hmem : ∀ fs, fs ∈ s.queryChain start ps maxDepth ↔
      fs ≠ [] ∧ s.Fitting start (ps.take maxDepth) fs := fun fs => h.indexed.mem_queryChain_iff
  rw [and_iff_right (h.indexed.nodup_queryChain start ps maxDepth), anchored_iff]
  constructor
  · intro hchains fs hfs
    cases fs with
    | nil =>
      cases hps : ps.take maxDepth with
      | nil => trivial
      | cons p qs =>
        rw [hps] at hfs
        exact hfs.elim
    | cons f fs =>
      exact (isChainOf_iff.mp ((hchains _).mp ((hmem _).mpr ⟨List.cons_ne_nil f fs, hfs⟩))).2
  · intro hanchored fs
    rw [hmem, isChainOf_iff]
    exact and_congr_right fun _ => ⟨hanchored fs, Following.fitting⟩

omit [F32 F] in
/-- Where nothing is a wildcard, everything is anchored. -/
lemma anchored_of_fixed (hstart : fixed (some start) = some start)
    (hps : ∀ p ∈ ps, fixed (some p) = some p)
    (hobjects : ∀ f ∈ s.constraints, fixed (some f.object) = some f.object) : s.Anchored start ps := by
  induction ps generalizing start with
  | nil => trivial
  | cons p ps ih =>
    intro f hf _ hsubject hpredicate _
    rw [fits, hstart] at hsubject
    rw [fits, hps p List.mem_cons_self] at hpredicate
    refine ⟨eq_of_beq hsubject, eq_of_beq hpredicate, ?_⟩
    exact ih (hobjects f hf) (List.forall_mem_cons.mp hps).2

/-- Three colors. -/
def sampleChain (last : String) : ConstraintStore ℚ :=
  (Replayed.run (fun s c => s.call c.1 c.2) new
    [(1, sampleColor "A" "B" 0), (2, sampleColor "B" last 0), (3, sampleColor "C" "D" 0)]).1

lemma built_sampleChain (last : String) : (sampleChain last).Built :=
  (((Built.new (F := ℚ)).call 1 (sampleColor "A" "B" 0)).call 2 (sampleColor "B" last 0)).call 3
    (sampleColor "C" "D" 0)

/-- An object that is a wildcard leads on to every subject. -/
theorem chain_through_wildcard :
    (((sampleChain "_").queryChain "B" ["color", "color"] 2).map fun fs =>
      fs.map fun f => (f.subject, f.object)) =
        [[("B", "_"), ("A", "B")], [("B", "_"), ("B", "_")], [("B", "_"), ("C", "D")]] ∧
      ¬∀ fs, fs ∈ (sampleChain "_").queryChain "B" ["color", "color"] 2 ↔
        (sampleChain "_").IsChainOf "B" (["color", "color"].take 2) fs := by
  refine ⟨by decide +kernel, fun h => ?_⟩
  have hlinked : ∀ fs ∈ (sampleChain "_").queryChain "B" ["color", "color"] 2,
      fs.IsChain fun f g => g.subject = f.object := fun fs hfs => ((h fs).mp hfs).linked
  revert hlinked
  decide +kernel

/-- Two chains of two facts, where no object is a wildcard. -/
theorem chains_exact_sample :
    ((sampleChain "C").queryChain "A" ["color", "color"] 3).Nodup ∧
      ∀ fs, fs ∈ (sampleChain "C").queryChain "A" ["color", "color"] 3 ↔
        (sampleChain "C").IsChainOf "A" (["color", "color"].take 3) fs :=
  (chains_exact_iff (built_sampleChain "C") "A" ["color", "color"] 3).mpr
    (anchored_of_fixed rfl (by decide) (by decide +kernel))

end ChittaField.ConstraintStore
