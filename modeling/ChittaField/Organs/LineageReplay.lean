import ChittaField.Lib.Appends
import ChittaField.Lib.Replayed
import ChittaField.Organs.WisdomLineage

/-!
# Lineages behind a restart

The calls that change the wisdom lineage store, what they log, and the replay of it.

The log differs from what was done in four places.  A candidate that is enrolled again, which changes
nothing, is logged as a new enrolment; the version of a lineage with an ancestor is logged as zero; the
evidence against a lineage is not logged at all; and staleness is logged only where it has moved the
lineage.  `lineages_survive` says that without these a replay of the log rebuilds the store.
-/

namespace ChittaField

variable {F : Type}

/-! ## Live calls -/

/-- What an intervention does. -/
inductive ActionType where
  | toolCall
  | multiStepPlan
  | delegation
  | edit
  | command
  deriving DecidableEq, Repr

/-- The name of an action, in lower case. -/
def ActionType.lowerName : ActionType → String
  | .toolCall => "toolcall"
  | .multiStepPlan => "multistepplan"
  | .delegation => "delegation"
  | .edit => "edit"
  | .command => "command"

/-- The status of an intervention. -/
inductive InterventionStatus where
  | isOpen
  | succeeded
  | failed
  | partly
  | aborted
  deriving DecidableEq, Repr

/-- The name of a status. -/
def InterventionStatus.name : InterventionStatus → String
  | .isOpen => "Open"
  | .succeeded => "Succeeded"
  | .failed => "Failed"
  | .partly => "Partial"
  | .aborted => "Aborted"

/-- An intervention of this status speaks against the lineages that it fits. -/
def InterventionStatus.challenges : InterventionStatus → Bool
  | .failed => true
  | .aborted => true
  | _ => false

namespace WisdomLineageStore

/-- A store of lineages in a call. -/
abbrev Session (F : Type) := Progress (WisdomLineageStore F) (Op F)

/-- A call that changes lineages.  A surprise comes with the id and the data of its event, which has
been logged; an intervention with the domain and the action that its record has, if there is one. -/
inductive Call (F : Type) where
  | enrollWisdomLineage (e : Enrolment)
  | recordSurprise (eventId : ℕ) (domain action : String) (magnitude : F)
  | closeIntervention (interventionId : ℕ) (record : Option (String × ActionType))
      (status : InterventionStatus)
  | transitionWisdomLineage (lineageId newState : ℕ) (reason : String) (rederiveTaskId : Option ℕ)
  | closeRederive (lineageId action : ℕ) (newEnvelopeJson forkClaim : Option String)
      (forkLineageId : Option ℕ)
  | tickLineageStaleness

/-- What is not in the source: the parser of envelopes, and numbers with two decimals. -/
structure Outside (F : Type) where
  fromJson : String → Option ApplicabilityEnvelope
  twoDecimals : F → String

/-- The operation that tells of the masses of a lineage. -/
def adjudicateOp (l : WisdomLineage F) (id : ℕ) (now : ℤ) : AdjudicateLineageOp F :=
  ⟨id, l.supportMass, l.contradictionMass, l.stalenessMass, l.lastSupportedMs, l.lastChallengedMs, now⟩

/-- What is logged of an adjudication. -/
def adjudicationOps (s : WisdomLineageStore F) (id : ℕ) (newState : Option LineageState)
    (reason : String) (now : ℤ) : List (Op F) :=
  match s.get id with
  | none => []
  | some l =>
    .adjudicateLineage (adjudicateOp l id now) ::
      (newState.map fun ns =>
        Op.transitionLineage ⟨id, l.state.asU8, ns.asU8, reason, none, now⟩).toList

/-- What is logged of a lineage that staleness has moved. -/
def tickOps (s : WisdomLineageStore F) (now : ℤ) (id : ℕ) : List (Op F) :=
  match s.get id with
  | none => []
  | some l =>
    [.adjudicateLineage (adjudicateOp l id now),
      .transitionLineage ⟨id, 0, l.state.asU8, "staleness_tick", none, now⟩]

variable [F32 F]

/-- Adjudicate a lineage, log it, and attach the evidence against it. -/
def adjudicateLogged (support contradiction : F) (reason : String)
    (challenger : Option ChallengerEvidence) (now : ℤ) (r : Session F) (id : ℕ) : Session F :=
  if r.failed then r
  else
    let a := r.store.adjudicate id support contradiction (F32.lit 0) now
    (({ r with store := a.1 }.appendAll (a.1.adjudicationOps id a.2 reason now)).change
      fun s => challenger.elim s fun evidence => s.recordChallenger id evidence now)

/-- The support and the contradiction in the outcome of an intervention. -/
def outcomeDeltas : InterventionStatus → F × F
  | .succeeded => (supportDeltaHit F, F32.lit 0)
  | .failed => (F32.lit 0, contradictionDeltaHit F)
  | .aborted => (F32.lit 0, contradictionDeltaHit F)
  | .partly => (F32.mul (supportDeltaHit F) (F32.lit (3 / 10)),
      F32.mul (contradictionDeltaHit F) (F32.lit (3 / 10)))
  | .isOpen => (F32.lit 0, F32.lit 0)

/-- The lineages that a call adjudicates. -/
def matching (s : WisdomLineageStore F) : Call F → List ℕ
  | .recordSurprise _ domain action _ => s.findByEnvelope domain action
  | .closeIntervention _ (some (domain, actionType)) _ =>
    if domain = "" then [] else s.findByEnvelope domain actionType.lowerName
  | _ => []

/-- Make a call. -/
def call (ext : Outside F) (now : ℤ) (r : Session F) (c : Call F) : Session F :=
  let s := r.store
  match c with
  | .enrollWisdomLineage e =>
    let enrolled := s.enroll e ((ext.fromJson e.envelopeJson).getD default) now
    { r with store := enrolled.1 }.append (.upsertWisdomLineage (e.op enrolled.2 now))
  | .recordSurprise eventId _ _ magnitude =>
    let challenger : ChallengerEvidence :=
      ⟨none, some eventId, "surprise magnitude " ++ ext.twoDecimals magnitude, now⟩
    (s.matching c).foldl (adjudicateLogged (F32.lit 0) (F32.mul magnitude (contradictionDeltaHit F))
      "surprise_adjudication" (some challenger) now) r
  | .closeIntervention interventionId _ status =>
    let challenger : ChallengerEvidence :=
      ⟨some interventionId, none, "intervention " ++ toString interventionId ++ " " ++ status.name, now⟩
    let deltas := outcomeDeltas status
    (s.matching c).foldl (adjudicateLogged deltas.1 deltas.2 "intervention_outcome"
      (if status.challenges then some challenger else none) now) r
  | .transitionWisdomLineage lineageId newState reason rederiveTaskId =>
    let oldState := ((s.get lineageId).map fun l => l.state.asU8).getD 0
    let t := s.transitionState lineageId (.ofU8 newState) rederiveTaskId now
    { r with store := t.1 }.appendAll (if t.2 then
      [.transitionLineage ⟨lineageId, oldState, newState, reason, rederiveTaskId, now⟩] else [])
  | .closeRederive lineageId action newEnvelopeJson forkClaim forkLineageId =>
    let envelope := newEnvelopeJson.bind ext.fromJson
    { r with store := (s.closeRederive lineageId (.ofU8 action) envelope forkLineageId now).1 }.append
      (.closeRederive ⟨lineageId, action, newEnvelopeJson, forkClaim, forkLineageId, now⟩)
  | .tickLineageStaleness =>
    let t := s.tickStaleness now
    { r with store := t.1 }.appendAll (t.2.flatMap (t.1.tickOps now))

/-- A call at a time, and the room that the log has. -/
structure Timed (F : Type) where
  now : ℤ
  call : Call F
  room : Option ℕ

/-- Make a call; the store, and what it gives to the log.  Where the store is disabled, nothing is
found in it, what is written to it is discarded, and the log suppresses its operations. -/
def live (ext : Outside F) (disabled : Bool) (s : WisdomLineageStore F) (c : Timed F) :
    WisdomLineageStore F × List (Op F) :=
  if disabled then (s, [])
  else
    let r := call ext c.now ⟨s, [], c.room, false⟩ c.call
    (r.store, r.ops)

/-! ## Replay -/

/-- Apply an operation of the log. -/
def apply (ext : Outside F) (s : WisdomLineageStore F) : Op F → WisdomLineageStore F
  | .upsertWisdomLineage o => s.replayUpsert (enrolled o ((ext.fromJson o.envelopeJson).getD default))
  | .adjudicateLineage o => s.replayAdjudicate o
  | .transitionLineage o =>
    (s.transitionState o.lineageId (.ofU8 o.newState) o.rederiveTaskId o.transitionedMs).1
  | .recordChallenger o =>
    s.recordChallenger o.lineageId ⟨o.interventionId, o.surpriseId, o.outcomeSummary, o.attachedMs⟩
      o.attachedMs
  | .closeRederive o =>
    (s.closeRederive o.lineageId (.ofU8 o.action) (o.newEnvelopeJson.bind ext.fromJson)
      o.forkLineageId o.closedMs).1
  | _ => s

/-! ## Ids -/

omit [F32 F] in
/-- The index has the position of every lineage, and its ids have been given out. -/
structure Sound (s : WisdomLineageStore F) : Prop where
  index : ∀ id i, s.idToIndex id = some i ↔ (s.lineages.map WisdomLineage.id)[i]? = some id
  numbered : ∀ id i, s.idToIndex id = some i → id < s.nextId

section Ids

omit [F32 F]

variable {s s' : WisdomLineageStore F} {id id' : ℕ} {l : WisdomLineage F}
  {f : WisdomLineage F → WisdomLineage F}

lemma sound_new : (new : WisdomLineageStore F).Sound :=
  ⟨fun _ _ => ⟨fun h => (nomatch h), fun h => (nomatch h)⟩, fun _ _ h => (nomatch h)⟩

/-- Only the ids matter. -/
lemma Sound.congr (h : s.Sound)
    (hids : s'.lineages.map WisdomLineage.id = s.lineages.map WisdomLineage.id)
    (hidx : s'.idToIndex = s.idToIndex) (hnext : s'.nextId = s.nextId) : s'.Sound := by
  constructor
  · rw [hids, hidx]
    exact h.index
  · rw [hidx, hnext]
    exact h.numbered

/-- Lineages are found by their ids. -/
lemma Sound.get_of_mem (h : s.Sound) (hl : l ∈ s.lineages) : s.get l.id = some l := by
  obtain ⟨i, hi⟩ := List.mem_iff_getElem?.mp hl
  have hidx : s.idToIndex l.id = some i := (h.index l.id i).mpr (by rw [List.getElem?_map, hi]; rfl)
  rw [get, hidx, Option.bind_some, hi]

/-- No two lineages have the same id. -/
lemma Sound.nodup (h : s.Sound) : (s.lineages.map WisdomLineage.id).Nodup := by
  refine List.nodup_iff_getElem?_ne_getElem?.mpr fun i j hij hj heq => hij.ne ?_
  have hid := List.getElem?_eq_getElem hj
  have hi := (h.index _ i).mpr (heq.trans hid)
  exact Option.some.inj (hi.symm.trans ((h.index _ j).mpr hid))

lemma get_modify_self : (s.modify id f).get id = (s.get id).map f := by
  unfold modify get
  cases hidx : s.idToIndex id with
  | none => simp [hidx]
  | some i => simp [hidx]

/-- The lineages of other ids stay. -/
lemma Sound.get_modify_of_ne (h : s.Sound) (hne : id' ≠ id) :
    (s.modify id f).get id' = s.get id' := by
  unfold modify get
  cases hidx : s.idToIndex id with
  | none => rfl
  | some i =>
    cases hidx' : s.idToIndex id' with
    | none => rfl
    | some i' =>
      have hi : i ≠ i' := by
        rintro rfl
        have hsame := ((h.index id i).mp hidx).symm.trans ((h.index id' i).mp hidx')
        exact hne (Option.some.inj hsame).symm
      simp [List.getElem?_modify_ne _ _ hi]

lemma Sound.modify (h : s.Sound) (hf : ∀ l, (f l).id = l.id) : (s.modify id f).Sound := by
  unfold WisdomLineageStore.modify
  cases s.idToIndex id with
  | none => exact h
  | some i => exact h.congr (Lists.map_modify_of_fixed hf _ _) rfl rfl

/-- A move to another state is a change of the lineage and of the index by states. -/
lemma Sound.transitionState (h : s.Sound) (ns : LineageState) (task : Option ℕ) (now : ℤ) :
    (s.transitionState id ns task now).1.Sound := by
  unfold WisdomLineageStore.transitionState
  cases s.get id with
  | none => exact h
  | some l =>
    dsimp only
    split
    · exact h
    · have hmod : (s.modify id (moved ns task now)).Sound := h.modify fun _ => rfl
      exact hmod.congr rfl rfl rfl

lemma get_transitionState_self (ns : LineageState) (task : Option ℕ) (now : ℤ) :
    (s.transitionState id ns task now).1.get id =
      (s.get id).map fun l => if l.state = ns then l else moved ns task now l := by
  unfold transitionState
  cases hl : s.get id with
  | none => simp [hl]
  | some l =>
    rw [Option.map_some]
    dsimp only
    split
    · exact hl
    · have hmod : (s.modify id (moved ns task now)).get id = some (moved ns task now l) := by
        rw [get_modify_self, hl, Option.map_some]
      exact hmod

lemma Sound.get_transitionState_of_ne (h : s.Sound) (ns : LineageState) (task : Option ℕ) (now : ℤ)
    (hne : id' ≠ id) : (s.transitionState id ns task now).1.get id' = s.get id' := by
  unfold WisdomLineageStore.transitionState
  cases s.get id with
  | none => rfl
  | some l =>
    dsimp only
    split
    · rfl
    · have hmod : (s.modify id (moved ns task now)).get id' = s.get id' := h.get_modify_of_ne hne
      exact hmod

/-- A lineage of a new id. -/
lemma Sound.pushLineage (h : s.Sound) (hnone : s.idToIndex l.id = none) (hlt : l.id < s.nextId) :
    (s.pushLineage l).Sound := by
  constructor
  · intro id i
    change Function.update s.idToIndex l.id (some s.lineages.length) id = some i ↔
      ((s.lineages ++ [l]).map WisdomLineage.id)[i]? = some id
    rw [List.map_append, List.getElem?_append, List.length_map]
    by_cases hid : id = l.id
    · subst hid
      rw [Function.update_self]
      by_cases hi : i < s.lineages.length
      · rw [if_pos hi]
        constructor
        · intro heq
          have : s.lineages.length = i := Option.some.inj heq
          omega
        · intro hsome
          exact nomatch hnone.symm.trans ((h.index l.id i).mpr hsome)
      · rw [if_neg hi]
        constructor
        · intro heq
          have : s.lineages.length = i := Option.some.inj heq
          simp [this]
        · intro hsome
          have : i - s.lineages.length = 0 := by
            by_contra hpos
            simp [hpos] at hsome
          exact congrArg some (by omega)
    · rw [Function.update_of_ne hid]
      by_cases hi : i < s.lineages.length
      · rw [if_pos hi]
        exact h.index id i
      · rw [if_neg hi]
        constructor
        · intro hsome
          have hmem := (h.index id i).mp hsome
          have hlen := (List.getElem?_eq_some_iff.mp hmem).1
          rw [List.length_map] at hlen
          omega
        · intro hsome
          obtain ⟨hlen, heq⟩ := List.getElem?_eq_some_iff.mp hsome
          have hzero : i - s.lineages.length = 0 := by simpa using hlen
          simp only [hzero] at heq
          exact absurd heq.symm hid
  · exact Maps.forall_update h.numbered fun _ _ => hlt

/-- A lineage takes the place of the one that has its id, or comes behind all. -/
lemma Sound.replayUpsert (h : s.Sound) (l : WisdomLineage F) : (s.replayUpsert l).Sound := by
  unfold WisdomLineageStore.replayUpsert
  cases hidx : s.idToIndex l.id with
  | some i =>
    have hat : (s.lineages.map WisdomLineage.id)[i]? = some l.id := (h.index l.id i).mp hidx
    obtain ⟨hi, heq⟩ := List.getElem?_eq_some_iff.mp hat
    have hsame : (s.lineages.set i l).map WisdomLineage.id = s.lineages.map WisdomLineage.id := by
      rw [List.map_set, ← heq, List.set_getElem_self]
    have hremoved : ∃ removed : WisdomLineageStore F, (s.lineages[i]?).elim s s.indexRemove = removed ∧
        removed.lineages = s.lineages ∧ removed.idToIndex = s.idToIndex ∧
          removed.nextId = s.nextId := by
      cases s.lineages[i]? with
      | none => exact ⟨_, rfl, rfl, rfl, rfl⟩
      | some old => exact ⟨_, rfl, rfl, rfl, rfl⟩
    obtain ⟨removed, hrem, hlineages, hindex, hnext⟩ := hremoved
    dsimp only
    rw [hrem]
    refine h.congr ?_ hindex hnext
    change (removed.lineages.set i l).map WisdomLineage.id = _
    rw [hlineages, hsame]
  | none =>
    refine Sound.pushLineage ⟨h.index, fun id i hid => ?_⟩ hidx ?_
    · have hlt := h.numbered id i hid
      dsimp only
      split <;> omega
    · dsimp only
      split <;> omega

/-- A lineage of the next id. -/
lemma Sound.replayUpsert_next (h : s.Sound) (hid : l.id = s.nextId) :
    s.replayUpsert l = { s with nextId := s.nextId + 1 }.pushLineage l := by
  have hfresh : s.idToIndex l.id = none := by
    cases hidx : s.idToIndex l.id with
    | none => rfl
    | some i => exact absurd (hid ▸ h.numbered _ _ hidx) (lt_irrefl _)
  simp only [WisdomLineageStore.replayUpsert, hfresh]
  rw [if_pos hid.ge, hid]

end Ids

variable {s : WisdomLineageStore F} {id id' : ℕ} {l : WisdomLineage F} {now : ℤ}
  {ext : Outside F}

lemma Sound.closeRederive (h : s.Sound) (action : RederiveAction)
    (envelope : Option ApplicabilityEnvelope) (fork : Option ℕ) :
    (s.closeRederive id action envelope fork now).1.Sound := by
  cases action with
  | reaffirm =>
    have habsolved : (s.modify id absolved).Sound := h.modify fun _ => rfl
    exact habsolved.transitionState _ _ _
  | narrow =>
    refine Sound.transitionState ?_ _ _ _
    exact h.modify fun _ => rfl
  | split => exact (h.transitionState _ _ _).modify fun _ => rfl
  | demote => exact (h.transitionState _ _ _).modify fun _ => rfl

/-- Replaying keeps the ids in order. -/
lemma Sound.apply (h : s.Sound) (o : Op F) : (s.apply ext o).Sound := by
  unfold WisdomLineageStore.apply
  split
  case h_1 o => exact h.replayUpsert _
  case h_2 o => exact h.modify fun _ => rfl
  case h_3 o => exact h.transitionState _ _ _
  case h_4 o => exact h.modify fun _ => rfl
  case h_5 o => exact h.closeRederive _ _ _
  case h_6 => exact h

/-! ## Adjudication and its replay -/

/-- A state that the masses call for is not that of a demoted lineage. -/
lemma evaluateTransition_ne_demoted {ns : LineageState} (h : evaluateTransition l = some ns) :
    ns ≠ .demoted := by
  unfold evaluateTransition at h
  dsimp only at h
  rintro rfl
  split at h <;> repeat' split at h
  all_goals cases h

variable {f : WisdomLineage F → WisdomLineage F}

/-- Only the masses and the times of a lineage change. -/
def Weighs (now : ℤ) (f : WisdomLineage F → WisdomLineage F) (l : WisdomLineage F) : Prop :=
  f l = { l with
    supportMass := (f l).supportMass
    contradictionMass := (f l).contradictionMass
    stalenessMass := (f l).stalenessMass
    lastSupportedMs := (f l).lastSupportedMs
    lastChallengedMs := (f l).lastChallengedMs
    updatedMs := now }

omit [F32 F] in
/-- A change of the masses and the times of a lineage is what its operation tells of it. -/
lemma replayAdjudicate_adjudicateOp (hget : s.get id = some l)
    (hf : Weighs now f l) :
    s.replayAdjudicate (adjudicateOp (f l) id now) = s.modify id f := by
  unfold replayAdjudicate
  unfold get at hget
  unfold modify
  cases hidx : s.idToIndex id with
  | none => simp [adjudicateOp, hidx]
  | some i =>
    rw [hidx, Option.bind_some] at hget
    simp only [adjudicateOp, hidx]
    congr 1
    refine Lists.modify_congr fun a ha => ?_
    obtain rfl : l = a := Option.some.inj (hget.symm.trans ha)
    exact hf.symm

/-- The lineage behind the evaluation of its masses. -/
lemma get_settle (hget : s.get id = some l) :
    ((s.settle id now).1.get id) = some ((evaluateTransition l).elim l fun ns =>
      if l.state = ns then l else moved ns none now l) := by
  unfold settle
  rw [hget, Option.bind_some]
  cases evaluateTransition l with
  | none => exact hget
  | some ns =>
    change ((s.transitionState id ns none now).1).get id = _
    rw [get_transitionState_self, hget]
    rfl

lemma Sound.settle (h : s.Sound) : (s.settle id now).1.Sound := by
  unfold WisdomLineageStore.settle
  split
  · exact h
  · exact h.transitionState _ _ _

lemma Sound.get_settle_of_ne (h : s.Sound) (hne : id' ≠ id) :
    (s.settle id now).1.get id' = s.get id' := by
  unfold WisdomLineageStore.settle
  split
  · rfl
  · exact h.get_transitionState_of_ne _ _ _ hne

/-- The operations of a changed lineage, which its masses may have moved to another state, change it
as the live call did. -/
lemma replay_settle (hget : s.get id = some l)
    (hf : Weighs now f l) (reason : String) :
    (((s.modify id f).settle id now).1.adjudicationOps id ((s.modify id f).settle id now).2
      reason now).foldl (apply ext) s = ((s.modify id f).settle id now).1 := by
  have hget' : (s.modify id f).get id = some (f l) := by rw [get_modify_self, hget, Option.map_some]
  have hmasses := replayAdjudicate_adjudicateOp hget hf
  unfold adjudicationOps
  rw [get_settle hget']
  unfold settle
  rw [hget', Option.bind_some]
  cases evaluateTransition (f l) with
  | none => exact hmasses
  | some ns =>
    dsimp only [Option.elim_some, Option.map_some, Option.toList_some]
    rw [List.foldl_cons, List.foldl_cons, List.foldl_nil]
    have hop : adjudicateOp (if (f l).state = ns then f l else moved ns none now (f l)) id now =
        adjudicateOp (f l) id now := by
      split <;> rfl
    rw [hop]
    change ((s.replayAdjudicate (adjudicateOp (f l) id now)).transitionState id (.ofU8 ns.asU8)
      none now).1 = _
    rw [hmasses, LineageState.ofU8_asU8]

/-- There is a lineage of an id, and it is not demoted. -/
def Standing (s : WisdomLineageStore F) (id : ℕ) : Prop :=
  ∃ l, s.get id = some l ∧ l.state ≠ .demoted

omit [F32 F] in
/-- A change that demotes nothing. -/
lemma Standing.modify (h : s.Standing id') (hs : s.Sound)
    (hf : ∀ l, l.state ≠ .demoted → (f l).state ≠ .demoted) : (s.modify id f).Standing id' := by
  obtain ⟨l, hget, hstate⟩ := h
  by_cases hid : id' = id
  · subst hid
    exact ⟨f l, by rw [get_modify_self, hget, Option.map_some], hf l hstate⟩
  · exact ⟨l, by rw [hs.get_modify_of_ne hid, hget], hstate⟩

lemma Standing.settle (h : s.Standing id') (hs : s.Sound) :
    (s.settle id now).1.Standing id' := by
  obtain ⟨l, hget, hstate⟩ := h
  by_cases hid : id' = id
  · subst hid
    refine ⟨_, get_settle hget, ?_⟩
    cases hns : evaluateTransition l with
    | none => exact hstate
    | some ns =>
      dsimp only [Option.elim_some]
      split
      · exact hstate
      · exact evaluateTransition_ne_demoted hns
  · exact ⟨l, by rw [hs.get_settle_of_ne hid, hget], hstate⟩

lemma massed_state (support contradiction staleness : F) (l : WisdomLineage F) :
    (massed support contradiction staleness now l).state = l.state := by
  unfold massed
  dsimp only
  split <;> split <;> split <;> rfl

lemma massed_id (support contradiction staleness : F) (l : WisdomLineage F) :
    (massed support contradiction staleness now l).id = l.id := by
  unfold massed
  dsimp only
  split <;> split <;> split <;> rfl

/-- Adjudicating touches masses and times. -/
lemma massed_eq (support contradiction staleness : F) (l : WisdomLineage F) :
    massed support contradiction staleness now l = { l with
      supportMass := (massed support contradiction staleness now l).supportMass
      contradictionMass := (massed support contradiction staleness now l).contradictionMass
      stalenessMass := (massed support contradiction staleness now l).stalenessMass
      lastSupportedMs := (massed support contradiction staleness now l).lastSupportedMs
      lastChallengedMs := (massed support contradiction staleness now l).lastChallengedMs
      updatedMs := now } := by
  unfold massed
  dsimp only
  split <;> split <;> split <;> rfl

/-- Lineages that stand are adjudicated one after the other as a replay of what is logged does it. -/
lemma replay_adjudicateLogged (support contradiction : F) (reason : String) {ids : List ℕ}
    {t : WisdomLineageStore F} {ops : List (Op F)} (hs : s.Sound)
    (hids : ∀ id ∈ ids, s.Standing id) (h : ops.foldl (apply ext) t = s) :
    ∃ s' ops', ids.foldl (adjudicateLogged support contradiction reason none now)
        ⟨s, ops, none, false⟩ = ⟨s', ops', none, false⟩ ∧ ops'.foldl (apply ext) t = s' := by
  induction ids generalizing s ops with
  | nil => exact ⟨s, ops, rfl, h⟩
  | cons id ids ih =>
    obtain ⟨l, hget, hstate⟩ := hids id List.mem_cons_self
    set f : WisdomLineage F → WisdomLineage F := massed support contradiction (F32.lit 0) now
    set a := (s.modify id f).settle id now
    have hstep : adjudicateLogged support contradiction reason none now ⟨s, ops, none, false⟩ id =
        ⟨a.1, ops ++ a.1.adjudicationOps id a.2 reason now, none, false⟩ := by
      have hadj : s.adjudicate id support contradiction (F32.lit 0) now = a := by
        rw [adjudicate, hget]
        exact if_neg hstate
      simp only [adjudicateLogged, hadj, Progress.appendAll_ok, Progress.change, Option.elim_none,
        Bool.false_eq_true, if_false]
    have hmodified : (s.modify id f).Sound := hs.modify (massed_id _ _ _)
    rw [List.foldl_cons, hstep]
    refine ih hmodified.settle (fun id' hid' => ?_) ?_
    · refine Standing.settle (Standing.modify (hids id' (List.mem_cons_of_mem _ hid')) hs ?_)
        hmodified
      intro l hl
      rwa [massed_state]
    · rw [List.foldl_append, h]
      exact replay_settle hget (massed_eq _ _ _ l) reason

/-- The lineages that fit stand. -/
lemma Sound.standing_of_mem_findByEnvelope (h : s.Sound) {domain action : String}
    (hid : id ∈ s.findByEnvelope domain action) : s.Standing id := by
  obtain ⟨l, hl, rfl⟩ := List.mem_map.mp hid
  obtain ⟨hmem, hfit⟩ := List.mem_filter.mp hl
  exact ⟨l, h.get_of_mem hmem, (of_decide_eq_true hfit).1⟩

/-! ## Staleness and its replay -/

lemma Sound.tickOne (h : s.Sound) : (tickOne now s id).1.Sound := by
  unfold WisdomLineageStore.tickOne
  split
  · exact Sound.settle (h.modify fun _ => rfl)
  · exact h

lemma Sound.get_tickOne_of_ne (h : s.Sound) (hne : id' ≠ id) :
    (WisdomLineageStore.tickOne now s id).1.get id' = s.get id' := by
  unfold WisdomLineageStore.tickOne
  split
  · have hmodified : (s.modify id (grown now)).Sound := h.modify fun _ => rfl
    rw [hmodified.get_settle_of_ne hne, h.get_modify_of_ne hne]
  · rfl

/-- The others stay. -/
lemma Sound.get_tickAll_of_not_mem (h : s.Sound) {ids : List ℕ} (hid : id ∉ ids) (moved : List ℕ) :
    (tickAll now ids (s, moved)).1.get id = s.get id := by
  induction ids generalizing s moved with
  | nil => rfl
  | cons id' ids ih =>
    rw [tickAll, List.foldl_cons]
    have hne : id ≠ id' := fun heq => hid (heq ▸ List.mem_cons_self)
    exact (ih h.tickOne (fun hmem => hid (List.mem_cons_of_mem _ hmem)) _).trans
      (h.get_tickOne_of_ne hne)

omit [F32 F] in
/-- What is logged of a lineage depends on it only. -/
lemma tickOps_congr {s' : WisdomLineageStore F} (h : s'.get id = s.get id) :
    s'.tickOps now id = s.tickOps now id := by
  unfold tickOps
  rw [h]

/-- The masses of a lineage that has grown staler call for a state. -/
lemma isSome_settle_grown (hget : s.get id = some l)
    (h : (evaluateTransition (grown now l)).isSome = true) :
    ((s.modify id (grown now)).settle id now).2.isSome = true := by
  obtain ⟨ns, hns⟩ := Option.isSome_iff_exists.mp h
  have hget' : (s.modify id (grown now)).get id = some (grown now l) := by
    rw [get_modify_self, hget, Option.map_some]
  simp [settle, hget', hns]

/-- The operations of a lineage that staleness has moved. -/
lemma replay_tickOps (hget : s.get id = some l)
    (h : ((s.modify id (grown now)).settle id now).2.isSome = true) :
    (((s.modify id (grown now)).settle id now).1.tickOps now id).foldl (apply ext) s =
      ((s.modify id (grown now)).settle id now).1 := by
  have hget' : (s.modify id (grown now)).get id = some (grown now l) := by
    rw [get_modify_self, hget, Option.map_some]
  have hreplay : (((s.modify id (grown now)).settle id now).1.adjudicationOps id
      ((s.modify id (grown now)).settle id now).2 "staleness_tick" now).foldl (apply ext) s =
        ((s.modify id (grown now)).settle id now).1 := replay_settle hget (by rfl) _
  refine Eq.trans ?_ hreplay
  obtain ⟨ns, hns⟩ := Option.isSome_iff_exists.mp h
  have heval : evaluateTransition (grown now l) = some ns := by
    unfold settle at hns
    rw [hget', Option.bind_some] at hns
    revert hns
    cases evaluateTransition (grown now l) with
    | none => exact fun h => nomatch h
    | some ns' => exact fun h => h
  rw [hns]
  unfold tickOps adjudicationOps
  rw [get_settle hget', heval]
  dsimp only [Option.elim_some, Option.map_some, Option.toList_some]
  -- neither the state before nor the reason is replayed
  have hstate : (if (grown now l).state = ns then grown now l
      else moved ns none now (grown now l)).state = ns := by
    split
    · assumption
    · rfl
  rw [hstate]
  rfl

/-- Where staleness moves every lineage that grows staler, a replay of what is logged makes the same
lineages staler. -/
lemma replay_tickAll (ext : Outside F) {ids : List ℕ} (hs : s.Sound) (hids : ids.Nodup)
    (hmoves : ∀ id ∈ ids, ∀ l, s.get id = some l → needsGrowth now l = true →
      (evaluateTransition (grown now l)).isSome = true) (moved : List ℕ) :
    ∃ more, (tickAll now ids (s, moved)).2 = moved ++ more ∧
      (more.flatMap ((tickAll now ids (s, moved)).1.tickOps now)).foldl (apply ext) s =
        (tickAll now ids (s, moved)).1 := by
  induction ids generalizing s moved with
  | nil => exact ⟨[], (List.append_nil _).symm, rfl⟩
  | cons id ids ih =>
    obtain ⟨hnot, hnodup⟩ := List.nodup_cons.mp hids
    have hrest : ∀ t : WisdomLineageStore F, (∀ id' ∈ ids, t.get id' = s.get id') →
        ∀ id' ∈ ids, ∀ l, t.get id' = some l → needsGrowth now l = true →
          (evaluateTransition (grown now l)).isSome = true := by
      intro t ht id' hid' l hget
      exact hmoves id' (List.mem_cons_of_mem _ hid') l (ht id' hid' ▸ hget)
    by_cases hgrow : (s.get id).any (needsGrowth now) = true
    · obtain ⟨l, hget, hneeds⟩ := (Option.any_eq_true _ _).mp hgrow
      set t := (s.modify id (grown now)).settle id now
      have hone : tickOne now s id = t := if_pos hgrow
      have hmoved : t.2.isSome = true := isSome_settle_grown hget (hmoves id List.mem_cons_self l hget hneeds)
      have hall : tickAll now (id :: ids) (s, moved) = tickAll now ids (t.1, moved ++ [id]) := by
        rw [tickAll, List.foldl_cons]
        simp only [hone, hmoved, if_true]
        rfl
      have hsound : t.1.Sound := hone ▸ hs.tickOne
      have hothers : ∀ id' ∈ ids, t.1.get id' = s.get id' := fun id' hid' =>
        hone ▸ hs.get_tickOne_of_ne fun heq => hnot (heq ▸ hid')
      obtain ⟨more, hmore, hreplay⟩ := ih hsound hnodup (hrest t.1 hothers) (moved ++ [id])
      refine ⟨id :: more, by rw [hall, hmore, List.append_assoc, List.singleton_append], ?_⟩
      rw [hall, List.flatMap_cons, List.foldl_append,
        tickOps_congr (hsound.get_tickAll_of_not_mem hnot _), replay_tickOps hget hmoved]
      exact hreplay
    · have hone : tickOne now s id = (s, none) := if_neg hgrow
      have hall : tickAll now (id :: ids) (s, moved) = tickAll now ids (s, moved) := by
        rw [tickAll, List.foldl_cons, hone]
        rfl
      rw [hall]
      exact ih hs hnodup (hrest s fun _ _ => rfl) moved

/-! ## A restart -/

/-- What the log does not tell of a call does not matter: a candidate that is enrolled has no lineage
and no ancestor, evidence is against no lineage, and staleness moves every lineage that it grows. -/
def ToldCall (s : WisdomLineageStore F) (now : ℤ) : Call F → Prop
  | .enrollWisdomLineage e =>
    s.byCandidate e.wisdomCandidateId = none ∧ e.ancestorLineageId = none
  | .recordSurprise eventId domain action magnitude =>
    s.matching (.recordSurprise eventId domain action magnitude) = []
  | .closeIntervention interventionId record status =>
    status.challenges = true → s.matching (.closeIntervention interventionId record status) = []
  | .transitionWisdomLineage .. => True
  | .closeRederive .. => True
  | .tickLineageStaleness => ∀ l ∈ s.lineages, ages l = true → needsGrowth now l = true →
      (evaluateTransition (grown now l)).isSome = true

instance (s : WisdomLineageStore F) (now : ℤ) : DecidablePred (s.ToldCall now)
  | .enrollWisdomLineage _ => inferInstanceAs (Decidable (_ ∧ _))
  | .recordSurprise .. => inferInstanceAs (Decidable (_ = []))
  | .closeIntervention .. => inferInstanceAs (Decidable (_ → _ = []))
  | .transitionWisdomLineage .. => isTrue trivial
  | .closeRederive .. => isTrue trivial
  | .tickLineageStaleness => inferInstanceAs (Decidable (∀ l ∈ s.lineages, _ → _ → _))

/-- A call that the log tells of as it was done. -/
def Told (s : WisdomLineageStore F) (c : Timed F) : Prop :=
  c.room = none ∧ s.ToldCall c.now c.call

instance (s : WisdomLineageStore F) (c : Timed F) : Decidable (s.Told c) :=
  inferInstanceAs (Decidable (_ ∧ _))

/-- The lineages that a call adjudicates stand. -/
lemma Sound.standing_of_mem_matching (h : s.Sound) {c : Call F} (hid : id ∈ s.matching c) :
    s.Standing id := by
  unfold matching at hid
  split at hid
  · exact h.standing_of_mem_findByEnvelope hid
  · split at hid
    · exact absurd hid List.not_mem_nil
    · exact h.standing_of_mem_findByEnvelope hid
  · exact absurd hid List.not_mem_nil

/-- What a call adjudicates without evidence is replayed as it was done. -/
lemma replay_matching (ext : Outside F) (now : ℤ) (support contradiction : F) (reason : String)
    (hs : s.Sound) (c : Call F) :
    ((s.matching c).foldl (adjudicateLogged support contradiction reason none now)
      ⟨s, [], none, false⟩).ops.foldl (apply ext) s =
        ((s.matching c).foldl (adjudicateLogged support contradiction reason none now)
          ⟨s, [], none, false⟩).store := by
  have hstart : ([] : List (Op F)).foldl (apply ext) s = s := rfl
  have hstanding : ∀ id ∈ s.matching c, s.Standing id := fun _ hid =>
    hs.standing_of_mem_matching hid
  obtain ⟨s', ops', hfold, hreplay⟩ :=
    replay_adjudicateLogged support contradiction reason hs hstanding hstart
  rw [hfold]
  exact hreplay

/-- A call that the log tells of, and its replay. -/
lemma apply_live {disabled : Bool} {c : Timed F} (hs : s.Sound) (h : s.Told c) :
    (s.live ext disabled c).2.foldl (apply ext) s = (s.live ext disabled c).1 := by
  obtain ⟨now, call, room⟩ := c
  obtain ⟨hroom, htold⟩ := h
  simp only at hroom htold
  subst hroom
  unfold live
  cases disabled with
  | true => rfl
  | false =>
    simp only [Bool.false_eq_true, if_false]
    cases call with
    | enrollWisdomLineage e =>
      obtain ⟨hnone, hancestor⟩ := htold
      have henroll : s.enroll e ((ext.fromJson e.envelopeJson).getD default) now =
          ({ s with nextId := s.nextId + 1 }.pushLineage
            (enrolled (e.op s.nextId now) ((ext.fromJson e.envelopeJson).getD default)), s.nextId) := by
        rw [enroll, hnone]
        simp only [hancestor, Option.isSome_none, Bool.false_eq_true, if_false]
        rfl
      simp only [WisdomLineageStore.call, henroll, Progress.append, List.nil_append,
        Bool.false_eq_true, if_false, List.foldl_cons, List.foldl_nil, apply]
      exact hs.replayUpsert_next rfl
    | recordSurprise eventId domain action magnitude =>
      have hnil : s.matching (.recordSurprise eventId domain action magnitude) = [] := htold
      simp only [WisdomLineageStore.call, hnil, List.foldl_nil]
    | closeIntervention interventionId record status =>
      set ids := s.matching (.closeIntervention interventionId record status) with hids
      by_cases hstatus : status.challenges = true
      · have hnil : ids = [] := htold hstatus
        simp only [WisdomLineageStore.call, ← hids, hnil, List.foldl_nil]
      · simp only [WisdomLineageStore.call, if_neg hstatus]
        exact replay_matching ext now _ _ _ hs _
    | transitionWisdomLineage lineageId newState reason rederiveTaskId =>
      simp only [WisdomLineageStore.call, Progress.appendAll_ok, List.nil_append]
      cases hmoved : (s.transitionState lineageId (.ofU8 newState) rederiveTaskId now).2 with
      | true => rfl
      | false =>
        refine Eq.symm ?_
        revert hmoved
        unfold transitionState
        split
        · exact fun _ => rfl
        · split
          · exact fun _ => rfl
          · exact fun h => Bool.noConfusion h
    | closeRederive =>
      simp [WisdomLineageStore.call, Progress.append, apply]
    | tickLineageStaleness =>
      have hnodup : ((s.lineages.filter ages).map WisdomLineage.id).Nodup :=
        hs.nodup.sublist (List.filter_sublist.map _)
      have hmoves : ∀ id ∈ (s.lineages.filter ages).map WisdomLineage.id, ∀ l, s.get id = some l →
          needsGrowth now l = true → (evaluateTransition (grown now l)).isSome = true := by
        intro id hid l hget hneeds
        obtain ⟨l', hl', rfl⟩ := List.mem_map.mp hid
        obtain ⟨hmem, hages⟩ := List.mem_filter.mp hl'
        obtain rfl : l' = l := Option.some.inj ((hs.get_of_mem hmem).symm.trans hget)
        exact htold l' hmem hages hneeds
      obtain ⟨more, hmore, hreplay⟩ := replay_tickAll ext hs hnodup hmoves []
      simp only [WisdomLineageStore.call, Progress.appendAll_ok, List.nil_append, tickStaleness]
      rw [hmore, List.nil_append]
      exact hreplay

/-- Behind calls that the log tells of, a replay rebuilds the store. -/
theorem lineages_survive (ext : Outside F) (disabled : Bool) {calls : List (Timed F)}
    (h : Replayed.All (live ext disabled) Told new calls) :
    (Replayed.run (live ext disabled) new calls).2.foldl (apply ext) new =
      (Replayed.run (live ext disabled) new calls).1 := by
  have hstep : ∀ (s t : WisdomLineageStore F) c, t = s ∧ s.Sound → s.Told c →
      (s.live ext disabled c).2.foldl (apply ext) t = (s.live ext disabled c).1 ∧
        (s.live ext disabled c).1.Sound := by
    rintro s t c ⟨rfl, hs⟩ hc
    have hsame : (t.live ext disabled c).2.foldl (apply ext) t = (t.live ext disabled c).1 :=
      apply_live hs hc
    refine ⟨hsame, ?_⟩
    rw [← hsame]
    exact List.foldlRecOn _ _ hs fun _ h o _ => h.apply o
  exact (Replayed.related_run (fun s t => t = s ∧ s.Sound) hstep ⟨rfl, sound_new⟩ h).1

/-! ## What a replay changes -/

/-- Numbers that do not round, and a parser that the texts here do not satisfy. -/
def sampleOutside : Outside ℚ where
  fromJson _ := none
  twoDecimals _ := "1.00"

/-- Enroll a candidate, with an ancestor or not. -/
def sampleEnroll (wisdomCandidateId : ℕ) (ancestor : Option ℕ) (now : ℤ) : Timed ℚ :=
  ⟨now, .enrollWisdomLineage ⟨wisdomCandidateId, "claim", "", [], [], [], [], ancestor, none⟩, none⟩

/-- A lineage meets a surprise, which inflames it, and is enrolled again; another one has it as its
ancestor and grows stale.  A replay trusts the first one and forgets the surprise, and knows neither
the version of the other one nor that it is stale. -/
theorem lineage_forgotten :
    let r := Replayed.run (live sampleOutside false) new
      [sampleEnroll 5 none 5, ⟨6, .recordSurprise 1 "code" "edit" 1, none⟩, sampleEnroll 5 none 7,
        sampleEnroll 6 (some 1) 8, ⟨300000000, .tickLineageStaleness, none⟩]
    let seen (s : WisdomLineageStore ℚ) :=
      ((s.get 1).map fun l => (l.state, l.contradictionMass, l.challengers.map (·.attachedMs)),
        (s.get 2).map fun l => (l.derivationVersion, l.stalenessMass))
    seen r.1 = (some (.inflamed, 18 / 100, [6]), some (1, 5 / 100)) ∧
      seen (r.2.foldl (apply sampleOutside) new) = (some (.trusted, 0, []), some (0, 0)) := by
  decide +kernel

/-- A lineage meets an intervention that succeeded in part, which inflames it; it is trusted again
until its staleness is looked at, and is absolved in the end. -/
theorem lineages_survive_sample :
    let r := Replayed.run (live sampleOutside false) new
      [sampleEnroll 5 none 5, ⟨6, .closeIntervention 1 (some ("code", .edit)) .partly, none⟩,
        ⟨7, .transitionWisdomLineage 1 0 "again" none, none⟩,
        ⟨300000000, .tickLineageStaleness, none⟩, ⟨300000001, .closeRederive 1 0 none none none, none⟩]
    r.2.foldl (apply sampleOutside) new = r.1 :=
  lineages_survive sampleOutside false (by decide +kernel)

end WisdomLineageStore

end ChittaField
