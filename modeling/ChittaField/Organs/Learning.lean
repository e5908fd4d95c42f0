import ChittaField.Lib.Appends
import ChittaField.Organs.Debts
import ChittaField.Organs.Interventions

/-!
# What is learned from outcomes

Debts, interventions, the weights of recall sources and the credit of memories are changed by calls,
some of which change several of them.  `learning_survives` says when a replay of the log comes to the
same debts, interventions, weights and credits.

It does not where a number is clamped live and logged as it came (`register_debt`,
`update_source_weight`), where a debt that was resolved is deferred, where debts are resolved by
their evidence (the log has another resolution and no flag for that), and where an attribution or a
surprise moves weights or credits without logging it.

What the calls do to the states of memories and to lineages is left out here.
-/

namespace ChittaField

variable {F : Type}

namespace F32

variable [F32 F]

def neg (x : F) : F := mul x (lit (-1))

def sub (x y : F) : F := add x (neg y)

def abs (x : F) : F := if lt x (lit 0) then neg x else x

/-- Neither number is above the other. -/
def eq (x y : F) : Bool := le x y && le y x

end F32

/-! ## The integration kernel -/

/-- The weight of a recall source in a domain. -/
structure SourceWeight (F : Type) where
  source : String
  weight : F
  queryDomain : String
  successCount : ℕ
  totalCount : ℕ
  deriving DecidableEq

/-- The weights by source and domain. -/
abbrev IntegrationKernel (F : Type) := String × String → Option (SourceWeight F)

namespace IntegrationKernel

variable [F32 F]

/-- Count feedback; the weight is the rate of success, up to two. -/
def recordFeedback (k : IntegrationKernel F) (queryDomain source : String) (wasUseful : Bool) :
    IntegrationKernel F × SourceWeight F :=
  let entry := (k (source, queryDomain)).getD ⟨source, F32.lit 1, queryDomain, 0, 0⟩
  let successCount := if wasUseful then entry.successCount + 1 else entry.successCount
  let totalCount := entry.totalCount + 1
  let entry := { entry with
    successCount := successCount
    totalCount := totalCount
    weight := F32.clamp (F32.mul (F32.div (F32.lit successCount) (F32.lit totalCount)) (F32.lit 2))
      (F32.lit 0) (F32.lit 2) }
  (Function.update k (source, queryDomain) (some entry), entry)

omit [F32 F] in
def replayFeedback (k : IntegrationKernel F) (source queryDomain : String) (weight : F)
    (successCount totalCount : ℕ) : IntegrationKernel F :=
  Function.update k (source, queryDomain)
    (some ⟨source, weight, queryDomain, successCount, totalCount⟩)

omit [F32 F] in
def replayUpdateWeight (k : IntegrationKernel F) (source queryDomain : String) (weight : F) :
    IntegrationKernel F :=
  match k (source, queryDomain) with
  | some entry => Function.update k (source, queryDomain) (some { entry with weight := weight })
  | none => Function.update k (source, queryDomain) (some ⟨source, weight, queryDomain, 0, 0⟩)

def updateSourceWeight (k : IntegrationKernel F) (source queryDomain : String) (weight : F) :
    IntegrationKernel F :=
  k.replayUpdateWeight source queryDomain (F32.clamp weight (F32.lit 0) (F32.lit 2))

omit [F32 F] in
/-- The weights are kept under what they are about. -/
def Keyed (k : IntegrationKernel F) : Prop :=
  ∀ key w, k key = some w → (w.source, w.queryDomain) = key

end IntegrationKernel

/-! ## Surprise credit -/

/-- The credit of a memory. -/
structure SurpriseLearningState (F : Type) where
  memoryId : ℕ
  credit : F
  lastDir : ℤ
  sameDirStreak : ℕ
  lastSurpriseId : ℕ
  updatedMs : ℤ
  deriving DecidableEq

/-- A credit that is enough to change the strength of a memory. -/
structure SurpriseCreditResult (F : Type) where
  memoryId : ℕ
  strengthDelta : F
  creditBefore : F
  creditAfter : F

/-- The credits by memory, and the latest failures of a source in a domain. -/
structure SurpriseLearningStore (F : Type) where
  byMemory : ℕ → Option (SurpriseLearningState F)
  failureTracker : String × String → Option (List ℕ)

namespace SurpriseLearningStore

variable [F32 F]

/-- What a surprise is worth: nothing if it is low, and much if it is high. -/
def computeEvidence (magnitude : F) : F :=
  if F32.lt magnitude (F32.lit (2 / 10)) then F32.lit 0
  else
    let x := F32.div (F32.sub magnitude (F32.lit (2 / 10)))
      (F32.sub (F32.lit 1) (F32.lit (2 / 10)))
    F32.mul x x

/-- Update the credit of a memory. -/
def updateCredit (s : SurpriseLearningStore F) (memoryId surpriseId : ℕ) (magnitude : F) (dir : ℤ)
    (now : ℤ) : SurpriseLearningStore F × Option (SurpriseCreditResult F) :=
  let e := computeEvidence magnitude
  if F32.eq e (F32.lit 0) then (s, none)
  else
    let state := (s.byMemory memoryId).getD ⟨memoryId, F32.lit 0, 0, 0, 0, 0⟩
    let credit := F32.add (F32.mul (F32.lit (85 / 100)) state.credit) (F32.mul (F32.lit dir) e)
    let streak := if state.lastDir = dir then Nat.min (state.sameDirStreak + 1) 8 else 1
    let updated : SurpriseLearningState F :=
      { state with
        credit := credit, lastDir := dir, sameDirStreak := streak, lastSurpriseId := surpriseId,
        updatedMs := now }
    let put := fun st => { s with byMemory := Function.update s.byMemory memoryId (some st) }
    if F32.lt (F32.abs credit) (F32.lit (75 / 100)) then (put updated, none)
    else if streak < 2 then (put updated, none)
    else
      let excess := F32.min (F32.sub (F32.abs credit) (F32.lit (75 / 100))) (F32.lit 1)
      let deltaMag := F32.min (F32.lit (8 / 100))
        (F32.add (F32.lit (2 / 100)) (F32.mul (F32.lit (6 / 100)) excess))
      let delta := if F32.lt (F32.lit 0) credit then deltaMag else F32.neg deltaMag
      let creditAfter := F32.mul credit (F32.lit (35 / 100))
      (put { updated with credit := creditAfter }, some ⟨memoryId, delta, state.credit, creditAfter⟩)

omit [F32 F] in
def replayCredit (s : SurpriseLearningStore F) (state : SurpriseLearningState F) :
    SurpriseLearningStore F :=
  { s with byMemory := Function.update s.byMemory state.memoryId (some state) }

/-- A surprise is high, or it is one of several in a row. -/
def shouldSendNegativeFeedback (s : SurpriseLearningStore F) (domain source : String)
    (magnitude : F) : Bool :=
  if F32.le (F32.lit (55 / 100)) magnitude then true
  else if F32.le (F32.lit (25 / 100)) magnitude then
    (s.failureTracker (domain, source)).any fun recent => 2 ≤ recent.length
  else false

def shouldSendPositiveFeedback (magnitude : F) : Bool := F32.le (F32.lit (30 / 100)) magnitude

omit [F32 F] in
/-- Note a failure; the latest eight are kept. -/
def recordFailure (s : SurpriseLearningStore F) (domain source : String) (surpriseId : ℕ) :
    SurpriseLearningStore F :=
  let window := (s.failureTracker (domain, source)).getD [] ++ [surpriseId]
  { s with
    failureTracker := Function.update s.failureTracker (domain, source)
      (some (window.drop (window.length - 8))) }

end SurpriseLearningStore

/-! ## Calls -/

/-- The stores that learn from outcomes, and the counter of surprises. -/
structure LearningStores (F : Type) where
  debts : EpistemicDebtStore F
  interventions : InterventionStore F
  kernel : IntegrationKernel F
  learning : SurpriseLearningStore F
  nextSurpriseId : ℕ

/-- A surprise. -/
structure Surprise (F : Type) where
  contextSketch : String
  action : String
  expected : Option String
  actual : String
  surpriseMagnitude : F
  domain : String
  realm : String
  sessionId : Option String
  sourceMemoryId : Option ℕ

/-- The operation of a surprise. -/
def Surprise.op (e : Surprise F) (eventId : ℕ) (now : ℤ) : RecordSurpriseOp F :=
  ⟨eventId, e.contextSketch, e.action, e.expected, e.actual, e.surpriseMagnitude, e.domain, now,
    e.realm, e.sessionId, e.sourceMemoryId⟩

namespace LearningStores

def new : LearningStores F :=
  ⟨.new, .new, fun _ => none, ⟨fun _ => none, fun _ => none⟩, 1⟩

inductive Call (F : Type) where
  | registerDebt (r : DebtRegistration F)
  | resolveDebt (debtId : ℕ) (resolution : String)
  | deferDebt (debtId : ℕ)
  | attachDebtEvidence (debtId : ℕ) (memoryIds : List ℕ) (confidence : F) (note : Option String)
  | autoResolveDebts (threshold : F)
  | startIntervention (i : InterventionStart)
  | addObservation (interventionId : ℕ) (kind : ObservationKind) (evidenceRefs : List ℕ)
    (summary : String) (confidence : F)
  | closeIntervention (interventionId : ℕ) (status : InterventionStatus)
  | recordAttribution (a : Attribution F)
  | recordFeedback (queryDomain source : String) (wasUseful : Bool)
  | updateSourceWeight (source domain : String) (weight : F)
  | recordSurprise (e : Surprise F)

/-- A call on its way. -/
abbrev Running (F : Type) := Progress (LearningStores F) (Op F)

variable [F32 F]

/-- Count feedback and log it, by one of the ways to append. -/
def feedback (append : Running F → Op F → Running F) (queryDomain source : String)
    (wasUseful : Bool) (p : Running F) : Running F :=
  let r := p.store.kernel.recordFeedback queryDomain source wasUseful
  append (p.change fun s => { s with kernel := r.1 })
    (.recordFeedback ⟨r.2.source, r.2.queryDomain, wasUseful, r.2.weight, r.2.successCount,
      r.2.totalCount⟩)

/-- Resolve the debts that are ready, and log this with another resolution. -/
def autoResolve (twoDecimals : F → String) (threshold : F) (now : ℤ) (p : Running F) (id : ℕ) :
    Running F :=
  let r := p.store.debts.autoResolveIfReady twoDecimals id threshold now
  if r.2 then
    (p.change fun s => { s with debts := r.1 }).append
      (.updateDebt ⟨id, 1, now, some ("auto-resolved: evidence >= " ++ twoDecimals threshold)⟩)
  else p

/-- What an attribution does to what is learned.  Nothing of this is logged. -/
def routeAttribution (s : LearningStores F) (domain : String) (a : Attribution F)
    (cls : AttributionClass) (confidenceDelta : F) (now : ℤ) : LearningStores F :=
  match cls with
  | .memoryRecallError =>
    match a.surpriseId with
    | none => s
    | some sid =>
      { s with
        learning := a.sourceMemoryIds.foldl
          (fun l mid => (l.updateCredit mid sid (F32.abs confidenceDelta) (-1) now).1) s.learning }
  | .sourceTrustError => { s with kernel := (s.kernel.recordFeedback domain "memory" false).1 }
  | _ => s

/-- What a surprise does to the credit of the memory that was expected.  It is logged if the strength
of the memory is to change. -/
def creditSurprise (e : Surprise F) (eventId : ℕ) (now : ℤ) (p : Running F) : Running F :=
  match e.sourceMemoryId with
  | none => p
  | some mid =>
    let r := p.store.learning.updateCredit mid eventId e.surpriseMagnitude (-1) now
    let p := p.change fun s => { s with learning := r.1 }
    match r.2, r.1.byMemory mid with
    | some _, some st =>
      p.append (.updateSurpriseCredit ⟨st.memoryId, st.credit, st.lastDir, st.sameDirStreak,
        st.lastSurpriseId, st.updatedMs⟩)
    | _, _ => p

/-- What a surprise does to the weights of sources. -/
def feedSurprise (e : Surprise F) (eventId : ℕ) (p : Running F) : Running F :=
  let p :=
    if p.store.learning.shouldSendNegativeFeedback e.domain "semantic" e.surpriseMagnitude then
      feedback Progress.appendIgnored e.domain "semantic" false
        (p.change fun s => { s with learning := s.learning.recordFailure e.domain "semantic" eventId })
    else p
  if SurpriseLearningStore.shouldSendPositiveFeedback e.surpriseMagnitude then
    feedback Progress.appendIgnored e.domain "keyword" true p
  else p

/-- Make a call. -/
def call (twoDecimals : F → String) (now : ℤ) (p : Running F) (c : Call F) : Running F :=
  let s := p.store
  match c with
  | .registerDebt r =>
    let reg := s.debts.register r now
    (p.change fun s => { s with debts := reg.1 }).append (.registerDebt (r.op reg.2 now))
  | .resolveDebt debtId resolution =>
    let r := s.debts.resolve debtId resolution now
    let p := p.change fun s => { s with debts := r.1 }
    if r.2 then p.append (.updateDebt ⟨debtId, 1, now, some resolution⟩) else p
  | .deferDebt debtId =>
    let r := s.debts.defer debtId
    let p := p.change fun s => { s with debts := r.1 }
    if r.2 then p.append (.updateDebt ⟨debtId, 2, 0, none⟩) else p
  | .attachDebtEvidence debtId memoryIds confidence note =>
    let r := s.debts.attachEvidence debtId memoryIds confidence note now
    let p := p.change fun s => { s with debts := r.1 }
    if r.2 then p.append (.attachDebtEvidence ⟨debtId, memoryIds, confidence, note, now⟩) else p
  | .autoResolveDebts threshold => s.debts.openIds.foldl (autoResolve twoDecimals threshold now) p
  | .startIntervention i =>
    let r := s.interventions.startIntervention i now
    (p.change fun s => { s with interventions := r.1 }).append
      (.startIntervention (InterventionStore.startOp i r.2 now))
  | .addObservation interventionId kind evidenceRefs summary confidence =>
    let r := s.interventions.addObservation interventionId kind evidenceRefs summary confidence now
    let p := p.change fun s => { s with interventions := r.1 }
    match r.2 with
    | none => p
    | some oid =>
      p.append (.addObservation ⟨oid, interventionId, kind.toU8, evidenceRefs, summary, confidence,
        now⟩)
  | .closeIntervention interventionId status =>
    let r := s.interventions.closeIntervention interventionId status now
    let p := p.change fun s => { s with interventions := r.1 }
    if r.2 then p.append (.closeIntervention ⟨interventionId, status.toU8, now⟩) else p
  | .recordAttribution a =>
    let domain := ((s.interventions.get a.interventionId).map (·.domain)).getD ""
    let r := s.interventions.recordAttribution a now
    let p := p.change fun s => { s with interventions := r.1 }
    if r.2 then
      let p := p.append (.recordAttribution (InterventionStore.attributionOp a now))
      let p := p.change fun s => s.routeAttribution domain a a.primaryClass a.confidenceDelta now
      match a.secondaryClass with
      | none => p
      | some cls => p.change fun s =>
          s.routeAttribution domain a cls (F32.mul a.confidenceDelta (F32.lit (5 / 10))) now
    else p
  | .recordFeedback queryDomain source wasUseful =>
    feedback Progress.append queryDomain source wasUseful p
  | .updateSourceWeight source domain weight =>
    (p.change fun s => { s with kernel := s.kernel.updateSourceWeight source domain weight }).append
      (.updateSourceWeight ⟨source, domain, weight⟩)
  | .recordSurprise e =>
    let eventId := s.nextSurpriseId
    let p := p.change fun s => { s with nextSurpriseId := eventId + 1 }
    feedSurprise e eventId
      (creditSurprise e eventId now (p.append (.recordSurprise (e.op eventId now))))

/-- A call at a time, and the room that the log has. -/
structure Timed (F : Type) where
  now : ℤ
  call : Call F
  room : Option ℕ

/-- Make a call; the stores, and what they give to the log. -/
def live (twoDecimals : F → String) (s : LearningStores F) (c : Timed F) :
    LearningStores F × List (Op F) :=
  let p := call twoDecimals c.now (Progress.start s c.room) c.call
  (p.store, p.ops)

/-! ## Replay -/

/-- Apply an operation of the log. -/
def apply (s : LearningStores F) (op : Op F) : LearningStores F :=
  match op with
  | .registerDebt o => { s with debts := s.debts.replayRegister o.debt }
  | .updateDebt o =>
    { s with debts := s.debts.replayUpdate o.debtId (.fromU8 o.status) o.resolvedMs o.resolution }
  | .attachDebtEvidence o =>
    { s with
      debts := s.debts.replayAttachEvidence o.debtId o.evidenceMemoryIds o.confidence o.note
        o.attachedMs }
  | .updateSourceWeight o =>
    { s with kernel := s.kernel.replayUpdateWeight o.source o.queryDomain o.weight }
  | .recordFeedback o =>
    { s with
      kernel := s.kernel.replayFeedback o.source o.queryDomain o.newWeight o.successCount
        o.totalCount }
  | .updateSurpriseCredit o =>
    { s with
      learning := s.learning.replayCredit ⟨o.memoryId, o.credit, o.lastDir, o.sameDirStreak,
        o.lastSurpriseId, o.updatedMs⟩ }
  | .recordSurprise o =>
    { s with
      nextSurpriseId :=
        if s.nextSurpriseId ≤ o.eventId then o.eventId + 1 else s.nextSurpriseId }
  | op => { s with interventions := s.interventions.apply op }

/-! ## What a replay comes to -/

/-- The debts, interventions, weights and credits are the same. -/
structure SameLearned (s t : LearningStores F) : Prop where
  debts : t.debts = s.debts
  interventions : t.interventions = s.interventions
  kernel : t.kernel = s.kernel
  byMemory : t.learning.byMemory = s.learning.byMemory

/-- A surprise of this size leaves no credit. -/
def NoEvidence (magnitude : F) : Prop :=
  F32.eq (SurpriseLearningStore.computeEvidence magnitude) (F32.lit 0) = true

instance (magnitude : F) : Decidable (NoEvidence magnitude) :=
  inferInstanceAs (Decidable (_ = true))

/-- An attribution to a class that changes nothing of what is learned. -/
def Unlearned (a : Attribution F) (confidenceDelta : F) : AttributionClass → Prop
  | .memoryRecallError =>
    a.surpriseId = none ∨ a.sourceMemoryIds = [] ∨ NoEvidence (F32.abs confidenceDelta)
  | .sourceTrustError => False
  | _ => True

instance (a : Attribution F) (confidenceDelta : F) :
    DecidablePred (Unlearned a confidenceDelta)
  | .memoryRecallError => inferInstanceAs (Decidable (_ ∨ _ ∨ NoEvidence _))
  | .sourceTrustError => inferInstanceAs (Decidable False)
  | .procedureError | .toolExecutionError | .environmentShift | .hiddenPrecondition
  | .ambiguousState | .goalSpecError | .userOverride | .externalNondeterminism =>
    inferInstanceAs (Decidable True)

/-- A call that the log tells of as it was done: numbers that are not clamped on replay are within
bounds, no resolved debt is deferred, no debt is ready to be resolved, and neither an attribution nor
a surprise changes what is learned without logging it. -/
def ToldCall (s : LearningStores F) : Call F → Prop
  | .registerDebt r => F32.clamp r.fragilityScore (F32.lit 0) (F32.lit 1) = r.fragilityScore
  | .resolveDebt _ _ => True
  | .deferDebt debtId => ∀ d ∈ s.debts.get debtId, d.resolvedMs = 0
  | .attachDebtEvidence _ _ _ _ => True
  | .autoResolveDebts threshold =>
    ∀ id ∈ s.debts.openIds, ∀ d ∈ s.debts.get id, EpistemicDebtStore.isReady threshold d = false
  | .startIntervention _ => True
  | .addObservation _ _ _ _ _ => True
  | .closeIntervention _ _ => True
  | .recordAttribution a =>
    (s.interventions.idToIndex a.interventionId).isSome = true →
      Unlearned a a.confidenceDelta a.primaryClass ∧
        ∀ cls ∈ a.secondaryClass, Unlearned a (F32.mul a.confidenceDelta (F32.lit (5 / 10))) cls
  | .recordFeedback _ _ _ => True
  | .updateSourceWeight _ _ weight => F32.clamp weight (F32.lit 0) (F32.lit 2) = weight
  | .recordSurprise e => e.sourceMemoryId = none ∨ NoEvidence e.surpriseMagnitude

/-- A call that the log tells of, and that the log has room for. -/
def Told (s : LearningStores F) (c : Timed F) : Prop := c.room = none ∧ s.ToldCall c.call

/-- A call on its way whose operations come to the same. -/
structure Faithful (t : LearningStores F) (p : Running F) : Prop where
  room : p.room = none
  failed : p.failed = false
  same : p.store.SameLearned (p.ops.foldl apply t)
  keyed : p.store.kernel.Keyed

instance [DecidableEq F] (s : LearningStores F) : DecidablePred s.ToldCall
  | .registerDebt _ => inferInstanceAs (Decidable (_ = _))
  | .deferDebt debtId => inferInstanceAs (Decidable (∀ d ∈ s.debts.get debtId, d.resolvedMs = 0))
  | .autoResolveDebts threshold =>
    inferInstanceAs (Decidable (∀ id ∈ s.debts.openIds, ∀ d ∈ s.debts.get id,
      EpistemicDebtStore.isReady threshold d = false))
  | .recordAttribution a =>
    inferInstanceAs (Decidable ((s.interventions.idToIndex a.interventionId).isSome = true →
      Unlearned a a.confidenceDelta a.primaryClass ∧
        ∀ cls ∈ a.secondaryClass, Unlearned a (F32.mul a.confidenceDelta (F32.lit (5 / 10))) cls))
  | .updateSourceWeight _ _ _ => inferInstanceAs (Decidable (_ = _))
  | .recordSurprise _ => inferInstanceAs (Decidable (_ ∨ NoEvidence _))
  | .resolveDebt _ _ | .attachDebtEvidence _ _ _ _ | .startIntervention _
  | .addObservation _ _ _ _ _ | .closeIntervention _ _ | .recordFeedback _ _ _ =>
    inferInstanceAs (Decidable True)

instance [DecidableEq F] (s : LearningStores F) : DecidablePred s.Told := fun _ =>
  inferInstanceAs (Decidable (_ ∧ _))

variable {t : LearningStores F} {p : Running F} {twoDecimals : F → String} {now : ℤ}

/-- A change, and the operation that tells of it. -/
lemma Faithful.logged (h : Faithful t p) {f : LearningStores F → LearningStores F} {op : Op F}
    (hop : ∀ t', p.store.SameLearned t' → (f p.store).SameLearned (t'.apply op))
    (hkeyed : (f p.store).kernel.Keyed) :
    Faithful t ((p.change f).append op) ∧ Faithful t ((p.change f).appendIgnored op) := by
  obtain ⟨store, ops, room, failed⟩ := p
  obtain ⟨hroom, hfailed, hsame, -⟩ := h
  simp only at hroom hfailed hsame hop hkeyed
  subst hroom hfailed
  have hfold : (ops ++ [op]).foldl apply t = (ops.foldl apply t).apply op := by
    rw [List.foldl_append]
    rfl
  rw [Progress.change_ok, Progress.append_ok, Progress.appendIgnored_ok]
  exact ⟨⟨rfl, rfl, hfold ▸ hop _ hsame, hkeyed⟩, ⟨rfl, rfl, hfold ▸ hop _ hsame, hkeyed⟩⟩

/-- A change of what is not compared. -/
lemma Faithful.silent (h : Faithful t p) {f : LearningStores F → LearningStores F}
    (hf : (f p.store).debts = p.store.debts ∧ (f p.store).interventions = p.store.interventions ∧
      (f p.store).kernel = p.store.kernel ∧
        (f p.store).learning.byMemory = p.store.learning.byMemory) :
    Faithful t (p.change f) := by
  obtain ⟨store, ops, room, failed⟩ := p
  obtain ⟨hroom, hfailed, hsame, hkeyed⟩ := h
  simp only at hroom hfailed hsame hkeyed hf
  subst hroom hfailed
  obtain ⟨hdebts, hinter, hkernel, hmem⟩ := hf
  rw [Progress.change_ok]
  exact ⟨rfl, rfl, ⟨hsame.debts.trans hdebts.symm, hsame.interventions.trans hinter.symm,
    hsame.kernel.trans hkernel.symm, hsame.byMemory.trans hmem.symm⟩, hkernel ▸ hkeyed⟩

/-- An operation that tells of nothing that is compared. -/
lemma Faithful.noted (h : Faithful t p) (op : Op F)
    (hop : ∀ t', p.store.SameLearned t' → p.store.SameLearned (t'.apply op)) :
    Faithful t (p.append op) := by
  have hlogged := (h.logged (f := fun s => s) hop h.keyed).1
  rwa [Progress.change_id] at hlogged

/-! ## Weights -/

variable {k : IntegrationKernel F}

lemma recordFeedback_keyed (h : k.Keyed) (queryDomain source : String) (wasUseful : Bool) :
    (k.recordFeedback queryDomain source wasUseful).1.Keyed ∧
      ((k.recordFeedback queryDomain source wasUseful).2.source,
        (k.recordFeedback queryDomain source wasUseful).2.queryDomain) = (source, queryDomain) := by
  have hentry : (((k (source, queryDomain)).getD ⟨source, F32.lit 1, queryDomain, 0, 0⟩).source,
      ((k (source, queryDomain)).getD ⟨source, F32.lit 1, queryDomain, 0, 0⟩).queryDomain) =
        (source, queryDomain) := by
    cases hk : k (source, queryDomain) with
    | none => rfl
    | some w => exact h _ w hk
  exact ⟨Maps.forall_update h fun w hw => Option.some.inj hw ▸ hentry, hentry⟩

/-- Feedback is replayed as it was counted. -/
lemma replayFeedback_recordFeedback (h : k.Keyed) (queryDomain source : String) (wasUseful : Bool) :
    k.replayFeedback (k.recordFeedback queryDomain source wasUseful).2.source
        (k.recordFeedback queryDomain source wasUseful).2.queryDomain
        (k.recordFeedback queryDomain source wasUseful).2.weight
        (k.recordFeedback queryDomain source wasUseful).2.successCount
        (k.recordFeedback queryDomain source wasUseful).2.totalCount =
      (k.recordFeedback queryDomain source wasUseful).1 := by
  have hkey := (recordFeedback_keyed h queryDomain source wasUseful).2
  unfold IntegrationKernel.replayFeedback
  rw [hkey]
  rfl

lemma updateSourceWeight_keyed (h : k.Keyed) (source domain : String) (weight : F) :
    (k.updateSourceWeight source domain weight).Keyed := by
  unfold IntegrationKernel.updateSourceWeight IntegrationKernel.replayUpdateWeight
  cases hk : k (source, domain) with
  | some entry => exact Maps.forall_update h fun w hw => Option.some.inj hw ▸ h _ entry hk
  | none => exact Maps.forall_update h fun w hw => Option.some.inj hw ▸ rfl

lemma Faithful.feedback (h : Faithful t p) (queryDomain source : String) (wasUseful : Bool) :
    Faithful t (LearningStores.feedback Progress.append queryDomain source wasUseful p) ∧
      Faithful t (LearningStores.feedback Progress.appendIgnored queryDomain source wasUseful p) := by
  refine h.logged (fun t' hsame => ⟨hsame.debts, hsame.interventions, ?_, hsame.byMemory⟩)
    (recordFeedback_keyed h.keyed queryDomain source wasUseful).1
  change t'.kernel.replayFeedback _ _ _ _ _ = _
  rw [hsame.kernel]
  exact replayFeedback_recordFeedback h.keyed queryDomain source wasUseful

/-! ## Calls -/

/-- Credit is not touched where there is no evidence. -/
lemma updateCredit_of_noEvidence {magnitude : F} (h : NoEvidence magnitude)
    (l : SurpriseLearningStore F) (memoryId surpriseId : ℕ) (dir now : ℤ) :
    l.updateCredit memoryId surpriseId magnitude dir now = (l, none) := if_pos h

lemma routeAttribution_of_unlearned {a : Attribution F} {delta : F} {cls : AttributionClass}
    (h : Unlearned a delta cls) (s : LearningStores F) (domain : String) (now : ℤ) :
    s.routeAttribution domain a cls delta now = s := by
  unfold routeAttribution
  cases cls with
  | memoryRecallError =>
    cases hsid : a.surpriseId with
    | none => rfl
    | some sid =>
      have hfold : ∀ l : SurpriseLearningStore F, a.sourceMemoryIds.foldl
          (fun l mid => (l.updateCredit mid sid (F32.abs delta) (-1) now).1) l = l := by
        intro l
        rcases h with h | h | h
        · exact absurd (hsid.symm.trans h) (by simp)
        · rw [h]
          rfl
        · induction a.sourceMemoryIds with
          | nil => rfl
          | cons mid mids ih => rw [List.foldl_cons, updateCredit_of_noEvidence h, ih]
      simp only [hfold]
  | sourceTrustError => exact absurd h id
  | _ => rfl

/-- Where no debt is ready, none is resolved. -/
lemma foldl_autoResolve {threshold : F} {ids : List ℕ}
    (hids : ∀ id ∈ ids, ∀ d ∈ p.store.debts.get id, EpistemicDebtStore.isReady threshold d = false) :
    ids.foldl (autoResolve twoDecimals threshold now) p = p := by
  induction ids with
  | nil => rfl
  | cons id ids ih =>
    have hnone : p.store.debts.autoResolveIfReady twoDecimals id threshold now =
        (p.store.debts, false) :=
      EpistemicDebtStore.autoResolveIfReady_of_not (hids id List.mem_cons_self) now
    rw [List.foldl_cons, autoResolve, hnone]
    exact ih (List.forall_mem_cons.mp hids).2

lemma Faithful.feedSurprise (h : Faithful t p) (e : Surprise F) (eventId : ℕ) :
    Faithful t (LearningStores.feedSurprise e eventId p) := by
  unfold LearningStores.feedSurprise
  have hneg : Faithful t (if p.store.learning.shouldSendNegativeFeedback e.domain "semantic"
      e.surpriseMagnitude then
      LearningStores.feedback Progress.appendIgnored e.domain "semantic" false
        (p.change fun s => { s with learning := s.learning.recordFailure e.domain "semantic" eventId })
    else p) := by
    split_ifs
    · exact ((h.silent ⟨rfl, rfl, rfl, rfl⟩).feedback ..).2
    · exact h
  split_ifs at hneg ⊢
  all_goals first | exact (hneg.feedback ..).2 | exact hneg

/-- A surprise that leaves no credit. -/
lemma Faithful.creditSurprise (h : Faithful t p) {e : Surprise F} (eventId : ℕ)
    (he : e.sourceMemoryId = none ∨ NoEvidence e.surpriseMagnitude) :
    Faithful t (LearningStores.creditSurprise e eventId now p) := by
  unfold LearningStores.creditSurprise
  cases hmid : e.sourceMemoryId with
  | none => exact h
  | some mid =>
    rcases he with he | he
    · exact absurd (hmid.symm.trans he) (by simp)
    · simp only [updateCredit_of_noEvidence he]
      exact h.silent ⟨rfl, rfl, rfl, rfl⟩

/-- A change of the debts, and the operation that tells of it. -/
lemma Faithful.debts (h : Faithful t p) {debts : EpistemicDebtStore F} {op : Op F}
    (replay : EpistemicDebtStore F → EpistemicDebtStore F)
    (hop : ∀ t' : LearningStores F, t'.apply op = { t' with debts := replay t'.debts })
    (hreplay : replay p.store.debts = debts) :
    Faithful t ((p.change fun s => { s with debts := debts }).append op) :=
  (h.logged (f := fun s => { s with debts := debts }) (fun t' hsame => by
    rw [hop, hsame.debts, hreplay]
    exact ⟨rfl, hsame.interventions, hsame.kernel, hsame.byMemory⟩) h.keyed).1

/-- A change of the interventions, and the operation that tells of it. -/
lemma Faithful.interventions (h : Faithful t p) {interventions : InterventionStore F} {op : Op F}
    (hop : ∀ t' : LearningStores F,
      t'.apply op = { t' with interventions := t'.interventions.apply op })
    (hreplay : p.store.interventions.apply op = interventions) :
    Faithful t ((p.change fun s => { s with interventions := interventions }).append op) :=
  (h.logged (f := fun s => { s with interventions := interventions }) (fun t' hsame => by
    rw [hop, hsame.interventions, hreplay]
    exact ⟨hsame.debts, rfl, hsame.kernel, hsame.byMemory⟩) h.keyed).1

/-- An update of a debt, which is logged if there is one. -/
lemma Faithful.update (h : Faithful t p) {r : EpistemicDebtStore F × Bool} {id : ℕ}
    {f : EpistemicDebt F → EpistemicDebt F} (hr : p.store.debts.update id f = r) {op : Op F}
    (replay : EpistemicDebtStore F → EpistemicDebtStore F)
    (hop : ∀ t' : LearningStores F, t'.apply op = { t' with debts := replay t'.debts })
    (hreplay : replay p.store.debts = r.1) :
    Faithful t (if r.2 then (p.change fun s => { s with debts := r.1 }).append op
      else p.change fun s => { s with debts := r.1 }) := by
  split_ifs with hfound
  · exact h.debts replay hop hreplay
  · have hsame : r.1 = p.store.debts := by
      subst hr
      unfold EpistemicDebtStore.update at hfound ⊢
      cases hidx : p.store.debts.idToIndex id with
      | none => rfl
      | some idx => simp [hidx] at hfound
    exact h.silent ⟨hsame, rfl, rfl, rfl⟩

/-- A call that the log tells of. -/
lemma Faithful.call (h : Faithful t p) {c : Call F} (hc : p.store.ToldCall c) :
    Faithful t (LearningStores.call twoDecimals now p c) := by
  cases c with
  | registerDebt r =>
    exact h.debts (·.replayRegister (r.op (p.store.debts.register r now).2 now).debt)
      (fun _ => rfl) (EpistemicDebtStore.replayRegister_op now hc)
  | resolveDebt debtId resolution =>
    exact h.update rfl (·.replayUpdate debtId (.fromU8 1) now (some resolution)) (fun _ => rfl)
      (EpistemicDebtStore.replayUpdate_resolve ..)
  | deferDebt debtId =>
    exact h.update rfl (·.replayUpdate debtId (.fromU8 2) 0 none) (fun _ => rfl)
      (EpistemicDebtStore.replayUpdate_defer hc)
  | attachDebtEvidence debtId memoryIds confidence note =>
    exact h.update rfl (·.replayAttachEvidence debtId memoryIds confidence note now) (fun _ => rfl)
      rfl
  | autoResolveDebts threshold =>
    have hnone : p.store.debts.openIds.foldl (autoResolve twoDecimals threshold now) p = p :=
      foldl_autoResolve hc
    change Faithful t (p.store.debts.openIds.foldl (autoResolve twoDecimals threshold now) p)
    rwa [hnone]
  | startIntervention i =>
    exact h.interventions (fun _ => rfl) (p.store.interventions.apply_startOp i now)
  | addObservation interventionId kind evidenceRefs summary confidence =>
    simp only [LearningStores.call]
    cases hobs : (p.store.interventions.addObservation interventionId kind evidenceRefs summary
        confidence now).2 with
    | none =>
      have hsame : (p.store.interventions.addObservation interventionId kind evidenceRefs summary
          confidence now).1 = p.store.interventions := by
        unfold InterventionStore.addObservation at hobs ⊢
        split_ifs at hobs ⊢
        rfl
      exact h.silent ⟨rfl, hsame, rfl, rfl⟩
    | some oid =>
      exact h.interventions (fun _ => rfl) (p.store.interventions.apply_observation hobs)
  | closeIntervention interventionId status =>
    simp only [LearningStores.call]
    split_ifs with hfound
    · refine h.interventions (fun _ => rfl) ?_
      simp only [InterventionStore.apply, InterventionStatus.fromU8_toU8]
      rfl
    · have hsame : (p.store.interventions.closeIntervention interventionId status now).1 =
          p.store.interventions := by
        unfold InterventionStore.closeIntervention at hfound ⊢
        cases hidx : p.store.interventions.idToIndex interventionId with
        | none => rfl
        | some idx => simp [hidx] at hfound
      exact h.silent ⟨rfl, hsame, rfl, rfl⟩
  | recordAttribution a =>
    simp only [LearningStores.call]
    split_ifs with hfound
    · have hlogged := h.interventions (fun _ => rfl)
        (p.store.interventions.apply_attributionOp hfound)
      have hknown : (p.store.interventions.idToIndex a.interventionId).isSome = true := by
        unfold InterventionStore.recordAttribution at hfound
        split_ifs at hfound with hnone
        exact Option.isSome_iff_ne_none.mpr fun h => hnone (Option.isNone_iff_eq_none.mpr h)
      obtain ⟨hprimary, hsecondary⟩ := hc hknown
      simp only [routeAttribution_of_unlearned hprimary, Progress.change_id]
      cases hcls : a.secondaryClass with
      | none => exact hlogged
      | some cls =>
        simp only [routeAttribution_of_unlearned (hsecondary cls hcls), Progress.change_id]
        exact hlogged
    · have hsame : (p.store.interventions.recordAttribution a now).1 = p.store.interventions := by
        unfold InterventionStore.recordAttribution at hfound ⊢
        split_ifs at hfound ⊢
        · rfl
        · exact absurd rfl hfound
      exact h.silent ⟨rfl, hsame, rfl, rfl⟩
  | recordFeedback => exact (h.feedback ..).1
  | updateSourceWeight source domain weight =>
    refine (h.logged (f := fun s =>
      { s with kernel := s.kernel.updateSourceWeight source domain weight }) (fun t' hsame => ?_)
      (updateSourceWeight_keyed h.keyed source domain weight)).1
    refine ⟨hsame.debts, hsame.interventions, ?_, hsame.byMemory⟩
    change t'.kernel.replayUpdateWeight source domain weight =
      p.store.kernel.replayUpdateWeight source domain _
    rw [hsame.kernel, hc]
  | recordSurprise e =>
    have hnoted := (h.silent (f := fun s => { s with nextSurpriseId := p.store.nextSurpriseId + 1 })
      ⟨rfl, rfl, rfl, rfl⟩).noted (.recordSurprise (e.op p.store.nextSurpriseId now))
        fun t' hsame => ⟨hsame.debts, hsame.interventions, hsame.kernel, hsame.byMemory⟩
    exact (hnoted.creditSurprise _ hc).feedSurprise e _

/-- Behind calls that the log tells of, a replay comes to the same debts, interventions, weights and
credits. -/
theorem learning_survives (twoDecimals : F → String) {calls : List (Timed F)}
    (h : Replayed.All (live twoDecimals) Told new calls) :
    (Replayed.run (live twoDecimals) new calls).1.SameLearned
      ((Replayed.run (live twoDecimals) new calls).2.foldl apply new) := by
  have hstep : ∀ (s t : LearningStores F) c, s.SameLearned t ∧ s.kernel.Keyed → s.Told c →
      (s.live twoDecimals c).1.SameLearned ((s.live twoDecimals c).2.foldl apply t) ∧
        (s.live twoDecimals c).1.kernel.Keyed := by
    rintro s t ⟨now, c, room⟩ ⟨hsame, hkeyed⟩ ⟨hroom, hc⟩
    simp only at hroom hc
    subst hroom
    have hstart : Faithful t (Progress.start s none) := ⟨rfl, rfl, hsame, hkeyed⟩
    have hcall : Faithful t (call twoDecimals now (Progress.start s none) c) := hstart.call hc
    exact ⟨hcall.same, hcall.keyed⟩
  exact (Replayed.related_run (fun s t => s.SameLearned t ∧ s.kernel.Keyed) hstep
    ⟨⟨rfl, rfl, rfl, rfl⟩, fun _ _ hw => nomatch hw⟩ h).1

/-! ## Two runs -/

/-- A number with two decimals. -/
def sampleDecimals (q : ℚ) : String :=
  let n := (q * 100).floor.toNat
  toString (n / 100) ++ (if n % 100 < 10 then ".0" else ".") ++ toString (n % 100)

/-- A debt of a fragility. -/
def sampleDebt (fragilityScore : ℚ) : DebtRegistration ℚ :=
  ⟨"flaky", ["cache", "race"], none, fragilityScore, "build", "code", none⟩

/-- A surprise of a magnitude. -/
def sampleSurprise (magnitude : ℚ) (sourceMemoryId : Option ℕ) : Surprise ℚ :=
  ⟨"", "lint", none, "failed", magnitude, "build", "code", none, sourceMemoryId⟩

/-- A debt that was resolved is deferred; another one is more fragile than can be, and is resolved by
its evidence; a weight is given that is out of bounds; and a memory that was expected surprises. -/
theorem learning_forgotten :
    let r := Replayed.run (live sampleDecimals) new
      [⟨5, .registerDebt (sampleDebt (1 / 2)), none⟩, ⟨6, .resolveDebt 1 "race", none⟩,
        ⟨7, .deferDebt 1, none⟩, ⟨8, .registerDebt (sampleDebt 2), none⟩,
        ⟨9, .attachDebtEvidence 2 [4] 1 none, none⟩, ⟨10, .autoResolveDebts (1 / 2), none⟩,
        ⟨11, .updateSourceWeight "keyword" "build" 5, none⟩,
        ⟨12, .recordSurprise (sampleSurprise (1 / 4) (some 7)), none⟩]
    let replayed := r.2.foldl apply new
    (r.1.debts.debts.map fun d => (d.fragilityScore, d.resolvedMs, d.autoResolved)) =
        [(1 / 2, 6, false), (1, 10, true)] ∧
      (replayed.debts.debts.map fun d => (d.fragilityScore, d.resolvedMs, d.autoResolved)) =
        [(1 / 2, 0, false), (2, 10, false)] ∧
      (r.1.debts.debts.map (·.resolution)) =
        [some "race", some "auto-resolved: cumulative evidence confidence 1.00 >= 0.50"] ∧
      (replayed.debts.debts.map (·.resolution)) =
        [some "race", some "auto-resolved: evidence >= 0.50"] ∧
      (r.1.kernel ("keyword", "build")).map (·.weight) = some 2 ∧
      (replayed.kernel ("keyword", "build")).map (·.weight) = some 5 ∧
      (r.1.learning.byMemory 7).isSome = true ∧ replayed.learning.byMemory 7 = none := by
  decide +kernel

/-- Every call once, as the log tells of it. -/
theorem learning_survives_sample :
    let r := Replayed.run (live sampleDecimals) new
      [⟨5, .registerDebt (sampleDebt (1 / 2)), none⟩,
        ⟨6, .attachDebtEvidence 1 [4] 2 (some "log"), none⟩, ⟨7, .deferDebt 1, none⟩,
        ⟨8, .autoResolveDebts 1, none⟩, ⟨9, .resolveDebt 1 "race", none⟩,
        ⟨10, .startIntervention ⟨"code", "s", none, "a", "build", "retry", .command, "make", [], [],
          .low⟩, none⟩,
        ⟨11, .addObservation 1 .stderr [] "failed" (1 / 2), none⟩,
        ⟨12, .closeIntervention 1 .isOpen, none⟩,
        ⟨13, .recordAttribution ⟨1, .environmentShift, some .memoryRecallError, 1 / 4, some 3, [], [7],
          [], none⟩, none⟩,
        ⟨14, .recordFeedback "build" "semantic" true, none⟩,
        ⟨15, .updateSourceWeight "keyword" "build" (3 / 2), none⟩,
        ⟨16, .recordSurprise (sampleSurprise (3 / 4) none), none⟩]
    r.1.SameLearned (r.2.foldl apply new) :=
  learning_survives sampleDecimals (by decide +kernel)

end LearningStores

end ChittaField
