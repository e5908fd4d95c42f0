import ChittaField.Memory.State

/-!
# Epistemic debts

A debt is a question that is open: it gathers evidence, and is resolved or deferred.  What an
operation of the log makes of a debt is not always what the call did that logged it: see
`Organs.Learning`.
-/

namespace ChittaField

variable {F : Type}

/-! ## The data -/

/-- What has become of a debt. -/
inductive DebtStatus where
  | isOpen
  | resolved
  | deferred
  deriving DecidableEq, Repr

def DebtStatus.fromU8 : ℕ → DebtStatus
  | 0 => .isOpen
  | 1 => .resolved
  | _ => .deferred

/-- Evidence about a debt. -/
structure DebtEvidence (F : Type) where
  memoryIds : List ℕ
  confidence : F
  note : Option String
  attachedMs : ℤ
  deriving DecidableEq

/-- A debt. -/
structure EpistemicDebt (F : Type) where
  id : ℕ
  pattern : String
  competingHypotheses : List String
  discriminatingTest : Option String
  fragilityScore : F
  domain : String
  status : DebtStatus
  createdMs : ℤ
  resolvedMs : ℤ
  resolution : Option String
  realm : String
  sourceSession : Option String
  evidence : List (DebtEvidence F)
  autoResolved : Bool
  deriving DecidableEq

/-- The debts, and the indexes of them. -/
structure EpistemicDebtStore (F : Type) where
  nextId : ℕ
  debts : List (EpistemicDebt F)
  idToIndex : ℕ → Option ℕ
  byDomain : String → Option (List ℕ)

/-- What is said of a debt when it is registered. -/
structure DebtRegistration (F : Type) where
  pattern : String
  competingHypotheses : List String
  discriminatingTest : Option String
  fragilityScore : F
  domain : String
  realm : String
  sourceSession : Option String

/-- A debt that has just been registered, with the fragility as given. -/
def DebtRegistration.debt (r : DebtRegistration F) (id : ℕ) (fragilityScore : F) (now : ℤ) :
    EpistemicDebt F where
  id := id
  pattern := r.pattern
  competingHypotheses := r.competingHypotheses
  discriminatingTest := r.discriminatingTest
  fragilityScore := fragilityScore
  domain := r.domain
  status := .isOpen
  createdMs := now
  resolvedMs := 0
  resolution := none
  realm := r.realm
  sourceSession := r.sourceSession
  evidence := []
  autoResolved := false

/-- The operation of a registration. -/
def DebtRegistration.op (r : DebtRegistration F) (id : ℕ) (now : ℤ) : RegisterDebtOp F where
  debtId := id
  pattern := r.pattern
  competingHypotheses := r.competingHypotheses
  discriminatingTest := r.discriminatingTest
  fragilityScore := r.fragilityScore
  domain := r.domain
  createdMs := now
  realm := r.realm
  sourceSession := r.sourceSession

/-- The debt of a logged registration. -/
def RegisterDebtOp.debt (o : RegisterDebtOp F) : EpistemicDebt F :=
  (⟨o.pattern, o.competingHypotheses, o.discriminatingTest, o.fragilityScore, o.domain, o.realm,
    o.sourceSession⟩ : DebtRegistration F).debt o.debtId o.fragilityScore o.createdMs

namespace EpistemicDebtStore

/-! ## Changes -/

def new : EpistemicDebtStore F := ⟨1, [], fun _ => none, fun _ => none⟩

def get (s : EpistemicDebtStore F) (id : ℕ) : Option (EpistemicDebt F) :=
  (s.idToIndex id).bind fun idx => s.debts[idx]?

/-- Change the debt of an id; whether there is one. -/
def update (s : EpistemicDebtStore F) (id : ℕ) (f : EpistemicDebt F → EpistemicDebt F) :
    EpistemicDebtStore F × Bool :=
  match s.idToIndex id with
  | none => (s, false)
  | some idx => ({ s with debts := s.debts.modify idx f }, true)

def insert (s : EpistemicDebtStore F) (d : EpistemicDebt F) : EpistemicDebtStore F :=
  { s with
    byDomain := Function.update s.byDomain d.domain
      (some ((s.byDomain d.domain).getD [] ++ [d.id]))
    debts := s.debts ++ [d]
    idToIndex := Function.update s.idToIndex d.id (some s.debts.length) }

def replayRegister (s : EpistemicDebtStore F) (d : EpistemicDebt F) : EpistemicDebtStore F :=
  { s with nextId := if s.nextId ≤ d.id then d.id + 1 else s.nextId }.insert d

/-- Resolve a debt; whether there is one. -/
def resolve (s : EpistemicDebtStore F) (id : ℕ) (resolution : String) (now : ℤ) :
    EpistemicDebtStore F × Bool :=
  s.update id fun d =>
    { d with status := .resolved, resolvedMs := now, resolution := some resolution }

/-- Defer a debt; whether there is one. -/
def defer (s : EpistemicDebtStore F) (id : ℕ) : EpistemicDebtStore F × Bool :=
  s.update id fun d => { d with status := .deferred }

/-- Give a debt a status.  A resolution that it has is kept if none comes with it. -/
def replayUpdate (s : EpistemicDebtStore F) (id : ℕ) (status : DebtStatus) (resolvedMs : ℤ)
    (resolution : Option String) : EpistemicDebtStore F :=
  (s.update id fun d =>
    { d with
      status := status
      resolvedMs := resolvedMs
      resolution := if resolution.isSome then resolution else d.resolution }).1

variable [F32 F]

/-- Register a debt; its id. -/
def register (s : EpistemicDebtStore F) (r : DebtRegistration F) (now : ℤ) :
    EpistemicDebtStore F × ℕ :=
  ({ s with nextId := s.nextId + 1 }.insert
    (r.debt s.nextId (F32.clamp r.fragilityScore (F32.lit 0) (F32.lit 1)) now), s.nextId)

/-- Attach evidence to a debt; whether there is one. -/
def attachEvidence (s : EpistemicDebtStore F) (id : ℕ) (memoryIds : List ℕ) (confidence : F)
    (note : Option String) (now : ℤ) : EpistemicDebtStore F × Bool :=
  s.update id fun d =>
    { d with evidence := d.evidence ++
        [⟨memoryIds, F32.clamp confidence (F32.lit 0) (F32.lit 1), note, now⟩] }

def replayAttachEvidence (s : EpistemicDebtStore F) (id : ℕ) (memoryIds : List ℕ) (confidence : F)
    (note : Option String) (attachedMs : ℤ) : EpistemicDebtStore F :=
  (s.attachEvidence id memoryIds confidence note attachedMs).1

/-- The confidence of all evidence about a debt. -/
def totalConfidence (d : EpistemicDebt F) : F :=
  d.evidence.foldl (fun total e => F32.add total e.confidence) (F32.lit 0)

/-- The debt is open, and has confidence up to a threshold. -/
def isReady (threshold : F) (d : EpistemicDebt F) : Bool :=
  decide (d.status = .isOpen) && F32.le threshold (totalConfidence d)

/-- Resolve a debt that is ready; whether it was.  Numbers are written with two decimals. -/
def autoResolveIfReady (twoDecimals : F → String) (s : EpistemicDebtStore F) (id : ℕ)
    (threshold : F) (now : ℤ) : EpistemicDebtStore F × Bool :=
  if (s.get id).any (isReady threshold) then
    s.update id fun d =>
      { d with
        status := .resolved
        resolvedMs := now
        autoResolved := true
        resolution := some ("auto-resolved: cumulative evidence confidence " ++
          twoDecimals (totalConfidence d) ++ " >= " ++ twoDecimals threshold) }
  else (s, false)

omit [F32 F] in
/-- The debts that are open. -/
def openDebtsWithEvidence (s : EpistemicDebtStore F) : List (EpistemicDebt F) :=
  s.debts.filter (·.status = .isOpen)

omit [F32 F] in
/-- The ids of the open debts that have evidence. -/
def openIds (s : EpistemicDebtStore F) : List ℕ :=
  (s.openDebtsWithEvidence.filter (!·.evidence.isEmpty)).map (·.id)

/-! ## Live and replayed -/

variable {s : EpistemicDebtStore F}

/-- Nothing is ready to be resolved. -/
lemma autoResolveIfReady_of_not {twoDecimals : F → String} {id : ℕ} {threshold : F}
    (h : ∀ d ∈ s.get id, isReady threshold d = false) (now : ℤ) :
    s.autoResolveIfReady twoDecimals id threshold now = (s, false) := by
  unfold autoResolveIfReady
  refine if_neg fun hany => ?_
  obtain ⟨d, hd, hready⟩ := Option.any_eq_true _ _ |>.mp hany
  exact Bool.false_ne_true ((h d hd).symm.trans hready)

/-- A registration of a fragility within bounds is replayed as it was done. -/
lemma replayRegister_op {r : DebtRegistration F} (now : ℤ)
    (h : F32.clamp r.fragilityScore (F32.lit 0) (F32.lit 1) = r.fragilityScore) :
    s.replayRegister (r.op (s.register r now).2 now).debt = (s.register r now).1 := by
  have hnext : s.nextId ≤ (r.op s.nextId now).debt.id := le_refl s.nextId
  simp only [register, replayRegister, h]
  rw [if_pos hnext]
  rfl

omit [F32 F] in
/-- A resolution is replayed as it was done. -/
lemma replayUpdate_resolve (s : EpistemicDebtStore F) (id : ℕ) (resolution : String) (now : ℤ) :
    s.replayUpdate id (DebtStatus.fromU8 1) now (some resolution) =
      (s.resolve id resolution now).1 := rfl

omit [F32 F] in
/-- A deferral of a debt that was not resolved is replayed as it was done. -/
lemma replayUpdate_defer {id : ℕ} (h : ∀ d ∈ s.get id, d.resolvedMs = 0) :
    s.replayUpdate id (DebtStatus.fromU8 2) 0 none = (s.defer id).1 := by
  simp only [replayUpdate, defer, update]
  cases hidx : s.idToIndex id with
  | none => rfl
  | some idx =>
    have hlist : ∀ l : List (EpistemicDebt F), (∀ d ∈ l[idx]?, d.resolvedMs = 0) →
        l.modify idx (fun d => { d with status := DebtStatus.fromU8 2, resolvedMs := 0, resolution :=
            if (none : Option String).isSome then none else d.resolution }) =
          l.modify idx fun d => { d with status := .deferred } := by
      intro l hl
      refine List.ext_getElem? fun i => ?_
      rw [List.getElem?_modify, List.getElem?_modify]
      by_cases hi : idx = i
      · subst hi
        simp only [if_true]
        refine Option.map_congr fun d hd => ?_
        rw [← hl d hd]
        rfl
      · simp only [hi, if_false]
    exact congrArg (fun debts => { s with debts := debts })
      (hlist s.debts fun d hd => h d (by rw [get, hidx]; exact hd))

end EpistemicDebtStore

end ChittaField
