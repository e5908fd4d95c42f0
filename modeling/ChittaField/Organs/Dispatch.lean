import ChittaField.Ops

/-!
# Organs

An organ is a store of its own that owns some operations.  `applyOp` offers an operation to the
organs one after the other; the organ that owns it applies it and consumes it, all others pass it on
(`organApply`).  No operation has two owners, so each organ sees all of its own operations, whatever
stands before it in the chain (`applyOrgans_eq`).

What an organ does with its operations is a parameter.  `SkillRegistry` is one of the organs.
-/

namespace ChittaField

variable {F : Type}

/-- The organs that a field starts anew when it is opened. -/
inductive OrganName where
  | intervention
  | agentProtocol
  | wisdomLineage
  | surprise
  | epistemicDebt
  | integrationKernel
  | surpriseLearning
  | wisdomPromotion
  | learnedScorer
  | skill
  | agent
  | analytics
  | trigger
  | constraint
  | transcript
  | task
  | userModel
  | theme
  | symbolEvent
  deriving DecidableEq, Repr

/-- The organ that owns an operation. -/
def owner : Op F → Option OrganName
  | .startIntervention _ | .addObservation _ | .closeIntervention _ | .recordAttribution _ =>
    some .intervention
  | .registerTask _ | .updateTask _ | .addDelegation _ | .linkEvidence _ | .addProbe _
  | .resolveProbe _ | .setCriterion _ => some .agentProtocol
  | .upsertWisdomLineage _ | .adjudicateLineage _ | .transitionLineage _ | .recordChallenger _
  | .closeRederive _ => some .wisdomLineage
  | .recordSurprise _ => some .surprise
  | .registerDebt _ | .updateDebt _ | .attachDebtEvidence _ => some .epistemicDebt
  | .updateSourceWeight _ | .recordFeedback _ => some .integrationKernel
  | .updateSurpriseCredit _ => some .surpriseLearning
  | .upsertWisdomCandidate _ | .updateWisdomLifecycle _ => some .wisdomPromotion
  | .updateScorerModel _ => some .learnedScorer
  | .skillUpload _ | .skillDeprecate _ => some .skill
  | .agentUpsert _ | .agentDisable _ => some .agent
  | .analyticsEvent _ => some .analytics
  | .addTrigger _ | .updateTrigger _ | .fireTrigger _ => some .trigger
  | .assertConstraint _ | .retractConstraint _ | .createBranch _ | .resolveBranch _ =>
    some .constraint
  | .transcriptEvent _ => some .transcript
  | .taskEvent _ => some .task
  | .userModelEvent _ => some .userModel
  | .themeEvent _ => some .theme
  | .symbolEvent _ => some .symbolEvent
  | _ => none

/-- The order in which operations are offered. -/
def chain : List OrganName :=
  [.intervention, .agentProtocol, .wisdomLineage, .surprise, .epistemicDebt, .integrationKernel,
    .surpriseLearning, .wisdomPromotion, .learnedScorer, .skill, .agent, .analytics, .trigger,
    .constraint, .transcript, .task, .userModel, .theme, .symbolEvent]

/-- An organ: its empty state, and what it does with the operations that it owns. -/
structure Organ (F : Type) where
  State : Type
  new : State
  handle : Op F → State → State

/-- The states of all organs. -/
abbrev Organs (O : OrganName → Organ F) : Type := ∀ name, (O name).State

/-- An organ applies and consumes an operation that it owns, and passes on any other. -/
def organApply (O : OrganName → Organ F) (name : OrganName) (op : Op F) (s : (O name).State) :
    (O name).State × Option (Op F) :=
  if owner op = some name then ((O name).handle op s, none) else (s, some op)

/-- Offer an operation to organs in order. -/
def dispatch (O : OrganName → Organ F) (op : Op F) : List OrganName → Organs O → Organs O
  | [], organs => organs
  | name :: rest, organs =>
    match organApply O name op (organs name) with
    | (s, none) => Function.update organs name s
    | (s, some op) => dispatch O op rest (Function.update organs name s)

/-- Apply operations to the organs. -/
def applyOrgans (O : OrganName → Organ F) (ops : List (Op F)) (organs : Organs O) : Organs O :=
  ops.foldl (fun organs op => dispatch O op chain organs) organs

/-- The state of one organ to which operations are applied. -/
def foldOrgan (O : OrganName → Organ F) (name : OrganName) (ops : List (Op F)) : (O name).State :=
  ops.foldl (fun s op => (organApply O name op s).1) (O name).new

section Dispatch

variable {O : OrganName → Organ F}

lemma organApply_of_owner {name : OrganName} {op : Op F} (h : owner op = some name)
    (s : (O name).State) : organApply O name op s = ((O name).handle op s, none) :=
  if_pos h

lemma organApply_of_ne {name : OrganName} {op : Op F} (h : owner op ≠ some name)
    (s : (O name).State) : organApply O name op s = (s, some op) :=
  if_neg h

/-- Each organ in the chain gets the operation if it owns it. -/
lemma dispatch_eq {op : Op F} {names : List OrganName} (hnodup : names.Nodup) (organs : Organs O)
    (name : OrganName) :
    dispatch O op names organs name =
      if name ∈ names then (organApply O name op (organs name)).1 else organs name := by
  induction names generalizing organs with
  | nil => rfl
  | cons head rest ih =>
    obtain ⟨hhead, hrest⟩ := List.nodup_cons.mp hnodup
    by_cases hown : owner op = some head
    · rw [dispatch, organApply_of_owner hown]
      by_cases hname : name = head
      · subst hname
        simp [organApply_of_owner hown]
      · have hne : owner op ≠ some name := fun h => hname (Option.some.inj (h.symm.trans hown))
        simp [hname, organApply_of_ne hne]
    · rw [dispatch, organApply_of_ne hown]
      simp only [Function.update_eq_self]
      rw [ih hrest]
      by_cases hname : name = head
      · subst hname
        simp [hhead, organApply_of_ne hown]
      · simp [hname]

lemma mem_chain (name : OrganName) : name ∈ chain := by
  cases name <;> decide

/-- Each organ sees its own operations in order. -/
lemma applyOrgans_eq (ops : List (Op F)) (organs : Organs O) (name : OrganName) :
    applyOrgans O ops organs name =
      ops.foldl (fun s op => (organApply O name op s).1) (organs name) := by
  induction ops generalizing organs with
  | nil => rfl
  | cons op ops ih =>
    have hstep : dispatch O op chain organs name = (organApply O name op (organs name)).1 := by
      rw [dispatch_eq (by decide), if_pos (mem_chain name)]
    rw [applyOrgans, List.foldl_cons, List.foldl_cons, ← hstep]
    exact ih _

/-- An organ handles the operations that it owns. -/
lemma foldOrgan_eq (name : OrganName) (ops : List (Op F)) : foldOrgan O name ops =
    (ops.filter fun op => owner op = some name).foldl (fun s op => (O name).handle op s)
      (O name).new := by
  rw [foldOrgan, List.foldl_filter]
  congr 1
  funext s op
  by_cases hop : owner op = some name
  · simp [organApply_of_owner hop, hop]
  · simp [organApply_of_ne hop, hop]

/-- Operations of other organs do not matter. -/
lemma foldOrgan_append_of_ne {name : OrganName} {ops : List (Op F)}
    (h : ∀ op ∈ ops, owner op ≠ some name) (ops' : List (Op F)) :
    foldOrgan O name (ops ++ ops') = foldOrgan O name ops' := by
  have hnil : (ops.filter fun op => owner op = some name) = [] :=
    List.filter_eq_nil_iff.mpr fun op hop => by simpa using h op hop
  rw [foldOrgan_eq, foldOrgan_eq, List.filter_append, hnil, List.nil_append]

end Dispatch

/-! ## Skills -/

/-- A version of a skill. -/
structure SkillVersion where
  skillId : String
  version : ℕ
  content : String
  uploadedBy : String
  tags : List String
  createdAtMs : ℤ
  deprecated : Bool
  deriving DecidableEq

/-- The versions of each skill, the oldest first. -/
abbrev SkillRegistry := String → Option (List SkillVersion)

namespace SkillRegistry

def new : SkillRegistry := fun _ => none

/-- Upload a new version of a skill. -/
def upload (r : SkillRegistry) (skillId content uploadedBy : String) (tags : List String)
    (tsMs : ℤ) : SkillRegistry :=
  let versions := (r skillId).getD []
  Function.update r skillId (some (versions ++
    [⟨skillId, (versions.length + 1) % 2 ^ 32, content, uploadedBy, tags, tsMs, false⟩]))

/-- Mark the latest version of a skill. -/
def deprecateSkill (r : SkillRegistry) (skillId : String) : SkillRegistry :=
  Function.update r skillId
    ((r skillId).map fun versions =>
      versions.modify (versions.length - 1) ({ · with deprecated := true }))

/-- The registry as an organ. -/
def organ : Organ F where
  State := SkillRegistry
  new := new
  handle op r :=
    match op with
    | .skillUpload s => r.upload s.skillId s.content s.uploadedBy s.tags s.tsMs
    | .skillDeprecate s => r.deprecateSkill s.skillId
    | _ => r

end SkillRegistry

end ChittaField
