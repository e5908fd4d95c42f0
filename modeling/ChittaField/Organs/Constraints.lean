import ChittaField.Lib.Maps
import ChittaField.Lib.Replayed
import ChittaField.Log.Reader
import ChittaField.Memory.State

/-!
# The constraint store

A base of subject-predicate-object facts, with branches for rival interpretations.  A fact that
conflicts with an active one of its branch opens a branch and moves there.

The log does not tell of it: the operation has the branch that was asked for, and there is none for
the branch that was opened.  `constraints_survive` says that without such conflicts a replay of the
log rebuilds the store.
-/

namespace ChittaField

variable {F : Type}

/-! ## The data -/

/-- How a fact was established. -/
structure Provenance where
  source : String
  sessionId : Option String
  confidenceBasis : String

/-- A fact. -/
structure Constraint (F : Type) where
  id : ℕ
  subject : String
  predicate : String
  object : String
  confidence : F
  scope : String
  branchId : ℕ
  provenance : Provenance
  validFromMs : ℤ
  /-- `0` while it is active. -/
  validToMs : ℤ
  sourceMemoryId : Option MemoryId

def Constraint.isActive (c : Constraint F) : Bool := c.validToMs == 0

/-- The status of a branch. -/
inductive BranchStatus where
  | active
  | merged
  | abandoned
  deriving DecidableEq, Repr

/-- A rival interpretation. -/
structure Branch where
  id : ℕ
  parentId : ℕ
  scope : String
  createdMs : ℤ
  status : BranchStatus

/-- Ids by a key, in the order in which they came. -/
abbrev IdIndex (κ : Type) := κ → Option (List ℕ)

/-- The store. -/
structure ConstraintStore (F : Type) where
  nextId : ℕ
  nextBranchId : ℕ
  constraints : List (Constraint F)
  idToIndex : ℕ → Option ℕ
  branches : List Branch
  branchIdToIndex : ℕ → Option ℕ
  bySubject : IdIndex String
  byPredicate : IdIndex String
  byObject : IdIndex String
  byScope : IdIndex String
  byBranch : IdIndex ℕ

namespace ConstraintStore

/-- An empty store. -/
def new : ConstraintStore F where
  nextId := 1
  nextBranchId := 1
  constraints := []
  idToIndex _ := none
  branches := []
  branchIdToIndex _ := none
  bySubject _ := none
  byPredicate _ := none
  byObject _ := none
  byScope _ := none
  byBranch _ := none

/-! ## Queries -/

/-- The fact of an id. -/
def get (s : ConstraintStore F) (id : ℕ) : Option (Constraint F) :=
  (s.idToIndex id).bind fun idx => s.constraints[idx]?

/-- A pattern that is not a wildcard. -/
def fixed (pattern : Option String) : Option String := pattern.filter fun s => s ≠ "" ∧ s ≠ "_"

/-- The active facts of a pattern. -/
def queryUnify (s : ConstraintStore F) (subject predicate object scope : Option String) :
    List (Constraint F) :=
  let candidates :=
    match fixed subject, fixed predicate, fixed object with
    | some subj, _, _ => (s.bySubject subj).getD []
    | none, some pred, _ => (s.byPredicate pred).getD []
    | none, none, some obj => (s.byObject obj).getD []
    | none, none, none => (s.constraints.filter Constraint.isActive).map Constraint.id
  (candidates.filterMap s.get).filter fun c => c.isActive &&
    (fixed subject).all (c.subject == ·) && (fixed predicate).all (c.predicate == ·) &&
      (fixed object).all (c.object == ·) && (fixed scope).all (c.scope == ·)

/-- An active fact of the branch that says something else. -/
def detectConflict (s : ConstraintStore F) (subject predicate object scope : String)
    (branchId : ℕ) : Option ℕ :=
  ((s.queryUnify (some subject) (some predicate) none (some scope)).find? fun c =>
    c.object ≠ object ∧ c.branchId = branchId).map Constraint.id

/-! ## Changes -/

/-- Add a fact to the facts and their indexes. -/
def insertConstraint (s : ConstraintStore F) (c : Constraint F) : ConstraintStore F :=
  { s with
    idToIndex := Function.update s.idToIndex c.id (some s.constraints.length)
    bySubject := Maps.push s.bySubject c.subject c.id
    byPredicate := Maps.push s.byPredicate c.predicate c.id
    byObject := Maps.push s.byObject c.object c.id
    byScope := Maps.push s.byScope c.scope c.id
    byBranch := Maps.push s.byBranch c.branchId c.id
    constraints := s.constraints ++ [c] }

/-- Add a branch. -/
def pushBranch (s : ConstraintStore F) (id parentId : ℕ) (scope : String) (createdMs : ℤ) :
    ConstraintStore F :=
  { s with
    branches := s.branches ++ [⟨id, parentId, scope, createdMs, .active⟩]
    branchIdToIndex := Function.update s.branchIdToIndex id (some s.branches.length) }

/-- Create a branch; its id. -/
def createBranch (s : ConstraintStore F) (parentId : ℕ) (scope : String) (createdMs : ℤ) :
    ConstraintStore F × ℕ :=
  ({ s with nextBranchId := s.nextBranchId + 1 }.pushBranch s.nextBranchId parentId scope createdMs,
    s.nextBranchId)

/-- Set the status of a branch at a position. -/
def setStatus (s : ConstraintStore F) (idx : ℕ) (status : BranchStatus) : ConstraintStore F :=
  { s with branches := s.branches.modify idx ({ · with status := status }) }

/-- Retract a fact; whether it is there. -/
def retract (s : ConstraintStore F) (id : ℕ) (nowMs : ℤ) : ConstraintStore F × Bool :=
  match s.idToIndex id with
  | some idx =>
    ({ s with constraints := s.constraints.modify idx ({ · with validToMs := nowMs }) }, true)
  | none => (s, false)

/-- Resolve a conflict: the losing branch is abandoned, and its facts are retracted. -/
def resolveBranch (s : ConstraintStore F) (winnerId loserId : ℕ) (nowMs : ℤ) :
    ConstraintStore F × Bool :=
  match s.branchIdToIndex loserId with
  | none => (s, false)
  | some idx =>
    let s := s.setStatus idx .abandoned
    let s := ((s.byBranch loserId).getD []).foldl (fun s id => (s.retract id nowMs).1) s
    match s.branchIdToIndex winnerId with
    | some idx => (s.setStatus idx .merged, true)
    | none => (s, true)

variable [F32 F]

/-- The fact that an assertion adds. -/
def asserted (o : AssertConstraintOp F) (branchId : ℕ) : Constraint F where
  id := o.factId
  subject := o.subject
  predicate := o.predicate
  object := o.object
  confidence := F32.clamp o.confidence (F32.lit 0) (F32.lit 1)
  scope := o.scope
  branchId := branchId
  provenance := ⟨o.provenanceSource, o.provenanceSession, o.provenanceBasis⟩
  validFromMs := o.validFromMs
  validToMs := 0
  sourceMemoryId := o.sourceMemoryId

/-! ## Replay -/

/-- Assert a fact of a given id and branch. -/
def replayAssert (s : ConstraintStore F) (o : AssertConstraintOp F) : ConstraintStore F :=
  insertConstraint { s with nextId := if s.nextId ≤ o.factId then o.factId + 1 else s.nextId }
    (asserted o o.branchId)

omit [F32 F] in
/-- Create a branch of a given id. -/
def replayCreateBranch (s : ConstraintStore F) (o : CreateBranchOp) : ConstraintStore F :=
  pushBranch { s with
    nextBranchId := if s.nextBranchId ≤ o.branchId then o.branchId + 1 else s.nextBranchId }
    o.branchId o.parentId o.scope o.createdMs

/-- Apply an operation of the log. -/
def apply (s : ConstraintStore F) : Op F → ConstraintStore F
  | .assertConstraint o => s.replayAssert o
  | .retractConstraint o => (s.retract o.factId o.retractedAtMs).1
  | .createBranch o => s.replayCreateBranch o
  | .resolveBranch o => (s.resolveBranch o.winnerId o.loserId o.resolvedAtMs).1
  | _ => s

/-! ## Live calls -/

/-- A call. -/
inductive Call (F : Type) where
  | assertConstraint (subject predicate object : String) (confidence : F) (scope : String)
      (branchId : ℕ) (provenance : Provenance) (sourceMemoryId : Option MemoryId)
  | retractConstraint (factId : ℕ)
  | createConstraintBranch (parentId : ℕ) (scope : String)
  | resolveConstraintBranch (winnerId loserId : ℕ)

/-- The operation of an assertion, with the branch that was asked for. -/
def assertOp (s : ConstraintStore F) (subject predicate object : String) (confidence : F)
    (scope : String) (branchId : ℕ) (provenance : Provenance) (sourceMemoryId : Option MemoryId)
    (now : ℤ) : AssertConstraintOp F where
  factId := s.nextId
  subject := subject
  predicate := predicate
  object := object
  confidence := confidence
  scope := scope
  branchId := branchId
  provenanceSource := provenance.source
  provenanceSession := provenance.sessionId
  provenanceBasis := provenance.confidenceBasis
  validFromMs := now
  sourceMemoryId := sourceMemoryId

/-- Assert a fact.  Where it conflicts with one of its branch, it opens a branch and moves there. -/
def assertFact (s : ConstraintStore F) (o : AssertConstraintOp F) : ConstraintStore F :=
  let s' := { s with nextId := s.nextId + 1 }
  match s'.detectConflict o.subject o.predicate o.object o.scope o.branchId with
  | some _ =>
    let opened := s'.createBranch o.branchId o.scope o.validFromMs
    opened.1.insertConstraint (asserted o opened.2)
  | none => s'.insertConstraint (asserted o o.branchId)

/-- Make a call; the store, and what it gives to the log. -/
def call (s : ConstraintStore F) (now : ℤ) : Call F → ConstraintStore F × List (Op F)
  | .assertConstraint subject predicate object confidence scope branchId provenance memory =>
    let o := s.assertOp subject predicate object confidence scope branchId provenance memory now
    (s.assertFact o, [.assertConstraint o])
  | .retractConstraint factId =>
    let r := s.retract factId now
    (r.1, if r.2 then [.retractConstraint ⟨factId, now⟩] else [])
  | .createConstraintBranch parentId scope =>
    let b := s.createBranch parentId scope now
    (b.1, [.createBranch ⟨b.2, parentId, scope, now⟩])
  | .resolveConstraintBranch winnerId loserId =>
    let r := s.resolveBranch winnerId loserId now
    (r.1, if r.2 then [.resolveBranch ⟨winnerId, loserId, now⟩] else [])

/-- A call at a time, and whether the log takes its operation. -/
structure Timed (F : Type) where
  now : ℤ
  call : Call F
  append : Except FieldError Unit

/-- Make a call.  Where the store is disabled, what is written to it is discarded, and the log
suppresses its operations; where the append fails, the store has changed already. -/
def live (disabled : Bool) (s : ConstraintStore F) (c : Timed F) : ConstraintStore F × List (Op F) :=
  if disabled then (s, [])
  else
    let r := s.call c.now c.call
    (r.1, if c.append.isOk then r.2 else [])

/-! ## A restart -/

/-- The fact that a call conflicts with. -/
def conflict (s : ConstraintStore F) : Call F → Option ℕ
  | .assertConstraint subject predicate object _ scope branchId _ _ =>
    s.detectConflict subject predicate object scope branchId
  | .retractConstraint _ => none
  | .createConstraintBranch _ _ => none
  | .resolveConstraintBranch _ _ => none

/-- A call that the log tells of as it was done: it appends, and it conflicts with no fact. -/
def Told (s : ConstraintStore F) (c : Timed F) : Prop :=
  c.append.isOk = true ∧ s.conflict c.call = none

/-- A call that the log tells of, and its replay. -/
lemma apply_live {disabled : Bool} {s : ConstraintStore F} {c : Timed F} (h : s.Told c) :
    (s.live disabled c).2.foldl apply s = (s.live disabled c).1 := by
  obtain ⟨now, call, append⟩ := c
  obtain ⟨happend, htold⟩ := h
  simp only at happend htold
  unfold live
  cases disabled with
  | true => rfl
  | false =>
    simp only [happend, if_true, Bool.false_eq_true, if_false]
    cases call with
    | assertConstraint subject predicate object confidence scope branchId =>
      -- the check runs behind the allocation of the id, which it does not see
      have hnone : ({ s with nextId := s.nextId + 1 } : ConstraintStore F).detectConflict subject
        predicate object scope branchId = none := htold
      simp only [ConstraintStore.call, List.foldl_cons, List.foldl_nil, apply, replayAssert,
        assertFact, assertOp, hnone, le_refl, if_true]
    | retractConstraint factId =>
      cases hidx : s.idToIndex factId with
      | none => simp [ConstraintStore.call, retract, hidx]
      | some idx => simp [ConstraintStore.call, retract, hidx, apply]
    | createConstraintBranch =>
      simp [ConstraintStore.call, apply, createBranch, replayCreateBranch]
    | resolveConstraintBranch winnerId loserId =>
      simp only [ConstraintStore.call]
      by_cases hres : (s.resolveBranch winnerId loserId now).2 = true
      · simp [hres, apply]
      · have hsame : (s.resolveBranch winnerId loserId now).1 = s := by
          revert hres
          unfold resolveBranch
          cases s.branchIdToIndex loserId with
          | none => exact fun _ => rfl
          | some idx =>
            simp only
            split <;> exact fun h => absurd rfl h
        simp [hres, hsame]

/-- Behind calls that the log tells of, a replay rebuilds the store. -/
theorem constraints_survive (disabled : Bool) {calls : List (Timed F)}
    (h : Replayed.All (live disabled) Told new calls) :
    (Replayed.run (live disabled) new calls).2.foldl apply new =
      (Replayed.run (live disabled) new calls).1 := by
  have hstep : ∀ (s t : ConstraintStore F) c, t = s → s.Told c →
      (s.live disabled c).2.foldl apply t = (s.live disabled c).1 := by
    rintro s t c rfl hc
    exact apply_live hc
  exact Replayed.related_run (fun s t => t = s) hstep rfl h

/-! ## A conflict -/

/-- Assert the color of a thing. -/
def sampleAssert (object : String) (now : ℤ) : Timed ℚ :=
  ⟨now, .assertConstraint "X" "color" object 1 "global" 0 ⟨"tool", none, "observed"⟩ none, .ok ()⟩

/-- A thing is red and blue; the branch of the second fact loses.  The store has retracted that
fact, and a replay has neither done so nor opened the branch. -/
theorem conflict_forgotten :
    let r := Replayed.run (live false) new
      [sampleAssert "red" 5, sampleAssert "blue" 6, ⟨7, .resolveConstraintBranch 0 1, .ok ()⟩]
    (r.1.get 2).map (fun c => (c.branchId, c.validToMs)) = some (1, 7) ∧ r.1.nextBranchId = 2 ∧
      ((r.2.foldl apply new).get 2).map (fun c => (c.branchId, c.validToMs)) = some (0, 0) ∧
        (r.2.foldl apply new).nextBranchId = 1 := by
  decide +kernel

/-- Two things have colors; a branch is opened and loses, and a fact is retracted. -/
theorem constraints_survive_sample :
    let r := Replayed.run (live false) (new : ConstraintStore ℚ)
      [sampleAssert "red" 5, sampleAssert "red" 6, ⟨7, .createConstraintBranch 0 "global", .ok ()⟩,
        ⟨8, .resolveConstraintBranch 0 1, .ok ()⟩, ⟨9, .retractConstraint 1, .ok ()⟩]
    r.2.foldl apply new = r.1 :=
  constraints_survive false ⟨⟨rfl, by decide +kernel⟩, ⟨rfl, by decide +kernel⟩, ⟨rfl, rfl⟩,
    ⟨rfl, rfl⟩, ⟨rfl, rfl⟩, trivial⟩

end ConstraintStore

end ChittaField
