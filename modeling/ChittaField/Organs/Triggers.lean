import ChittaField.Log.Reader
import ChittaField.Memory.State

/-!
# The trigger store

A trigger is armed until it fires or is dismissed.  The operation that adds it has the whole trigger
as a text.
-/

namespace ChittaField

variable {F : Type}

/-! ## The data -/

/-- The status of a trigger. -/
inductive TriggerStatus where
  | armed
  | fired
  | expired
  | inhibited
  deriving DecidableEq, Repr

/-- The status of a code; unknown codes are inhibited. -/
def TriggerStatus.ofCode : ℕ → TriggerStatus
  | 0 => .armed
  | 1 => .fired
  | 2 => .expired
  | _ => .inhibited

/-- When a trigger fires. -/
inductive TriggerCondition where
  | constraintMatch (subject predicate object : Option String)
  | timeAfter (afterMs : ℤ)
  | eventMatch (domain kind : String)
  | allOf (conditions : List TriggerCondition)
  | anyOf (conditions : List TriggerCondition)

/-- What a trigger does. -/
inductive TriggerAction where
  | injectMemory (memory : String)
  | emitEvent (domain kind payload : String)
  | rememberFact (subject predicate object : String)
  | notify (message : String)
  deriving DecidableEq

/-- A trigger. -/
structure TriggerAutomaton (F : Type) where
  id : ℕ
  name : String
  condition : TriggerCondition
  action : TriggerAction
  deadlineMs : ℤ
  tension : F
  tensionThreshold : F
  gain : F
  status : TriggerStatus
  createdMs : ℤ
  firedMs : ℤ
  inhibitedBy : List ℕ
  sourceSession : Option String
  realm : String

/-- The store. -/
structure TriggerStore (F : Type) where
  nextId : ℕ
  triggers : List (TriggerAutomaton F)
  idToIndex : ℕ → Option ℕ

/-- The text of a trigger, and how it is read. -/
structure TriggerText (F : Type) where
  toJson : TriggerAutomaton F → Bytes
  fromJson : Bytes → Option (TriggerAutomaton F)

namespace TriggerStore

/-- An empty store. -/
def new : TriggerStore F where
  nextId := 1
  triggers := []
  idToIndex _ := none

/-- The trigger of an id. -/
def get (s : TriggerStore F) (id : ℕ) : Option (TriggerAutomaton F) :=
  (s.idToIndex id).bind fun idx => s.triggers[idx]?

/-- Append a trigger. -/
def pushTrigger (s : TriggerStore F) (t : TriggerAutomaton F) : TriggerStore F :=
  { s with
    triggers := s.triggers ++ [t]
    idToIndex := Function.update s.idToIndex t.id (some s.triggers.length) }

/-- Arm a trigger; its id. -/
def addTrigger [F32 F] (s : TriggerStore F) (name : String) (condition : TriggerCondition)
    (action : TriggerAction) (deadlineMs : ℤ) (tensionThreshold gain : F) (realm : String)
    (sourceSession : Option String) (nowMs : ℤ) : TriggerStore F × ℕ :=
  ({ s with nextId := s.nextId + 1 }.pushTrigger
    { id := s.nextId
      name := name
      condition := condition
      action := action
      deadlineMs := deadlineMs
      tension := F32.lit 0
      tensionThreshold := tensionThreshold
      gain := gain
      status := .armed
      createdMs := nowMs
      firedMs := 0
      inhibitedBy := []
      sourceSession := sourceSession
      realm := realm }, s.nextId)

/-- Add a trigger of a given id. -/
def replayAdd (s : TriggerStore F) (t : TriggerAutomaton F) : TriggerStore F :=
  { s with nextId := if s.nextId ≤ t.id then t.id + 1 else s.nextId }.pushTrigger t

/-- Set the status of a trigger. -/
def replayUpdateStatus (s : TriggerStore F) (id : ℕ) (status : TriggerStatus) (firedMs : ℤ) :
    TriggerStore F :=
  match s.idToIndex id with
  | none => s
  | some idx =>
    { s with
      triggers := s.triggers.modify idx fun t =>
        { t with status := status, firedMs := if 0 < firedMs then firedMs else t.firedMs } }

/-- Apply an operation of the log. -/
def apply (text : TriggerText F) (s : TriggerStore F) : Op F → TriggerStore F
  | .addTrigger o => (text.fromJson o.triggerJson).elim s s.replayAdd
  | .updateTrigger o => s.replayUpdateStatus o.triggerId (.ofCode o.status) o.firedMs
  | .fireTrigger o => s.replayUpdateStatus o.triggerId .fired o.firedMs
  | _ => s

end TriggerStore

end ChittaField
