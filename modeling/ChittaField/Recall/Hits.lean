import ChittaField.Memory.Apply

/-!
# Hits

What a recall returns, and which memories may be returned at all.
-/

namespace ChittaField

/-- A hit of a recall. -/
structure RecallHit (D : Type*) where
  memoryId : MemoryId
  tsMs : ℤ
  kind : String
  realm : String
  content : String
  /-- The score and its parts. -/
  scored : D

/-- Memories of these statuses take part in recall. -/
def recallable : MemoryStatus → Bool
  | .active | .verified | .observed | .proposed => true
  | .superseded | .contradicted | .archived => false

/-- A memory that may be found: it is there, is not deleted, and its status takes part. -/
def legal {F : Type} (states : MemoryId → Option (MemoryState F)) (id : MemoryId) : Bool :=
  match states id with
  | none => false
  | some s => !s.deleted && recallable s.status

end ChittaField
