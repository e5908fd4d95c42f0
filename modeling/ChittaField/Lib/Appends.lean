import Mathlib.Data.Nat.Notation

/-!
# Appends that may fail

A call changes a store and appends operations to a log.  It ends at the first append that fails,
unless it does not mind.
-/

namespace ChittaField

/-- The store in a call, with what the call has logged.  `room` says after how many appends one
fails, if one does; `failed` says that the call has ended so. -/
structure Progress (σ ο : Type*) where
  store : σ
  ops : List ο
  room : Option ℕ
  failed : Bool

namespace Progress

variable {σ ο : Type*}

/-- Begin a call. -/
def start (s : σ) (room : Option ℕ) : Progress σ ο := ⟨s, [], room, false⟩

/-- Change the store. -/
def change (p : Progress σ ο) (f : σ → σ) : Progress σ ο :=
  if p.failed then p else { p with store := f p.store }

/-- Log an operation. -/
def append (p : Progress σ ο) (op : ο) : Progress σ ο :=
  if p.failed then p
  else
    match p.room with
    | none => { p with ops := p.ops ++ [op] }
    | some 0 => { p with failed := true }
    | some (n + 1) => { p with ops := p.ops ++ [op], room := some n }

/-- Log an operation, and go on if that fails. -/
def appendIgnored (p : Progress σ ο) (op : ο) : Progress σ ο :=
  if p.failed then p
  else
    match p.room with
    | none => { p with ops := p.ops ++ [op] }
    | some 0 => p
    | some (n + 1) => { p with ops := p.ops ++ [op], room := some n }

/-- Log operations one after the other. -/
def appendAll (p : Progress σ ο) (ops : List ο) : Progress σ ο := ops.foldl append p

lemma change_id (p : Progress σ ο) : p.change (fun s => s) = p := by
  unfold change
  split <;> rfl

variable (s : σ) (ops : List ο) (f : σ → σ) (op : ο)

@[simp]
lemma change_ok : (⟨s, ops, none, false⟩ : Progress σ ο).change f = ⟨f s, ops, none, false⟩ := rfl

@[simp]
lemma append_ok :
    (⟨s, ops, none, false⟩ : Progress σ ο).append op = ⟨s, ops ++ [op], none, false⟩ := rfl

@[simp]
lemma appendIgnored_ok :
    (⟨s, ops, none, false⟩ : Progress σ ο).appendIgnored op = ⟨s, ops ++ [op], none, false⟩ := rfl

/-- A log that takes every operation. -/
lemma appendAll_ok (l : List ο) :
    (⟨s, ops, none, false⟩ : Progress σ ο).appendAll l = ⟨s, ops ++ l, none, false⟩ := by
  induction l generalizing ops with
  | nil => rw [List.append_nil]; rfl
  | cons o l ih => exact (ih (ops ++ [o])).trans (by rw [List.append_assoc, List.singleton_append])

end Progress

end ChittaField
