import Mathlib.Data.List.Basic

/-!
# Live stores and their logs

A live store answers a call by changing itself and logging operations.  Behind a restart the logged
operations are applied to an empty store.  The two stores stay related along a run as long as every
call, made on related stores, relates what it leaves to what its operations leave.
-/

namespace ChittaField.Replayed

variable {σ τ κ ο : Type*} (live : σ → κ → σ × List ο) (apply : τ → ο → τ)

/-- Make calls one after the other; the store and what it has logged. -/
def run (s : σ) : List κ → σ × List ο
  | [] => (s, [])
  | c :: cs => ((run (live s c).1 cs).1, (live s c).2 ++ (run (live s c).1 cs).2)

/-- All calls of a run meet a condition on the store before them. -/
def All (cond : σ → κ → Prop) (s : σ) : List κ → Prop
  | [] => True
  | c :: cs => cond s c ∧ All cond (live s c).1 cs

instance All.decidable {cond : σ → κ → Prop} [∀ s c, Decidable (cond s c)] :
    ∀ (s : σ) (calls : List κ), Decidable (All live cond s calls)
  | _, [] => isTrue trivial
  | s, c :: cs => @instDecidableAnd _ _ inferInstance (All.decidable (live s c).1 cs)

variable {live apply} {cond : σ → κ → Prop}

variable {calls : List κ} {s : σ}

/-- A relation that every call keeps is kept along a run. -/
theorem related_run (related : σ → τ → Prop)
    (hstep : ∀ s t c, related s t → cond s c → related (live s c).1 ((live s c).2.foldl apply t))
    {t : τ} (h : related s t) (hall : All live cond s calls) :
    related (run live s calls).1 ((run live s calls).2.foldl apply t) := by
  induction calls generalizing s t with
  | nil => exact h
  | cons c cs ih =>
    rw [run, List.foldl_append]
    exact ih (hstep s t c h hall.1) hall.2

/-- An invariant that every call keeps is kept along a run. -/
theorem invariant_run (invariant : σ → Prop)
    (hstep : ∀ s c, invariant s → cond s c → invariant (live s c).1) (h : invariant s)
    (hall : All live cond s calls) : invariant (run live s calls).1 := by
  induction calls generalizing s with
  | nil => exact h
  | cons c cs ih => exact ih (hstep s c h hall.1) hall.2

/-- An invariant that every call keeps in any case is kept along every run. -/
theorem invariant_always (invariant : σ → Prop) (hstep : ∀ s c, invariant s → invariant (live s c).1)
    (h : invariant s) (calls : List κ) : invariant (run live s calls).1 := by
  induction calls generalizing s with
  | nil => exact h
  | cons c cs ih => exact ih (hstep s c h)

/-- What an invariant says of the calls that meet a condition holds of all calls of a run. -/
theorem all_run (invariant : σ → Prop) {prop : σ → κ → Prop}
    (hstep : ∀ s c, invariant s → cond s c → invariant (live s c).1)
    (hprop : ∀ s c, invariant s → cond s c → prop s c) (h : invariant s)
    (hall : All live cond s calls) : All live prop s calls := by
  induction calls generalizing s with
  | nil => exact trivial
  | cons c cs ih => exact ⟨hprop s c h hall.1, ih (hstep s c h hall.1) hall.2⟩

/-- Conditions that say the same of every call say the same of a run. -/
theorem all_congr {cond' : σ → κ → Prop} (h : ∀ s c, cond s c ↔ cond' s c) :
    All live cond s calls ↔ All live cond' s calls := by
  induction calls generalizing s with
  | nil => exact Iff.rfl
  | cons c cs ih => exact and_congr (h s c) ih

/-- Where a condition decides whether a call keeps a property, the property holds behind every call of
a run iff all calls meet the condition. -/
theorem all_iff (invariant prop : σ → Prop) (hinvariant : ∀ s c, invariant s → invariant (live s c).1)
    (hstep : ∀ s c, invariant s → prop s → (prop (live s c).1 ↔ cond s c)) (h : invariant s)
    (hs : prop s) : All live (fun s c => prop (live s c).1) s calls ↔ All live cond s calls := by
  induction calls generalizing s with
  | nil => exact Iff.rfl
  | cons c cs ih =>
    have hhead := hstep s c h hs
    exact ⟨fun hall => ⟨hhead.mp hall.1, (ih (hinvariant s c h) hall.1).mp hall.2⟩,
      fun hall => ⟨hhead.mpr hall.1, (ih (hinvariant s c h) (hhead.mpr hall.1)).mpr hall.2⟩⟩

end ChittaField.Replayed
