import Mathlib.Data.List.Basic

/-!
# Loops with an exit

A loop that may be left early is a fold whose errors are the exits.  What comes out is a state in both
cases.
-/

namespace ChittaField.Exits

variable {σ α : Type*}

/-- The state that comes out, whether or not the loop was left early. -/
def outcome : Except σ σ → σ
  | .error s => s
  | .ok s => s

/-- What every step keeps is kept by the loop. -/
lemma outcome_foldlM {p : σ → Prop} {f : σ → α → Except σ σ} {xs : List α} {s : σ}
    (hstep : ∀ s, ∀ x ∈ xs, p s → p (outcome (f s x))) (hs : p s) : p (outcome (xs.foldlM f s)) := by
  induction xs generalizing s with
  | nil => exact hs
  | cons x xs ih =>
    have hx := hstep s x List.mem_cons_self hs
    rw [List.foldlM_cons]
    cases hout : f s x with
    | error s' =>
      rw [hout] at hx
      exact hx
    | ok s' =>
      rw [hout] at hx
      exact ih (fun s y hy => hstep s y (List.mem_cons_of_mem _ hy)) hx

/-- A loop that was not left goes through all. -/
lemma outcome_foldlM_eq {left : σ → Prop} {f : σ → α → Except σ σ} {xs : List α} {s : σ}
    (hleft : ∀ s x s', f s x = .error s' → left s') (h : ¬left (outcome (xs.foldlM f s))) :
    outcome (xs.foldlM f s) = xs.foldl (fun s x => outcome (f s x)) s := by
  induction xs generalizing s with
  | nil => rfl
  | cons x xs ih =>
    rw [List.foldlM_cons] at h ⊢
    rw [List.foldl_cons]
    cases hout : f s x with
    | error s' =>
      rw [hout] at h
      exact absurd (hleft s x s' hout) h
    | ok s' =>
      rw [hout] at h
      exact ih h

/-- The loop comes to an element in a state. -/
inductive Comes (f : σ → α → Except σ σ) : List α → σ → α → σ → Prop where
  | here {x : α} {xs : List α} {s : σ} : Comes f (x :: xs) s x s
  | there {x y : α} {xs : List α} {s s₁ s' : σ} (hstep : f s x = .ok s₁) (h : Comes f xs s₁ y s') :
      Comes f (x :: xs) s y s'

/-- The loop comes to its elements in states that have what every step keeps. -/
lemma Comes.keeps {p : σ → Prop} {f : σ → α → Except σ σ} {xs : List α} {s s' : σ} {y : α}
    (h : Comes f xs s y s') (hstep : ∀ s, ∀ x ∈ xs, p s → p (outcome (f s x))) (hs : p s) :
    p s' ∧ y ∈ xs := by
  induction h with
  | here => exact ⟨hs, List.mem_cons_self⟩
  | there hok _ ih =>
    have hp := hstep _ _ List.mem_cons_self hs
    rw [hok] at hp
    obtain ⟨hs', hy⟩ := ih (fun s y hy => hstep s y (List.mem_cons_of_mem _ hy)) hp
    exact ⟨hs', List.mem_cons_of_mem _ hy⟩

/-- What only steps bring about holds at the end just if it did at first or a step that the loop comes
to brings it about. -/
lemma outcome_foldlM_iff {p : σ → Prop} {brings : σ → α → Prop} {f : σ → α → Except σ σ}
    (hstep : ∀ s x, p (outcome (f s x)) ↔ p s ∨ brings s x) {xs : List α} {s : σ} :
    p (outcome (xs.foldlM f s)) ↔ p s ∨ ∃ y s', Comes f xs s y s' ∧ brings s' y := by
  induction xs generalizing s with
  | nil => exact ⟨Or.inl, fun h => h.resolve_right (by rintro ⟨_, _, ⟨⟩, _⟩)⟩
  | cons x xs ih =>
    have hx := hstep s x
    rw [List.foldlM_cons]
    cases hout : f s x with
    | error s' =>
      rw [hout] at hx
      refine hx.trans (or_congr_right ⟨fun h => ⟨x, s, .here, h⟩, ?_⟩)
      rintro ⟨y, s₁, h | ⟨hok, -⟩, hb⟩
      · exact hb
      · exact absurd (hout.symm.trans hok) nofun
    | ok s' =>
      rw [hout] at hx
      refine ih.trans ((or_congr_left hx).trans (or_assoc.trans (or_congr_right ?_)))
      constructor
      · rintro (hb | ⟨y, s₁, h, hb⟩)
        · exact ⟨x, s, .here, hb⟩
        · exact ⟨y, s₁, .there hout h, hb⟩
      · rintro ⟨y, s₁, h | ⟨hok, h⟩, hb⟩
        · exact Or.inl hb
        · obtain rfl := Except.ok.inj (hout.symm.trans hok)
          exact Or.inr ⟨y, s₁, h, hb⟩

end ChittaField.Exits
