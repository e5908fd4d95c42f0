import Mathlib.Data.List.Basic

/-!
# Readers

A reader takes what it reads from the front of a list, or fails.  `Reads` says that it reads back what
was written, and `Stable` that it does not look at what is behind what it takes.  A stable reader that
reads all of a list back fails on every shorter beginning of it (`Reads.error_of_prefix`).
-/

namespace ChittaField.Reading

/-- A reader of a list. -/
abbrev Reader (β ε α : Type) := StateT (List β) (Except ε) α

variable {β ε α γ : Type}

/-- Read so many times. -/
def times (n : ℕ) (r : Reader β ε α) : Reader β ε (List α) :=
  match n with
  | 0 => pure []
  | n + 1 => do
    let x ← r
    let xs ← times n r
    pure (x :: xs)

lemma times_zero (r : Reader β ε α) : times 0 r = pure [] := rfl

lemma times_succ (n : ℕ) (r : Reader β ε α) :
    times (n + 1) r = r >>= fun x => times n r >>= fun xs => pure (x :: xs) := rfl

-- so that large numbers of times are not unfolded
attribute [irreducible] times

/-- The reader reads a value back from what was written, whatever is behind it. -/
def Reads (r : Reader β ε α) (written : List β) (x : α) : Prop :=
  ∀ rest, r (written ++ rest) = .ok (x, rest)

/-- The reader does not look at what is behind what it takes. -/
def Stable (r : Reader β ε α) : Prop :=
  ∀ bs x rest more, r bs = .ok (x, rest) → r (bs ++ more) = .ok (x, rest ++ more)

variable {r : Reader β ε α} {f : α → Reader β ε γ} {written written' : List β} {x : α} {y : γ}

lemma bind_eq (r : Reader β ε α) (f : α → Reader β ε γ) (bs : List β) :
    (r >>= f) bs = (r bs).bind fun p => f p.1 p.2 := rfl

lemma bind_of_ok {bs rest : List β} (h : r bs = .ok (x, rest)) : (r >>= f) bs = f x rest := by
  rw [bind_eq, h]
  rfl

lemma exists_of_bind_ok {bs rest : List β} (h : (r >>= f) bs = .ok (y, rest)) :
    ∃ x rest', r bs = .ok (x, rest') ∧ f x rest' = .ok (y, rest) := by
  rw [bind_eq] at h
  cases hr : r bs with
  | error e =>
    rw [hr] at h
    cases h
  | ok p =>
    rw [hr] at h
    exact ⟨p.1, p.2, rfl, h⟩

/-- What holds of all that a reader may read holds of all that it reads. -/
lemma forall_of_times_ok {p : α → Prop} (h : ∀ bs x rest, r bs = .ok (x, rest) → p x) (n : ℕ)
    {bs rest : List β} {xs : List α} (hok : times n r bs = .ok (xs, rest)) : ∀ x ∈ xs, p x := by
  induction n generalizing bs xs with
  | zero =>
    rw [times_zero] at hok
    obtain ⟨rfl, rfl⟩ := Prod.mk.inj (Except.ok.inj hok)
    exact List.forall_mem_nil _
  | succ n ih =>
    rw [times_succ] at hok
    obtain ⟨y, bs', hy, hok⟩ := exists_of_bind_ok hok
    obtain ⟨ys, bs'', hys, hok⟩ := exists_of_bind_ok hok
    obtain ⟨rfl, rfl⟩ := Prod.mk.inj (Except.ok.inj hok)
    exact List.forall_mem_cons.mpr ⟨h _ _ _ hy, ih hys⟩

/-! ## Reading back -/

lemma reads_pure : Reads (pure x : Reader β ε α) [] x := fun _ => rfl

lemma Reads.bind (h : Reads r written x) (hf : Reads (f x) written' y) :
    Reads (r >>= f) (written ++ written') y := by
  intro rest
  rw [List.append_assoc, bind_of_ok (h _)]
  exact hf rest

/-- What is done with a value at the end. -/
lemma Reads.bind_pure {g : α → γ} (h : Reads r written x) :
    Reads (r >>= fun x => pure (g x)) written (g x) := by
  have hbind := h.bind (f := fun x => pure (g x)) reads_pure
  rwa [List.append_nil] at hbind

/-- A list of records is read back. -/
lemma Reads.times {δ : Type} {l : List δ} {write : δ → List β} {g : δ → α}
    (h : ∀ a ∈ l, Reads r (write a) (g a)) : Reads (times l.length r) (l.flatMap write) (l.map g) := by
  induction l with
  | nil =>
    rw [List.length_nil, times_zero]
    exact reads_pure
  | cons a l ih =>
    obtain ⟨ha, hl⟩ := List.forall_mem_cons.mp h
    rw [List.flatMap_cons, List.map_cons, List.length_cons, times_succ]
    exact ha.bind (ih hl).bind_pure

/-! ## What is behind -/

lemma stable_pure : Stable (pure x : Reader β ε α) := by
  intro bs y rest more h
  cases h
  rfl

lemma stable_throw {e : ε} : Stable (throw e : Reader β ε α) := by
  intro bs y rest more h
  cases h

lemma Stable.bind (h : Stable r) (hf : ∀ x, Stable (f x)) : Stable (r >>= f) := by
  intro bs y rest more hok
  obtain ⟨x, rest', hr, hrest⟩ := exists_of_bind_ok hok
  rw [bind_of_ok (h _ _ _ more hr)]
  exact hf x _ _ _ more hrest

lemma Stable.times (h : Stable r) (n : ℕ) : Stable (times n r) := by
  induction n with
  | zero =>
    rw [times_zero]
    exact stable_pure
  | succ n ih =>
    rw [times_succ]
    exact h.bind fun x => ih.bind fun xs => stable_pure

/-- **Cut files are rejected.**  A stable reader that takes all of a list fails on what it was cut to. -/
theorem Reads.error_of_prefix (h : Reads r written x) (hstable : Stable r) {bs : List β}
    (hcut : bs <+: written) (hne : bs ≠ written) : ∃ e, r bs = .error e := by
  obtain ⟨more, rfl⟩ := hcut
  cases hr : r bs with
  | error e => exact ⟨e, rfl⟩
  | ok p =>
    have hlong := hstable bs p.1 p.2 more hr
    have hall := h []
    rw [List.append_nil, hlong] at hall
    have hrest := congrArg Prod.snd (Except.ok.inj hall)
    refine absurd ?_ hne
    rw [(List.append_eq_nil_iff.mp hrest).2, List.append_nil]

end ChittaField.Reading
