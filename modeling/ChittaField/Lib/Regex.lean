import Mathlib.Data.List.Basic

/-!
# Regular expressions that are searched for

Expressions over arbitrary symbols, with greedy repetition, one capture group and word boundaries.
An expression has at a place of a text a list of successes, the preferred one first: an alternative
prefers its left side, a repetition prefers to go on.  A search walks the text from left to right and
takes the preferred success at the first place that has one.
-/

namespace ChittaField

/-- A regular expression. -/
inductive Regex (α : Type*) where
  | empty
  | symbol (accepts : α → Bool)
  | seq (r s : Regex α)
  | alt (r s : Regex α)
  | repeated (r : Regex α) (atLeast : ℕ) (atMost : Option ℕ)
  | group (r : Regex α)
  | boundary (word : α → Bool)

namespace Regex

variable {α β : Type*}

/-- A place of a text: the symbols before it, the nearest one first, those behind it, and what the
group has captured. -/
structure Cursor (α : Type*) where
  before : List α
  after : List α
  captured : Option (List α)

/-- Go on with `m`, up to a number of times; going on is preferred to stopping. -/
def iterate (m : Cursor α → List (Cursor α)) : ℕ → ℕ → Option ℕ → Cursor α → List (Cursor α)
  | 0, atLeast, _, c => if atLeast = 0 then [c] else []
  | fuel + 1, atLeast, atMost, c =>
    (if atMost = some 0 then []
      else (m c).flatMap (iterate m fuel (atLeast - 1) (atMost.map (· - 1)))) ++
      if atLeast = 0 then [c] else []

/-- The places where a match that begins here can end, the preferred one first.  What is repeated
has to consume symbols, so that there are not more rounds than symbols. -/
def successes : Regex α → Cursor α → List (Cursor α)
  | empty, c => [c]
  | symbol accepts, c =>
    match c.after with
    | [] => []
    | a :: rest => if accepts a then [{ c with before := a :: c.before, after := rest }] else []
  | seq r s, c => (r.successes c).flatMap s.successes
  | alt r s, c => r.successes c ++ s.successes c
  | repeated r atLeast atMost, c => iterate r.successes c.after.length atLeast atMost c
  | group r, c => (r.successes c).map fun c' =>
    { c' with captured := some (c.after.take (c.after.length - c'.after.length)) }
  | boundary word, c => if c.before.head?.any word = c.after.head?.any word then [] else [c]

/-- The expression that matches a word. -/
def literal [DecidableEq α] : List α → Regex α
  | [] => empty
  | a :: w => seq (symbol (· = a)) (literal w)

/-- The first of some expressions that matches. -/
def anyOf : List (Regex α) → Regex α
  | [] => symbol fun _ => false
  | [r] => r
  | r :: rs => alt r (anyOf rs)

/-! ## Searching -/

/-- A match: its text, and that of the group. -/
structure Found (α : Type*) where
  text : List α
  captured : Option (List α)

/-- The preferred match that begins at a place. -/
def find (r : Regex α) (before after : List α) : Option (Cursor α) :=
  (r.successes ⟨before, after, none⟩).head?

/-- Cut a text into its matches and the symbols between them. -/
def scan (r : Regex α) : ℕ → List α → List α → List (α ⊕ Found α)
  | 0, _, _ => []
  | _ + 1, _, [] => []
  | fuel + 1, before, a :: rest =>
    match r.find before (a :: rest) with
    | some c =>
      .inr ⟨(a :: rest).take (rest.length + 1 - c.after.length), c.captured⟩ ::
        scan r fuel c.before c.after
    | none => .inl a :: scan r fuel (a :: before) rest

/-- The pieces of a text. -/
def pieces (r : Regex α) (text : List α) : List (α ⊕ Found α) := r.scan text.length [] text

/-- The matches in a text. -/
def findIter (r : Regex α) (text : List α) : List (Found α) :=
  (r.pieces text).filterMap Sum.getRight?

/-- Put something in the place of all matches. -/
def replaceAll (r : Regex α) (by_ : Found α → List α) (text : List α) : List α :=
  (r.pieces text).flatMap (Sum.elim (fun a => [a]) by_)

/-! ## The successes -/

/-- Some rounds of going on. -/
def Rounds (m : Cursor α → List (Cursor α)) : ℕ → Cursor α → Cursor α → Prop
  | 0, c, c' => c' = c
  | n + 1, c, c' => ∃ mid ∈ m c, Rounds m n mid c'

variable {c c' : Cursor α}

theorem mem_iterate {m : Cursor α → List (Cursor α)} {fuel atLeast : ℕ} {atMost : Option ℕ} :
    c' ∈ iterate m fuel atLeast atMost c ↔
      ∃ n ≤ fuel, atLeast ≤ n ∧ (∀ h ∈ atMost, n ≤ h) ∧ Rounds m n c c' := by
  induction fuel generalizing atLeast atMost c with
  | zero =>
    simp only [iterate, Nat.le_zero_eq, exists_eq_left, Rounds]
    by_cases hzero : atLeast = 0 <;> simp [hzero]
  | succ fuel ih =>
    rw [iterate, List.mem_append]
    constructor
    · rintro (h | h)
      · split_ifs at h with hmost
        · exact absurd h List.not_mem_nil
        · obtain ⟨mid, hmid, hrest⟩ := List.mem_flatMap.mp h
          obtain ⟨n, hn, hleast, hbound, hrounds⟩ := ih.mp hrest
          refine ⟨n + 1, by omega, by omega, fun h hh => ?_, mid, hmid, hrounds⟩
          have hle := hbound (h - 1) (Option.mem_map_of_mem _ hh)
          have hpos : h ≠ 0 := fun hzero => hmost (hzero ▸ hh)
          omega
      · split_ifs at h with hzero
        · exact ⟨0, by omega, by omega, fun _ _ => Nat.zero_le _, List.mem_singleton.mp h⟩
        · exact absurd h List.not_mem_nil
    · rintro ⟨n, hn, hleast, hbound, hrounds⟩
      cases n with
      | zero =>
        right
        rw [if_pos (by omega), List.mem_singleton]
        exact hrounds
      | succ n =>
        left
        have hmost : atMost ≠ some 0 := fun hzero => by
          have := hbound 0 hzero
          omega
        obtain ⟨mid, hmid, hrest⟩ := hrounds
        rw [if_neg hmost]
        refine List.mem_flatMap.mpr ⟨mid, hmid, ih.mpr ⟨n, by omega, by omega, ?_, hrest⟩⟩
        intro h hh
        obtain ⟨h', hh', rfl⟩ := Option.map_eq_some_iff.mp hh
        have := hbound h' hh'
        omega

lemma mem_successes_empty : c' ∈ (empty : Regex α).successes c ↔ c' = c :=
  List.mem_singleton

variable {accepts : α → Bool}

lemma mem_successes_symbol :
    c' ∈ (symbol accepts).successes c ↔
      ∃ a rest, c.after = a :: rest ∧ accepts a = true ∧ c' = ⟨a :: c.before, rest, c.captured⟩ := by
  obtain ⟨before, after, captured⟩ := c
  cases after with
  | nil => simp [successes]
  | cons a rest => by_cases h : accepts a = true <;> simp [successes, h]

lemma mem_successes_seq {r s : Regex α} :
    c' ∈ (seq r s).successes c ↔ ∃ mid ∈ r.successes c, c' ∈ s.successes mid :=
  List.mem_flatMap

lemma mem_successes_alt {r s : Regex α} :
    c' ∈ (alt r s).successes c ↔ c' ∈ r.successes c ∨ c' ∈ s.successes c :=
  List.mem_append

variable {r : Regex α}

lemma mem_successes_group :
    c' ∈ (group r).successes c ↔ ∃ mid ∈ r.successes c, c' =
      { mid with captured := some (c.after.take (c.after.length - mid.after.length)) } := by
  simp only [successes, List.mem_map, eq_comm]

/-- A success is a place further on in the same text. -/
structure Cursor.Reaches (c c' : Cursor α) (w : List α) : Prop where
  after_eq : c.after = w ++ c'.after
  before_eq : c'.before = w.reverse ++ c.before

lemma Cursor.Reaches.refl (c : Cursor α) : c.Reaches c [] := ⟨rfl, rfl⟩

lemma Cursor.Reaches.trans {c mid c' : Cursor α} {w v : List α} (h : c.Reaches mid w)
    (h' : mid.Reaches c' v) : c.Reaches c' (w ++ v) :=
  ⟨by rw [h.after_eq, h'.after_eq, List.append_assoc],
    by rw [h'.before_eq, h.before_eq, List.reverse_append, List.append_assoc]⟩

/-- The place behind a number of symbols. -/
def Cursor.advance (c : Cursor α) (w : List α) : Cursor α :=
  ⟨w.reverse ++ c.before, c.after.drop w.length, c.captured⟩

lemma Cursor.after_advance {c : Cursor α} {w t : List α} (h : c.after = w ++ t) :
    (c.advance w).after = t := by
  rw [advance, h, List.drop_left]

lemma Cursor.reaches_advance {c : Cursor α} {w t : List α} (h : c.after = w ++ t) :
    c.Reaches (c.advance w) w :=
  ⟨by rw [Cursor.after_advance h, h], rfl⟩

lemma Cursor.Reaches.eq_of_nil (h : c.Reaches c' []) (hcaptured : c'.captured = c.captured) : c' = c := by
  obtain ⟨before, after, captured⟩ := c
  obtain ⟨before', after', captured'⟩ := c'
  obtain ⟨hafter, hbefore⟩ := h
  simp_all

/-- What a group captures is the text that it matches. -/
lemma take_of_reaches {w : List α} (h : c.Reaches c' w) :
    c.after.take (c.after.length - c'.after.length) = w := by
  rw [h.after_eq, List.length_append, Nat.add_sub_cancel, List.take_left]

/-- Rounds of a symbol. -/
lemma rounds_symbol {n : ℕ} : Rounds (symbol accepts).successes n c c' ↔
      ∃ w, w.length = n ∧ (∀ a ∈ w, accepts a = true) ∧ c.Reaches c' w ∧
        c'.captured = c.captured := by
  induction n generalizing c with
  | zero =>
    constructor
    · rintro rfl
      exact ⟨[], rfl, by simp, .refl _, rfl⟩
    · rintro ⟨w, hw, -, hreach, hcaptured⟩
      obtain rfl := List.eq_nil_of_length_eq_zero hw
      exact hreach.eq_of_nil hcaptured
  | succ n ih =>
    constructor
    · rintro ⟨mid, hmid, hrest⟩
      obtain ⟨a, rest, hafter, ha, rfl⟩ := mem_successes_symbol.mp hmid
      obtain ⟨w, hw, hall, hreach, hcaptured⟩ := ih.mp hrest
      have hfirst : c.Reaches ⟨a :: c.before, rest, c.captured⟩ [a] := ⟨hafter, rfl⟩
      exact ⟨a :: w, by simp [hw], List.forall_mem_cons.mpr ⟨ha, hall⟩, hfirst.trans hreach,
        hcaptured⟩
    · rintro ⟨w, hw, hall, hreach, hcaptured⟩
      obtain ⟨a, w, rfl⟩ := List.exists_cons_of_length_eq_add_one hw
      obtain ⟨ha, hall⟩ := List.forall_mem_cons.mp hall
      have hafter : c.after = a :: (w ++ c'.after) := hreach.after_eq
      refine ⟨_, mem_successes_symbol.mpr ⟨a, _, hafter, ha, rfl⟩, ih.mpr ⟨w, by simpa using hw,
        hall, ⟨rfl, ?_⟩, hcaptured⟩⟩
      rw [hreach.before_eq]
      simp

/-- The successes of a repeated symbol. -/
theorem mem_successes_repeated_symbol {atLeast : ℕ} {atMost : Option ℕ} :
    c' ∈ (repeated (symbol accepts) atLeast atMost).successes c ↔
      ∃ w, atLeast ≤ w.length ∧ (∀ h ∈ atMost, w.length ≤ h) ∧ (∀ a ∈ w, accepts a = true) ∧
        c.Reaches c' w ∧ c'.captured = c.captured := by
  rw [successes, mem_iterate]
  constructor
  · rintro ⟨n, -, hleast, hmost, hrounds⟩
    obtain ⟨w, rfl, hall, hreach, hcaptured⟩ := rounds_symbol.mp hrounds
    exact ⟨w, hleast, hmost, hall, hreach, hcaptured⟩
  · rintro ⟨w, hleast, hmost, hall, hreach, hcaptured⟩
    have hfuel : w.length ≤ c.after.length := by
      rw [hreach.after_eq, List.length_append]
      omega
    exact ⟨w.length, hfuel, hleast, hmost, rounds_symbol.mpr ⟨w, rfl, hall, hreach, hcaptured⟩⟩

lemma mem_successes_literal [DecidableEq α] {word : List α} {c c' : Cursor α} :
    c' ∈ (literal word).successes c ↔ c.Reaches c' word ∧ c'.captured = c.captured := by
  induction word generalizing c with
  | nil =>
    rw [literal, mem_successes_empty]
    constructor
    · rintro rfl
      exact ⟨.refl _, rfl⟩
    · rintro ⟨hreach, hcaptured⟩
      exact hreach.eq_of_nil hcaptured
  | cons a word ih =>
    rw [literal, mem_successes_seq]
    constructor
    · rintro ⟨mid, hmid, hrest⟩
      obtain ⟨b, rest, hafter, hb, rfl⟩ := mem_successes_symbol.mp hmid
      obtain rfl : b = a := of_decide_eq_true hb
      obtain ⟨hreach, hcaptured⟩ := ih.mp hrest
      have hfirst : c.Reaches ⟨b :: c.before, rest, c.captured⟩ [b] := ⟨hafter, rfl⟩
      exact ⟨hfirst.trans hreach, hcaptured⟩
    · rintro ⟨hreach, hcaptured⟩
      have hafter : c.after = a :: (word ++ c'.after) := hreach.after_eq
      refine ⟨_, mem_successes_symbol.mpr ⟨a, _, hafter, by simp, rfl⟩, ih.mpr ⟨⟨rfl, ?_⟩,
        hcaptured⟩⟩
      rw [hreach.before_eq]
      simp

/-! ## The pieces of a text -/

/-- An expression that matches no empty text. -/
def Consumes (r : Regex α) : Prop :=
  ∀ c, ∀ c' ∈ r.successes c, c'.after.length < c.after.length

lemma mem_successes_of_find {before after : List α} {c : Cursor α} (h : r.find before after = some c) :
    c ∈ r.successes ⟨before, after, none⟩ :=
  List.mem_of_mem_head? h

/-- More fuel than symbols changes nothing. -/
lemma scan_of_le (hr : r.Consumes) {fuel more : ℕ} {before after : List α}
    (hfuel : after.length ≤ fuel) (hmore : after.length ≤ more) :
    r.scan fuel before after = r.scan more before after := by
  induction fuel generalizing more before after with
  | zero =>
    obtain rfl := List.eq_nil_of_length_eq_zero (Nat.le_zero.mp hfuel)
    cases more <;> rfl
  | succ fuel ih =>
    cases after with
    | nil => cases more <;> rfl
    | cons a rest =>
      obtain ⟨more, rfl⟩ := Nat.exists_eq_add_of_le' (Nat.one_le_of_lt hmore)
      simp only [List.length_cons] at hfuel hmore
      rw [scan, scan]
      cases hfind : r.find before (a :: rest) with
      | none =>
        simp only
        rw [ih (by omega) (show rest.length ≤ more by omega)]
      | some c =>
        have hless := hr _ c (mem_successes_of_find hfind)
        simp only [List.length_cons] at hless
        simp only
        rw [ih (by omega) (show c.after.length ≤ more by omega)]

/-- The pieces of the text behind a place. -/
def piecesFrom (r : Regex α) (before after : List α) : List (α ⊕ Found α) :=
  r.scan after.length before after

lemma piecesFrom_nil (r : Regex α) (before : List α) : r.piecesFrom before [] = [] := rfl

lemma piecesFrom_cons_of_none {before rest : List α} {a : α} (h : r.find before (a :: rest) = none) :
    r.piecesFrom before (a :: rest) = .inl a :: r.piecesFrom (a :: before) rest := by
  rw [piecesFrom, List.length_cons, scan, h]
  rfl

lemma piecesFrom_of_some (hr : r.Consumes) {before after w : List α} {c : Cursor α}
    (h : r.find before after = some c) (hafter : after = w ++ c.after) :
    r.piecesFrom before after = .inr ⟨w, c.captured⟩ :: r.piecesFrom c.before c.after := by
  have hless := hr _ c (mem_successes_of_find h)
  cases after with
  | nil => exact absurd hless (Nat.not_lt_zero _)
  | cons a rest =>
    simp only [List.length_cons] at hless
    rw [piecesFrom, List.length_cons, scan, h]
    simp only
    rw [scan_of_le hr (by omega) (Nat.le_refl c.after.length), piecesFrom]
    have htake : (a :: rest).take (rest.length + 1 - c.after.length) = w := by
      have hlen : rest.length + 1 = w.length + c.after.length := by
        rw [← List.length_append, ← hafter, List.length_cons]
      rw [hlen, Nat.add_sub_cancel, hafter, List.take_left]
    rw [htake]

/-! ## Words -/

section Words

variable [DecidableEq α] {word : List α}

lemma find_literal (word before after : List α) : (literal word).find before after =
    if word <+: after then some ⟨word.reverse ++ before, after.drop word.length, none⟩ else none := by
  induction word generalizing before after with
  | nil => simp [find, literal, successes]
  | cons a word ih =>
    cases after with
    | nil => simp [find, literal, successes]
    | cons b rest =>
      by_cases hab : b = a
      · subst hab
        have hstep := ih (b :: before) rest
        simp only [find] at hstep
        simp [find, literal, successes, hstep, List.cons_prefix_cons]
      · have hab' : a ≠ b := fun h => hab h.symm
        simp [find, literal, successes, hab, hab', List.cons_prefix_cons]

lemma consumes_literal (h : word ≠ []) : (literal word).Consumes := by
  intro c c' hc'
  obtain ⟨hreach, -⟩ := mem_successes_literal.mp hc'
  rw [hreach.after_eq, List.length_append]
  have := List.length_pos_iff.mpr h
  omega

/-- A word is found whatever stands before it. -/
lemma scan_literal (fuel : ℕ) (before before' after : List α) :
    (literal word).scan fuel before after = (literal word).scan fuel before' after := by
  induction fuel generalizing before before' after with
  | zero => rfl
  | succ fuel ih =>
    cases after with
    | nil => rfl
    | cons a rest =>
      rw [scan, scan, find_literal, find_literal]
      split_ifs
      · simp only
        rw [ih]
      · simp only
        rw [ih]

variable {by_ : Found α → List α}

/-- A word at the beginning is replaced. -/
theorem replaceAll_literal_append (h : word ≠ []) (rest : List α) :
    (literal word).replaceAll by_ (word ++ rest) =
      by_ ⟨word, none⟩ ++ (literal word).replaceAll by_ rest := by
  have hfind := find_literal word [] (word ++ rest)
  rw [if_pos (List.prefix_append ..), List.drop_left] at hfind
  have hpieces := piecesFrom_of_some (consumes_literal h) hfind rfl
  have hpieces' : (literal word).pieces (word ++ rest) =
      .inr ⟨word, none⟩ :: (literal word).pieces rest := by
    rw [pieces, ← piecesFrom, hpieces, pieces, piecesFrom]
    simp only
    rw [scan_literal]
  rw [replaceAll, hpieces', List.flatMap_cons]
  rfl

/-- A symbol that no word begins at stays. -/
theorem replaceAll_literal_cons {a : α} {rest : List α} (h : ¬word <+: a :: rest) :
    (literal word).replaceAll by_ (a :: rest) = a :: (literal word).replaceAll by_ rest := by
  have hfind := find_literal word [] (a :: rest)
  rw [if_neg h] at hfind
  have hpieces : (literal word).pieces (a :: rest) = .inl a :: (literal word).pieces rest := by
    rw [pieces, ← piecesFrom, piecesFrom_cons_of_none hfind, pieces, piecesFrom, scan_literal]
  rw [replaceAll, hpieces, List.flatMap_cons]
  rfl

end Words

end Regex

end ChittaField
