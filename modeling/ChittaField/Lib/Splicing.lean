import ChittaField.Lib.Json
import Mathlib.Tactic.SplitIfs

/-!
# Spliced JSON texts

A text that is put together from templates: objects whose fields are bare words and strings, where
the characters between the quotes of a string are spliced in as they are.  As long as every quote in
them stands behind a backslash (`Guarded`) and every key is an ordinary one (`IsKey`), such a text is
JSON exactly when each string by itself reads as one (`lex_rowsText`): what a string spills out of its
quotes never closes again.
-/

namespace Json

variable {m m' : Mode} {a b cs tail w body : List Char} {ts : List Token} {r : Reading}

/-! ## Scanning piece by piece -/

lemma scan_append (m : Mode) (a b : List Char) :
    scan m (a ++ b) = (scan m a).bind fun p => (scan p.2 b).map fun q => (p.1 ++ q.1, q.2) := by
  induction a generalizing m with
  | nil =>
    rw [List.nil_append, scan, Option.bind_some]
    exact (Option.map_id' (x := scan m b)).symm
  | cons c a ih =>
    rw [List.cons_append, scan, scan]
    cases step m c with
    | none => rfl
    | some p =>
      rw [Option.bind_some, Option.bind_some, ih]
      cases scan p.2 a with
      | none => rfl
      | some q =>
        rw [Option.bind_some, Option.map_some, Option.bind_some, Option.map_map]
        exact congrFun (congrArg _ (funext fun q' => by simp [List.append_assoc])) _

/-- A piece that scans to some tokens puts them in front. -/
lemma lex_append (h : scan m a = some (ts, m')) (b : List Char) :
    lex m (a ++ b) = (lex m' b).map (ts ++ ·) := by
  rw [lex, scan_append, h, Option.bind_some, lex]
  cases scan m' b with
  | none => rfl
  | some q =>
    rw [Option.map_some, Option.bind_some, Option.bind_some, Option.map_map]
    exact congrFun (congrArg _ (funext fun us => List.append_assoc ts q.1 us)) _

/-- Nothing follows a piece that does not scan. -/
lemma lex_append_of_none (h : scan m a = none) (b : List Char) : lex m (a ++ b) = none := by
  rw [lex, scan_append, h]
  rfl

variable {c : Char}

lemma lex_cons (h : step m c = some (ts, m')) (cs : List Char) :
    lex m (c :: cs) = (lex m' cs).map (ts ++ ·) := by
  have hscan : scan m [c] = some (ts, m') := by
    rw [scan, h, Option.bind_some, scan, Option.map_some, List.append_nil]
  exact lex_append hscan cs

lemma lex_cons_nil (h : step m c = some ([], m')) (cs : List Char) : lex m (c :: cs) = lex m' cs := by
  rw [lex_cons h]
  exact Option.map_id' (x := lex m' cs)

/-- A string that went wrong does not end. -/
lemma lex_bad (cs : List Char) : lex (.inside .bad) cs = none := by
  induction cs with
  | nil => rfl
  | cons c cs ih =>
    have hstep : step (.inside .bad) c = some ([], .inside .bad) := rfl
    rw [lex_cons_nil hstep, ih]

/-! ## Words -/

lemma ne_backslash_of_isDigit (h : c.isDigit = true) : c ≠ '\\' := by
  rintro rfl
  exact absurd h (by decide)

lemma not_mem_of_unsigned {signs : List Char} (hsigns : '\\' ∉ signs)
    (h : '\\' ∉ unsigned signs w) : '\\' ∉ w := by
  cases w with
  | nil => exact List.not_mem_nil
  | cons c w =>
    rw [unsigned] at h
    split at h
    · rename_i hsign
      intro hmem
      rcases List.mem_cons.mp hmem with rfl | hmem
      · exact hsigns hsign
      · exact h hmem
    · exact h

lemma not_mem_of_isExponent (h : isExponent w = true) : '\\' ∉ w := by
  cases w with
  | nil => exact List.not_mem_nil
  | cons e w =>
    simp only [isExponent, decide_eq_true_eq, List.all_eq_true] at h
    obtain ⟨he, -, hdigits⟩ := h
    have hw : '\\' ∉ w := not_mem_of_unsigned (by decide) fun hmem =>
      ne_backslash_of_isDigit (hdigits _ hmem) rfl
    intro hmem
    rcases List.mem_cons.mp hmem with rfl | hmem
    · rcases he with he | he <;> exact absurd he (by decide)
    · exact hw hmem

lemma not_mem_of_digits (h : '\\' ∉ w.dropWhile Char.isDigit) : '\\' ∉ w := by
  intro hmem
  rw [← List.takeWhile_append_dropWhile (p := Char.isDigit) (l := w)] at hmem
  rcases List.mem_append.mp hmem with hmem | hmem
  · exact ne_backslash_of_isDigit (List.all_eq_true.mp List.all_takeWhile _ hmem) rfl
  · exact h hmem

lemma not_mem_of_isFraction (h : isFraction w = true) : '\\' ∉ w := by
  unfold isFraction at h
  split at h
  · simp only [decide_eq_true_eq] at h
    intro hmem
    rcases List.mem_cons.mp hmem with heq | hmem
    · exact absurd heq (by decide)
    · exact not_mem_of_digits (not_mem_of_isExponent h.2) hmem
  · exact not_mem_of_isExponent h

/-- No word has a backslash. -/
lemma isWord_eq_false (h : '\\' ∈ w) : isWord w = false := by
  rw [isWord, decide_eq_false_iff_not]
  rintro (rfl | rfl | rfl | hnum)
  · exact absurd h (by decide)
  · exact absurd h (by decide)
  · exact absurd h (by decide)
  · simp only [isNumeral, decide_eq_true_eq] at hnum
    exact not_mem_of_unsigned (by decide) (not_mem_of_digits (not_mem_of_isFraction hnum.2)) h

lemma step_bare (w : List Char) (c : Char) : step (.bare w) c = some ([], .bare (w ++ [c])) ∨
    ∃ ts m, stepGap c = (ts, m) ∧ step (.bare w) c = if isWord w then some (.word w :: ts, m) else none := by
  rcases hgap : stepGap c with ⟨ts, m⟩
  cases m with
  | bare v => exact Or.inl (by simp only [step, hgap])
  | gap => exact Or.inr ⟨ts, .gap, rfl, by simp only [step, hgap]⟩
  | inside r => exact Or.inr ⟨ts, .inside r, rfl, by simp only [step, hgap]⟩

/-- A bare word with a backslash is none. -/
lemma lex_bare_eq_none (h : '\\' ∈ w) (cs : List Char) : lex (.bare w) cs = none := by
  induction cs generalizing w with
  | nil =>
    rw [lex, scan, Option.bind_some, finish, if_neg (by rw [isWord_eq_false h]; decide)]
    rfl
  | cons c cs ih =>
    rcases step_bare w c with hstep | ⟨ts, m, -, hstep⟩
    · rw [lex_cons_nil hstep]
      exact ih (List.mem_append_left _ h)
    · rw [if_neg (by rw [isWord_eq_false h]; decide)] at hstep
      rw [lex, scan, hstep]
      rfl

/-! ## Strings -/

/-- Every quote stands behind a backslash; the flag says that one stands in front. -/
def Guarded : Bool → List Char → Prop
  | _, [] => True
  | behind, c :: cs => (c = '"' → behind = true) ∧ Guarded (c = '\\') cs

/-- A text in which a string that is open never ends well. -/
def Derails (tail : List Char) : Prop := ∀ r, lex (.inside r) tail = none

lemma Guarded.weaken (h : Guarded false body) (behind : Bool) : Guarded behind body := by
  cases body with
  | nil => trivial
  | cons c body => exact ⟨fun hc => absurd (h.1 hc) Bool.false_ne_true, h.2⟩

lemma Guarded.take {behind : Bool} (h : Guarded behind body) (n : ℕ) :
    Guarded behind (body.take n) := by
  induction body generalizing behind n with
  | nil => rw [List.take_nil]; trivial
  | cons c body ih =>
    cases n with
    | zero => trivial
    | succ n => exact ⟨h.1, ih h.2 n⟩

lemma stepGap_backslash : stepGap '\\' = ([], .bare ['\\']) := by decide

lemma stepGap_inside (h : stepGap c = (ts, .inside r)) : c = '"' := by
  unfold stepGap at h
  split_ifs at h with hquote hblank
  · exact hquote
  · exact absurd (congrArg Prod.snd h) (by simp)
  · split at h <;> exact absurd (congrArg Prod.snd h) (by simp)

/-- A character that leaves the scanner outside of a string keeps a text from being scanned. -/
lemma lex_cons_outside (hbare : c ≠ '"' → ∀ w, lex (.bare w) cs = none)
    (hgap : lex (stepGap c).2 cs = none) :
    lex .gap (c :: cs) = none ∧ ∀ w, lex (.bare w) (c :: cs) = none := by
  refine ⟨?_, fun w => ?_⟩
  · have hstep : step .gap c = some ((stepGap c).1, (stepGap c).2) := rfl
    rw [lex_cons hstep, hgap, Option.map_none]
  · by_cases hc : c = '"'
    · subst hc
      have hquote : stepGap '"' = ([], .inside (.text [])) := rfl
      have hstep : step (.bare w) '"' =
          if isWord w then some ([.word w], .inside (.text [])) else none := rfl
      rw [hquote] at hgap
      split_ifs at hstep with hw
      · rw [lex_cons hstep, hgap, Option.map_none]
      · rw [lex, scan, hstep]
        rfl
    · rcases step_bare w c with hstep | ⟨ts, m, hm, hstep⟩
      · rw [lex_cons_nil hstep, hbare hc]
      · rw [hm] at hgap
        split_ifs at hstep
        · rw [lex_cons hstep, hgap, Option.map_none]
        · rw [lex, scan, hstep]
          rfl

/-- Outside of a string, what is guarded opens none, and the quote behind it opens one that never
ends well. -/
lemma lex_outside (hbody : Guarded false body) (htail : Derails tail) :
    lex .gap (body ++ '"' :: tail) = none ∧ ∀ w, lex (.bare w) (body ++ '"' :: tail) = none := by
  induction body with
  | nil => exact lex_cons_outside (fun h => absurd rfl h) (htail _)
  | cons c body ih =>
    obtain ⟨hquote, hrest⟩ := hbody
    have hc : c ≠ '"' := fun h => Bool.false_ne_true (hquote h)
    rw [List.cons_append]
    by_cases hback : c = '\\'
    · subst hback
      have hgap : step .gap '\\' = some ([], .bare ['\\']) := congrArg some stepGap_backslash
      refine ⟨?_, fun w => ?_⟩
      · rw [lex_cons_nil hgap, lex_bare_eq_none List.mem_cons_self]
      · have hbare : step (.bare w) '\\' = some ([], .bare (w ++ ['\\'])) := by
          simp only [step, stepGap_backslash]
        rw [lex_cons_nil hbare, lex_bare_eq_none (by simp)]
    · rw [decide_eq_false hback] at hrest
      obtain ⟨hgap, hbare⟩ := ih hrest
      refine lex_cons_outside (fun _ => hbare) ?_
      rcases hm : stepGap c with ⟨ts, m⟩
      cases m with
      | gap => exact hgap
      | bare w => exact hbare w
      | inside r => exact absurd (stepGap_inside hm) hc

/-- A guarded string is read as what it says by itself, and is no string if it does not end by
itself. -/
lemma lex_inside {behind : Bool} (hbody : Guarded behind body) (htail : Derails tail) (r : Reading) :
    lex (.inside r) (body ++ '"' :: tail) =
      (body.foldl Reading.step r).result.bind fun s => (lex .gap tail).map (.str s :: ·) := by
  induction body generalizing behind r with
  | nil =>
    rw [List.nil_append, List.foldl_nil]
    cases r with
    | text s =>
      have hstep : step (.inside (.text s)) '"' = some ([.str s], .gap) := rfl
      rw [lex_cons hstep]
      rfl
    | escape s => exact (lex_cons_nil rfl tail).trans (htail _)
    | hex => exact (lex_cons_nil rfl tail).trans (htail _)
    | surrogate s n => exact (lex_cons_nil rfl tail).trans (htail _)
    | surrogateEscape s n => exact (lex_cons_nil rfl tail).trans (htail _)
    | bad => exact (lex_cons_nil rfl tail).trans (htail _)
  | cons c body ih =>
    obtain ⟨-, hrest⟩ := hbody
    rw [List.cons_append, List.foldl_cons]
    by_cases hclose : c = '"' ∧ ∃ s, r = .text s
    · -- the string ends too early
      obtain ⟨rfl, s, rfl⟩ := hclose
      have hstep : step (.inside (.text s)) '"' = some ([.str s], .gap) := rfl
      have hbad : Reading.step (.text s) '"' = .bad := rfl
      rw [lex_cons hstep, (lex_outside hrest htail).1, hbad, Reading.foldl_bad]
      rfl
    · have hstep : step (.inside r) c = some ([], .inside (r.step c)) := by
        cases r with
        | text s =>
          have hc : c ≠ '"' := fun h => hclose ⟨h, s, rfl⟩
          simp only [step, if_neg hc]
        | escape s => rfl
        | hex => rfl
        | surrogate s n => rfl
        | surrogateEscape s n => rfl
        | bad => rfl
      rw [lex_cons_nil hstep, ih hrest]

/-! ## Objects and arrays -/

/-- An ordinary key: between quotes it is a key, and without the quote in front of it it is no
word. -/
structure IsKey (key : List Char) : Prop where
  quoted : scan .gap ('"' :: (key ++ ['"', ':'])) = some ([.str key, .colon], .gap)
  bare : scan .gap (key ++ ['"']) = none

/-- A field of a template: a bare word, or a string of which the characters between the quotes are
given. -/
inductive Field where
  | word (key w : List Char)
  | quoted (key body : List Char)

namespace Field

/-- The key. -/
def key : Field → List Char
  | .word key _ => key
  | .quoted key _ => key

/-- What is spliced in behind the key. -/
def filling : Field → List Char
  | .word _ w => w
  | .quoted _ body => '"' :: (body ++ ['"'])

/-- The field in the text. -/
def text (f : Field) : List Char := '"' :: (f.key ++ '"' :: ':' :: f.filling)

/-- The member that the field is, if what is spliced in reads as one. -/
def reading : Field → Option (List Char × Json)
  | .word key w => if isWord w then some (key, .word w) else none
  | .quoted key body => (decode body).map fun s => (key, .str s)

/-- The key is an ordinary one; a word is made of characters of words, and a string is guarded. -/
def Proper : Field → Prop
  | .word key w => IsKey key ∧ scan .gap w = some ([], .bare w)
  | .quoted key body => IsKey key ∧ Guarded false body

lemma Proper.isKey {f : Field} (h : f.Proper) : IsKey f.key := by
  cases f with
  | word key w => exact h.1
  | quoted => exact h.1

end Field

/-- The rest of an object behind a field. -/
def moreFields : List Field → List Char
  | [] => ['\x7d']
  | f :: fs => ',' :: (f.text ++ moreFields fs)

/-- An object of some fields. -/
def fieldsText : List Field → List Char
  | [] => ['\x7b', '\x7d']
  | f :: fs => '\x7b' :: (f.text ++ moreFields fs)

/-- The rest of an array behind an object. -/
def moreRows : List (List Field) → List Char
  | [] => [']']
  | fs :: rows => ',' :: (fieldsText fs ++ moreRows rows)

/-- An array of objects. -/
def rowsText : List (List Field) → List Char
  | [] => ['[', ']']
  | fs :: rows => '[' :: (fieldsText fs ++ moreRows rows)

lemma intercalate_append (fs : List Field) (rows : List (List Field)) :
    [','].intercalate ((fs :: rows).map fieldsText) ++ [']'] = fieldsText fs ++ moreRows rows := by
  induction rows generalizing fs with
  | nil => simp [List.intercalate, moreRows]
  | cons gs rows ih =>
    have hrest := ih gs
    rw [List.map_cons] at hrest ⊢
    rw [List.map_cons, List.intercalate_cons_cons, moreRows, ← hrest]
    simp

/-- The array is its objects with commas between them. -/
lemma rowsText_eq (rows : List (List Field)) :
    rowsText rows = '[' :: ([','].intercalate (rows.map fieldsText) ++ [']']) := by
  cases rows with
  | nil => rfl
  | cons => rw [intercalate_append, rowsText]

/-- The object that some fields are, if each of them reads as a member. -/
def objectOf (fs : List Field) : Option Json := (fs.mapM Field.reading).map .obj

/-- A mark that ends a value. -/
def Ends (c : Char) (t : Token) : Prop := mark c = some t ∧ (c = ',' ∨ c = '\x7d' ∨ c = ']')

variable {t : Token}

lemma Reading.step_ends (h : Ends c t) (r : Reading) : r.step c = .bad ∨ ∃ s, r.step c = .text s := by
  obtain ⟨-, rfl | rfl | rfl⟩ := h <;> cases r <;>
    first
    | exact Or.inl rfl
    | exact Or.inr ⟨_, rfl⟩

/-- Behind such a mark a string is still open, or is none. -/
lemma derails_cons (hc : Ends c t) (h : ∀ s, lex (.inside (.text s)) tail = none) :
    Derails (c :: tail) := by
  intro r
  have hne : c ≠ '"' := by
    rintro rfl
    obtain ⟨-, h | h | h⟩ := hc <;> exact absurd h (by decide)
  have hstep : step (.inside r) c = some ([], .inside (r.step c)) := by
    cases r with
    | text s => simp only [step, if_neg hne]
    | escape s => rfl
    | hex => rfl
    | surrogate s n => rfl
    | surrogateEscape s n => rfl
    | bad => rfl
  rw [lex_cons_nil hstep]
  rcases Reading.step_ends hc r with hbad | ⟨s, hs⟩
  · rw [hbad, lex_bad]
  · rw [hs, h]

lemma stepGap_ends (hc : Ends c t) : stepGap c = ([t], .gap) := by
  obtain ⟨hmark, rfl | rfl | rfl⟩ := hc <;> · cases hmark; rfl

lemma lex_gap_ends (hc : Ends c t) (tail : List Char) :
    lex .gap (c :: tail) = (lex .gap tail).map (t :: ·) := by
  have hstep : step .gap c = some ([t], .gap) := congrArg some (stepGap_ends hc)
  rw [lex_cons hstep]
  rfl

lemma lex_bare_ends (hc : Ends c t) (w tail : List Char) : lex (.bare w) (c :: tail) =
      if isWord w then (lex .gap (c :: tail)).map (.word w :: ·) else none := by
  have hstep : step (.bare w) c = if isWord w then some ([.word w, t], .gap) else none := by
    simp only [step, stepGap_ends hc]
  split_ifs at hstep ⊢ with hw
  · rw [lex_cons hstep, lex_gap_ends hc, Option.map_map]
    rfl
  · rw [lex, scan, hstep]
    rfl

/-- Behind a mark that ends a value, a key leaves a string open for good. -/
lemma derails_key (hc : Ends c t) {key : List Char} (hkey : IsKey key) (rest tail : List Char) :
    Derails (c :: ('"' :: (key ++ '"' :: rest) ++ tail)) := by
  refine derails_cons hc fun s => ?_
  have hstep : step (.inside (.text s)) '"' = some ([.str s], .gap) := rfl
  have hassoc : key ++ '"' :: rest ++ tail = (key ++ ['"']) ++ (rest ++ tail) := by simp
  rw [List.cons_append, lex_cons hstep, hassoc, lex_append_of_none hkey.bare, Option.map_none]

variable {f : Field} {fs : List Field} {rows : List (List Field)}

/-- A field is the member that it reads as. -/
lemma lex_field (hf : f.Proper) (hc : Ends c t) (htail : Derails (c :: tail)) :
    lex .gap (f.text ++ c :: tail) = f.reading.bind fun p =>
      (lex .gap (c :: tail)).map fun ts => .str p.1 :: .colon :: (p.2.tokens ++ ts) := by
  have hassoc : f.text ++ c :: tail = '"' :: (f.key ++ ['"', ':']) ++ (f.filling ++ c :: tail) := by
    simp [Field.text]
  rw [hassoc, lex_append hf.isKey.quoted]
  cases f with
  | word key w =>
    rw [Field.filling, lex_append hf.2, lex_bare_ends hc, Field.reading]
    split_ifs
    · rw [Option.bind_some, Option.map_map, Option.map_map]
      rfl
    · rfl
  | quoted key body =>
    have hquote : step .gap '"' = some ([], .inside (.text [])) := rfl
    have hopen : ('"' :: (body ++ ['"'])) ++ c :: tail = '"' :: (body ++ '"' :: c :: tail) := by simp
    rw [Field.filling, hopen, lex_cons_nil hquote, lex_inside hf.2 htail, Field.reading, decode]
    cases (body.foldl Reading.step (.text [])).result with
    | none => rfl
    | some s =>
      rw [Option.map_some, Option.bind_some, Option.bind_some, Option.map_map]
      rfl

lemma ends_comma : Ends ',' .comma := ⟨rfl, Or.inl rfl⟩

lemma ends_closeBrace : Ends '\x7d' .closeBrace := ⟨rfl, Or.inr (Or.inl rfl)⟩

lemma ends_closeBracket : Ends ']' .closeBracket := ⟨rfl, Or.inr (Or.inr rfl)⟩

/-- What follows a field begins with a mark and leaves a string open for good. -/
lemma moreFields_append (hfs : ∀ f ∈ fs, f.Proper) (htail : Derails ('\x7d' :: tail)) :
    ∃ c t rest, moreFields fs ++ tail = c :: rest ∧ Ends c t ∧ Derails (c :: rest) := by
  cases fs with
  | nil => exact ⟨_, _, _, rfl, ends_closeBrace, htail⟩
  | cons f fs =>
    refine ⟨',', _, _, rfl, ends_comma, ?_⟩
    have hassoc : f.text ++ moreFields fs ++ tail =
        '"' :: (f.key ++ '"' :: (':' :: f.filling)) ++ (moreFields fs ++ tail) := by
      simp [Field.text]
    change Derails (',' :: (f.text ++ moreFields fs ++ tail))
    rw [hassoc]
    exact derails_key ends_comma (hfs f List.mem_cons_self).isKey _ _

/-- The fields behind a field are the members that they read as. -/
lemma lex_moreFields (hfs : ∀ f ∈ fs, f.Proper) (htail : Derails ('\x7d' :: tail)) :
    lex .gap (moreFields fs ++ tail) =
      (fs.mapM Field.reading).bind fun ms => (lex .gap tail).map (moreMemberTokens ms ++ ·) := by
  induction fs with
  | nil => exact lex_gap_ends ends_closeBrace tail
  | cons f fs ih =>
    have hrest : ∀ f ∈ fs, f.Proper := (List.forall_mem_cons.mp hfs).2
    obtain ⟨c, t, rest, heq, hc, hderails⟩ := moreFields_append hrest htail
    rw [moreFields, List.cons_append, lex_gap_ends ends_comma, List.append_assoc, heq,
      lex_field (hfs f List.mem_cons_self) hc hderails, ← heq, ih hrest, List.mapM_cons]
    cases f.reading with
    | none => rfl
    | some p =>
      rw [Option.bind_some, Option.bind_eq_bind, Option.bind_some]
      cases fs.mapM Field.reading with
      | none => rfl
      | some ms =>
        simp [moreMemberTokens, Function.comp_def]

/-- An object is the members that its fields read as. -/
lemma lex_fieldsText (hfs : ∀ f ∈ fs, f.Proper) (htail : Derails ('\x7d' :: tail)) :
    lex .gap (fieldsText fs ++ tail) =
      (objectOf fs).bind fun v => (lex .gap tail).map (v.tokens ++ ·) := by
  have hopen : step .gap '\x7b' = some ([.openBrace], .gap) := rfl
  cases fs with
  | nil =>
    rw [fieldsText, List.cons_append, lex_cons hopen, List.cons_append, List.nil_append,
      lex_gap_ends ends_closeBrace, Option.map_map]
    rfl
  | cons f fs =>
    have hrest : ∀ f ∈ fs, f.Proper := (List.forall_mem_cons.mp hfs).2
    obtain ⟨c, t, rest, heq, hc, hderails⟩ := moreFields_append hrest htail
    rw [fieldsText, List.cons_append, lex_cons hopen, List.append_assoc, heq,
      lex_field (hfs f List.mem_cons_self) hc hderails, ← heq, lex_moreFields hrest htail, objectOf,
      List.mapM_cons]
    cases f.reading with
    | none => rfl
    | some p =>
      rw [Option.bind_some, Option.bind_eq_bind, Option.bind_some]
      cases fs.mapM Field.reading with
      | none => rfl
      | some ms =>
        simp [tokens, memberTokens, Function.comp_def]

/-- An array in which what follows the last object does not close a string. -/
def Closing (tail : List Char) : Prop := ∀ s, lex (.inside (.text s)) (']' :: tail) = none

/-- What follows an object in an array leaves a string open for good. -/
lemma derails_moreRows (hrows : ∀ fs ∈ rows, fs ≠ [] ∧ ∀ f ∈ fs, f.Proper) (htail : Closing tail) :
    Derails ('\x7d' :: (moreRows rows ++ tail)) := by
  cases rows with
  | nil => exact derails_cons ends_closeBrace htail
  | cons fs rows =>
    obtain ⟨hne, hproper⟩ := hrows fs List.mem_cons_self
    obtain ⟨f, gs, rfl⟩ := List.exists_cons_of_ne_nil hne
    refine derails_cons ends_closeBrace fun s => ?_
    have hcomma : step (.inside (.text s)) ',' = some ([], .inside (.text (s ++ [',']))) := rfl
    have hbrace : step (.inside (.text (s ++ [',']))) '\x7b' =
        some ([], .inside (.text (s ++ [','] ++ ['\x7b']))) := rfl
    have hquote : ∀ s, step (.inside (.text s)) '"' = some ([.str s], .gap) := fun s => rfl
    have hassoc : f.text ++ moreFields gs ++ moreRows rows ++ tail =
        '"' :: ((f.key ++ ['"']) ++ (':' :: f.filling ++ moreFields gs ++ moreRows rows ++ tail)) := by
      simp [Field.text]
    rw [moreRows, fieldsText, List.cons_append, lex_cons_nil hcomma, List.cons_append,
      List.cons_append, lex_cons_nil hbrace, hassoc, lex_cons (hquote _),
      lex_append_of_none (hproper f List.mem_cons_self).isKey.bare, Option.map_none]

/-- The objects behind an object are the items that they read as. -/
lemma lex_moreRows (hrows : ∀ fs ∈ rows, fs ≠ [] ∧ ∀ f ∈ fs, f.Proper) (htail : Closing tail) :
    lex .gap (moreRows rows ++ tail) =
      (rows.mapM objectOf).bind fun vs => (lex .gap tail).map (moreItemTokens vs ++ ·) := by
  induction rows with
  | nil => exact lex_gap_ends ends_closeBracket tail
  | cons fs rows ih =>
    have hrest : ∀ fs ∈ rows, fs ≠ [] ∧ ∀ f ∈ fs, f.Proper :=
      (List.forall_mem_cons.mp hrows).2
    rw [moreRows, List.cons_append, lex_gap_ends ends_comma, List.append_assoc,
      lex_fieldsText (hrows fs List.mem_cons_self).2 (derails_moreRows hrest htail), ih hrest,
      List.mapM_cons]
    cases objectOf fs with
    | none => rfl
    | some v =>
      rw [Option.bind_some, Option.bind_eq_bind, Option.bind_some]
      cases rows.mapM objectOf with
      | none => rfl
      | some vs => simp [moreItemTokens, Function.comp_def]

/-- **An array of spliced objects.**  It is scanned as the items that its objects read as, and not
at all if one of them does not read as an object. -/
theorem lex_rowsText (hrows : ∀ fs ∈ rows, fs ≠ [] ∧ ∀ f ∈ fs, f.Proper) (htail : Closing tail) :
    lex .gap (rowsText rows ++ tail) =
      (rows.mapM objectOf).bind fun vs => (lex .gap tail).map ((Json.arr vs).tokens ++ ·) := by
  have hopen : step .gap '[' = some ([.openBracket], .gap) := rfl
  cases rows with
  | nil =>
    rw [rowsText, List.cons_append, lex_cons hopen, List.cons_append, List.nil_append,
      lex_gap_ends ends_closeBracket, Option.map_map]
    rfl
  | cons fs rows =>
    have hrest : ∀ fs ∈ rows, fs ≠ [] ∧ ∀ f ∈ fs, f.Proper :=
      (List.forall_mem_cons.mp hrows).2
    rw [rowsText, List.cons_append, lex_cons hopen, List.append_assoc,
      lex_fieldsText (hrows fs List.mem_cons_self).2 (derails_moreRows hrest htail),
      lex_moreRows hrest htail, List.mapM_cons]
    cases objectOf fs with
    | none => rfl
    | some v =>
      rw [Option.bind_some, Option.bind_eq_bind, Option.bind_some]
      cases rows.mapM objectOf with
      | none => rfl
      | some vs => simp [tokens, itemTokens, Function.comp_def]

end Json
