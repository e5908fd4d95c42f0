import ChittaField.Spans.Atoms

/-!
# Captured commands

A transcript names a command as a string of JSON.  The extractor captures the string as it is
written and decodes it by four replacements, one after the other.

`commands_verbatim_iff` says which commands come back, with their line ends and tabs as spaces: those
that are not empty, have no control character but line ends and tabs, and have no backslash before an
`n` or a `t`.
-/

namespace ChittaField.Spans

/-! ## Strings of JSON -/

/-- A digit of a hexadecimal number. -/
def hexDigit (n : ℕ) : Char := Char.ofNat (if n < 10 then 48 + n else 87 + n)

/-- A character in a string of JSON. -/
def escapeChar (c : Char) : Text :=
  if c = '"' then ['\\', '"']
  else if c = '\\' then ['\\', '\\']
  else if c = '\n' then ['\\', 'n']
  else if c = '\t' then ['\\', 't']
  else if c = '\r' then ['\\', 'r']
  else if c.toNat = 8 then ['\\', 'b']
  else if c.toNat = 12 then ['\\', 'f']
  else if c.toNat < 32 then ['\\', 'u', '0', '0', hexDigit (c.toNat / 16), hexDigit (c.toNat % 16)]
  else [c]

/-- A text as a string of JSON has it, without the quotes. -/
def jsonEscape (t : Text) : Text := t.flatMap escapeChar

/-- A text with spaces for its line ends and tabs. -/
def spaced (t : Text) : Text := t.map fun c => if c = '\n' ∨ c = '\t' then ' ' else c

/-! ## Decoding -/

/-- A control character that is neither a line end nor a tab. -/
def Control (c : Char) : Prop := c.toNat < 32 ∧ c ≠ '\n' ∧ c ≠ '\t'

instance (c : Char) : Decidable (Control c) := inferInstanceAs (Decidable (_ ∧ _))

/-- What comes back of a text, where a backslash may stand before it. -/
def heard : Bool → Text → Text
  | _, [] => []
  | backslash, c :: t =>
    (if c = '\n' ∨ c = '\t' ∨ (backslash ∧ (c = 'n' ∨ c = 't')) then [' ']
      else if Control c then escapeChar c else [c]) ++ heard (c = '\\') t

/-- The strings of JSON, with the quotes decoded. -/
def unquoted (t : Text) : Text := t.flatMap fun c => if c = '"' then ['"'] else escapeChar c

/-- The two replacements of line ends and tabs. -/
def unspaced (t : Text) : Text := replace (replace t ['\\', 'n'] [' ']) ['\\', 't'] [' ']

/-- The replacement of backslashes. -/
def unslashed (t : Text) : Text := replace t ['\\', '\\'] ['\\']

section Replacing

variable {a b x : Char} {by_ t : Text}

lemma replace_pair : replace (a :: b :: t) [a, b] by_ = by_ ++ replace t [a, b] by_ :=
  Regex.replaceAll_literal_append (show [a, b] ≠ [] by simp) t

lemma replace_other (h : x ≠ a) : replace (x :: t) [a, b] by_ = x :: replace t [a, b] by_ :=
  Regex.replaceAll_literal_cons fun hprefix => h (List.cons_prefix_cons.mp hprefix).1.symm

lemma replace_alone (h : t.head? ≠ some b) :
    replace (x :: t) [a, b] by_ = x :: replace t [a, b] by_ := by
  refine Regex.replaceAll_literal_cons fun hprefix => h ?_
  obtain ⟨rest, hrest⟩ := (List.cons_prefix_cons.mp hprefix).2
  rw [← hrest]
  rfl

lemma replace_others {w : Text} (h : ∀ x ∈ w, x ≠ a) :
    replace (w ++ t) [a, b] by_ = w ++ replace t [a, b] by_ := by
  induction w with
  | nil => rfl
  | cons x w ih =>
    obtain ⟨hx, hw⟩ := List.forall_mem_cons.mp h
    rw [List.cons_append, replace_other hx, ih hw, List.cons_append]

end Replacing

/-- The characters by what a string of JSON has for them. -/
lemma escapeChar_cases (c : Char) : c = '"' ∨ c = '\\' ∨ c = '\n' ∨ c = '\t' ∨
    (Control c ∧ ∃ x more, escapeChar c = '\\' :: x :: more ∧ x ≠ '"' ∧ x ≠ '\\' ∧ x ≠ 'n' ∧ x ≠ 't' ∧
      ∀ y ∈ more, y ≠ '"' ∧ y ≠ '\\') ∨
    (¬Control c ∧ c ≠ '"' ∧ c ≠ '\\' ∧ c ≠ '\n' ∧ c ≠ '\t' ∧ escapeChar c = [c]) := by
  by_cases hquote : c = '"'
  · exact Or.inl hquote
  by_cases hslash : c = '\\'
  · exact Or.inr (Or.inl hslash)
  by_cases hline : c = '\n'
  · exact Or.inr (Or.inr (Or.inl hline))
  by_cases htab : c = '\t'
  · exact Or.inr (Or.inr (Or.inr (Or.inl htab)))
  right; right; right; right
  by_cases hcontrol : c.toNat < 32
  · left
    refine ⟨⟨hcontrol, hline, htab⟩, ?_⟩
    have hdigit : ∀ n < 16, hexDigit n ≠ '"' ∧ hexDigit n ≠ '\\' := by decide
    unfold escapeChar
    rw [if_neg hquote, if_neg hslash, if_neg hline, if_neg htab]
    split_ifs
    · exact ⟨_, _, rfl, by decide, by decide, by decide, by decide, by simp⟩
    · exact ⟨_, _, rfl, by decide, by decide, by decide, by decide, by simp⟩
    · exact ⟨_, _, rfl, by decide, by decide, by decide, by decide, by simp⟩
    · refine ⟨_, _, rfl, by decide, by decide, by decide, by decide, ?_⟩
      have hhigh := hdigit (c.toNat / 16) (by omega)
      have hlow := hdigit (c.toNat % 16) (by omega)
      simp [hhigh, hlow]
  · right
    refine ⟨fun h => hcontrol h.1, hquote, hslash, hline, htab, ?_⟩
    have hreturn : c ≠ '\r' := fun h => hcontrol (h ▸ by decide)
    have h8 : c.toNat ≠ 8 := by omega
    have h12 : c.toNat ≠ 12 := by omega
    simp [escapeChar, hquote, hslash, hline, htab, hreturn, h8, h12, hcontrol]

lemma jsonEscape_cons (c : Char) (t : Text) : jsonEscape (c :: t) = escapeChar c ++ jsonEscape t :=
  List.flatMap_cons

/-- No string of JSON begins with a quote. -/
lemma head_jsonEscape (t : Text) : (jsonEscape t).head? ≠ some '"' := by
  cases t with
  | nil => simp [jsonEscape]
  | cons c t =>
    rw [jsonEscape_cons]
    rcases escapeChar_cases c with rfl | rfl | rfl | rfl | ⟨-, x, more, hescape, -⟩ |
      ⟨-, hquote, -, -, -, hescape⟩
    · simp [escapeChar]
    · simp [escapeChar]
    · simp [escapeChar]
    · simp [escapeChar]
    · simp [hescape]
    · simp [hescape, hquote]

/-- The first replacement decodes the quotes and nothing else. -/
lemma replace_quotes (t : Text) : replace (jsonEscape t) ['\\', '"'] ['"'] = unquoted t := by
  induction t with
  | nil => rfl
  | cons c t ih =>
    have hstep : unquoted (c :: t) = (if c = '"' then ['"'] else escapeChar c) ++ unquoted t :=
      List.flatMap_cons
    rw [jsonEscape_cons, hstep]
    rcases escapeChar_cases c with rfl | rfl | rfl | rfl | ⟨-, x, more, hescape, hq, hs, -, -, hmore⟩ |
      ⟨-, hquote, hslash, -, -, hescape⟩
    · change replace ('\\' :: '"' :: jsonEscape t) _ _ = _
      rw [replace_pair, ih]
      rfl
    · change replace ('\\' :: '\\' :: jsonEscape t) _ _ = _
      rw [replace_alone (by simp), replace_alone (head_jsonEscape t), ih]
      rfl
    · change replace ('\\' :: 'n' :: jsonEscape t) _ _ = _
      rw [replace_alone (by simp), replace_other (by decide), ih]
      rfl
    · change replace ('\\' :: 't' :: jsonEscape t) _ _ = _
      rw [replace_alone (by simp), replace_other (by decide), ih]
      rfl
    · have hne : c ≠ '"' := by
        rintro rfl
        simp [escapeChar] at hescape
        exact hq hescape.1.symm
      rw [if_neg hne, hescape, List.cons_append, List.cons_append, replace_alone (by simp [hq]),
        replace_other hs, replace_others fun y hy => (hmore y hy).2, ih]
      rfl
    · rw [if_neg hquote, hescape, List.singleton_append, replace_other hslash, ih]
      rfl

section Steps

variable {x : Char} {t : Text}

lemma unspaced_other (h : x ≠ '\\') : unspaced (x :: t) = x :: unspaced t := by
  rw [unspaced, replace_other h, replace_other h, unspaced]

lemma unspaced_others {w : Text} (h : ∀ x ∈ w, x ≠ '\\') : unspaced (w ++ t) = w ++ unspaced t := by
  rw [unspaced, replace_others h, replace_others h, unspaced]

lemma unspaced_line : unspaced ('\\' :: 'n' :: t) = ' ' :: unspaced t := by
  rw [unspaced, replace_pair, List.singleton_append, replace_other (by decide), unspaced]

lemma unspaced_tab : unspaced ('\\' :: 't' :: t) = ' ' :: unspaced t := by
  rw [unspaced, replace_alone (by simp), replace_other (show 't' ≠ '\\' by decide), replace_pair,
    unspaced, List.singleton_append]

lemma unspaced_slash (hslash : x ≠ '\\') (hn : x ≠ 'n') (ht : x ≠ 't') :
    unspaced ('\\' :: x :: t) = '\\' :: x :: unspaced t := by
  rw [unspaced, replace_alone (by simp [hn]), replace_other hslash, replace_alone (by simp [ht]),
    replace_other hslash, unspaced]

/-- A backslash before a backslash is no part of an escaped line end or tab. -/
lemma unspaced_slashes : unspaced ('\\' :: '\\' :: t) = '\\' :: unspaced ('\\' :: t) := by
  have hhead : (replace ('\\' :: t) ['\\', 'n'] [' ']).head? ≠ some 't' := by
    by_cases hn : t.head? = some 'n'
    · obtain ⟨t', rfl⟩ := List.head?_eq_some_iff.mp hn
      rw [replace_pair]
      simp
    · rw [replace_alone hn]
      simp
  rw [unspaced, replace_alone (by simp), replace_alone hhead, unspaced]

lemma unslashed_other (h : x ≠ '\\') : unslashed (x :: t) = x :: unslashed t := replace_other h

lemma unslashed_others {w : Text} (h : ∀ x ∈ w, x ≠ '\\') :
    unslashed (w ++ t) = w ++ unslashed t := replace_others h

lemma unslashed_pair : unslashed ('\\' :: '\\' :: t) = '\\' :: unslashed t := replace_pair

lemma unslashed_alone (h : t.head? ≠ some '\\') : unslashed ('\\' :: t) = '\\' :: unslashed t :=
  replace_alone h

end Steps

/-- What the last three replacements make of a text, also behind a backslash of which one of two is
still to come. -/
lemma unslashed_unspaced (t : Text) :
    unslashed (unspaced (unquoted t)) = heard false t ∧
      unslashed ('\\' :: unspaced ('\\' :: unquoted t)) = '\\' :: heard true t := by
  induction t with
  | nil => exact ⟨rfl, rfl⟩
  | cons c t ih =>
    obtain ⟨hplain, hbehind⟩ := ih
    have hstep : unquoted (c :: t) = (if c = '"' then ['"'] else escapeChar c) ++ unquoted t :=
      List.flatMap_cons
    rw [hstep]
    rcases escapeChar_cases c with rfl | rfl | rfl | rfl |
      ⟨hcontrol, x, more, hescape, hq, hs, hn, ht, hmore⟩ | ⟨hcontrol, hquote, hslash, hline, htab, hescape⟩
    · change unslashed (unspaced ('"' :: unquoted t)) = _ ∧
        unslashed ('\\' :: unspaced ('\\' :: '"' :: unquoted t)) = _
      rw [unspaced_other (by decide), unslashed_other (by decide), hplain,
        unspaced_slash (by decide) (by decide) (by decide), unslashed_pair,
        unslashed_other (by decide), hplain]
      exact ⟨rfl, rfl⟩
    · change unslashed (unspaced ('\\' :: '\\' :: unquoted t)) = _ ∧
        unslashed ('\\' :: unspaced ('\\' :: '\\' :: '\\' :: unquoted t)) = _
      rw [unspaced_slashes, hbehind, unspaced_slashes, unspaced_slashes, unslashed_pair, hbehind]
      exact ⟨rfl, rfl⟩
    · change unslashed (unspaced ('\\' :: 'n' :: unquoted t)) = _ ∧
        unslashed ('\\' :: unspaced ('\\' :: '\\' :: 'n' :: unquoted t)) = _
      rw [unspaced_line, unslashed_other (by decide), hplain, unspaced_slashes, unspaced_line,
        unslashed_pair, unslashed_other (by decide), hplain]
      exact ⟨rfl, rfl⟩
    · change unslashed (unspaced ('\\' :: 't' :: unquoted t)) = _ ∧
        unslashed ('\\' :: unspaced ('\\' :: '\\' :: 't' :: unquoted t)) = _
      rw [unspaced_tab, unslashed_other (by decide), hplain, unspaced_slashes, unspaced_tab,
        unslashed_pair, unslashed_other (by decide), hplain]
      exact ⟨rfl, rfl⟩
    · have hquote : c ≠ '"' := fun h => absurd hcontrol.1 (h ▸ by decide)
      have hslash : c ≠ '\\' := fun h => absurd hcontrol.1 (h ▸ by decide)
      have hletter : ∀ b : Bool, ¬(c = '\n' ∨ c = '\t' ∨ (b = true ∧ (c = 'n' ∨ c = 't'))) := by
        rintro b (h | h | ⟨-, h | h⟩)
        · exact hcontrol.2.1 h
        · exact hcontrol.2.2 h
        · exact absurd hcontrol.1 (h ▸ by decide)
        · exact absurd hcontrol.1 (h ▸ by decide)
      have hmore' : ∀ y ∈ more, y ≠ '\\' := fun y hy => (hmore y hy).2
      have hheard : ∀ b, heard b (c :: t) = '\\' :: x :: (more ++ heard false t) := by
        intro b
        rw [heard, if_neg (hletter b), if_pos hcontrol, hescape, decide_eq_false hslash]
        rfl
      rw [if_neg hquote, hescape, hheard, hheard, List.cons_append, List.cons_append,
        unspaced_slash hs hn ht, unspaced_others hmore', unslashed_alone (by simp [hs]),
        unslashed_other hs, unslashed_others hmore', hplain, unspaced_slashes,
        unspaced_slash hs hn ht, unspaced_others hmore', unslashed_pair,
        unslashed_alone (by simp [hs]), unslashed_other hs, unslashed_others hmore', hplain]
      exact ⟨rfl, rfl⟩
    · have hheard : ∀ b, heard b (c :: t) =
          (if b = true ∧ (c = 'n' ∨ c = 't') then ' ' else c) :: heard false t := by
        intro b
        rw [heard, if_neg hcontrol, decide_eq_false hslash]
        by_cases hb : b = true ∧ (c = 'n' ∨ c = 't') <;> simp [hb, hline, htab]
      rw [if_neg hquote, hescape, hheard, hheard, List.singleton_append, unspaced_other hslash,
        unslashed_other hslash, hplain]
      refine ⟨by simp, ?_⟩
      by_cases hn : c = 'n'
      · subst hn
        rw [unspaced_line, unslashed_alone (by simp), unslashed_other (by decide), hplain]
        simp
      · by_cases ht : c = 't'
        · subst ht
          rw [unspaced_tab, unslashed_alone (by simp), unslashed_other (by decide), hplain]
          simp
        · rw [unspaced_slash hslash hn ht, unslashed_pair, unslashed_other hslash, hplain]
          simp [hn, ht]

/-- What comes back of a string of JSON. -/
theorem unescapeJson_jsonEscape (t : Text) : unescapeJson (jsonEscape t) = heard false t := by
  rw [← (unslashed_unspaced t).1, ← replace_quotes]
  rfl

/-! ## Commands that come back -/

/-- No control characters but line ends and tabs, and no backslash before an `n` or a `t`. -/
structure Verbatim (t : Text) : Prop where
  controls : ∀ c ∈ t, ¬Control c
  no_slash_n : ¬['\\', 'n'] <:+: t
  no_slash_t : ¬['\\', 't'] <:+: t

lemma length_le_heard (b : Bool) (t : Text) : t.length ≤ (heard b t).length := by
  induction t generalizing b with
  | nil => exact Nat.zero_le _
  | cons c t ih =>
    have hrest := ih (c = '\\')
    have hone : 1 ≤ (escapeChar c).length := by
      unfold escapeChar
      split_ifs <;> simp
    rw [heard, List.length_append, List.length_cons]
    split_ifs
    · simp only [List.length_singleton]
      omega
    · omega
    · simp only [List.length_singleton]
      omega

/-- A text comes back as it is, behind a backslash or not, iff this holds of its characters. -/
lemma heard_eq_spaced (b : Bool) (t : Text) : heard b t = spaced t ↔
    Verbatim t ∧ (b = true → t.head? ≠ some 'n' ∧ t.head? ≠ some 't') := by
  induction t generalizing b with
  | nil =>
    refine ⟨fun _ => ⟨⟨by simp, by simp, by simp⟩, by simp⟩, fun _ => rfl⟩
  | cons c t ih =>
    have hspaced : spaced (c :: t) = (if c = '\n' ∨ c = '\t' then ' ' else c) :: spaced t := rfl
    have hverbatim : Verbatim (c :: t) ↔ ¬Control c ∧ Verbatim t ∧
        (c = '\\' → t.head? ≠ some 'n' ∧ t.head? ≠ some 't') := by
      have hiff : ∀ x, ['\\', x] <:+: c :: t ↔ (c = '\\' ∧ t.head? = some x) ∨ ['\\', x] <:+: t := by
        intro x
        rw [List.infix_cons_iff, List.cons_prefix_cons, eq_comm (a := '\\'),
          List.singleton_prefix_iff_head?_eq_some]
      constructor
      · rintro ⟨hcontrols, hn, ht⟩
        rw [hiff, not_or] at hn ht
        obtain ⟨hc, hcontrols⟩ := List.forall_mem_cons.mp hcontrols
        exact ⟨hc, ⟨hcontrols, hn.2, ht.2⟩, fun h => ⟨fun h' => hn.1 ⟨h, h'⟩, fun h' => ht.1 ⟨h, h'⟩⟩⟩
      · rintro ⟨hc, ⟨hcontrols, hn, ht⟩, hslash⟩
        refine ⟨List.forall_mem_cons.mpr ⟨hc, hcontrols⟩, ?_, ?_⟩
        · rw [hiff, not_or]
          exact ⟨fun h => (hslash h.1).1 h.2, hn⟩
        · rw [hiff, not_or]
          exact ⟨fun h => (hslash h.1).2 h.2, ht⟩
    rw [hverbatim, hspaced, heard]
    by_cases hcontrol : Control c
    · have hspecial : ¬(c = '\n' ∨ c = '\t' ∨ (b = true ∧ (c = 'n' ∨ c = 't'))) := by
        rintro (h | h | ⟨-, h | h⟩)
        · exact hcontrol.2.1 h
        · exact hcontrol.2.2 h
        · exact absurd hcontrol.1 (h ▸ by decide)
        · exact absurd hcontrol.1 (h ▸ by decide)
      rw [if_neg hspecial, if_pos hcontrol]
      refine ⟨fun h => ?_, fun h => absurd hcontrol h.1.1⟩
      -- the escape is longer than the character, and nothing gets shorter
      have hlength := congrArg List.length h
      have hrest := length_le_heard (c = '\\') t
      have htwo : 2 ≤ (escapeChar c).length := by
        rcases escapeChar_cases c with rfl | rfl | rfl | rfl | ⟨-, x, more, hescape, -⟩ | ⟨hnot, -⟩
        · exact absurd hcontrol.1 (by decide)
        · exact absurd hcontrol.1 (by decide)
        · exact absurd rfl hcontrol.2.1
        · exact absurd rfl hcontrol.2.2
        · simp [hescape]
        · exact absurd hcontrol hnot
      rw [List.length_append, List.length_cons, spaced, List.length_map] at hlength
      omega
    · rw [if_neg hcontrol]
      have hone : (if c = '\n' ∨ c = '\t' ∨ (b = true ∧ (c = 'n' ∨ c = 't')) then [' '] else [c]) =
          [if c = '\n' ∨ c = '\t' ∨ (b = true ∧ (c = 'n' ∨ c = 't')) then ' ' else c] := by
        split_ifs <;> rfl
      have hfirst : (if c = '\n' ∨ c = '\t' ∨ (b = true ∧ (c = 'n' ∨ c = 't')) then ' ' else c) =
          (if c = '\n' ∨ c = '\t' then ' ' else c) ↔ (b = true → c ≠ 'n' ∧ c ≠ 't') := by
        by_cases hn : c = 'n'
        · subst hn
          cases b <;> simp
        · by_cases ht : c = 't'
          · subst ht
            cases b <;> simp
          · simp [hn, ht]
      rw [hone, List.singleton_append, List.cons.injEq, hfirst, ih, List.head?_cons]
      simp only [decide_eq_true_eq, ne_eq, Option.some.injEq, hcontrol, not_false_eq_true, true_and]
      exact ⟨fun h => ⟨h.2, h.1⟩, fun h => ⟨h.2, h.1⟩⟩

/-! ## Matches of the pattern -/

open Regex

/-- Some characters of a string of JSON, as it is written. -/
inductive Units : ℕ → Text → Prop where
  | nil : Units 0 []
  | plain {n : ℕ} {c : Char} {t : Text} : c ≠ '"' → c ≠ '\\' → Units n t → Units (n + 1) (c :: t)
  | escaped {n : ℕ} {c : Char} {t : Text} : c ≠ '\n' → Units n t → Units (n + 1) ('\\' :: c :: t)

lemma Units.le_length {n : ℕ} {t : Text} (h : Units n t) : n ≤ t.length := by
  induction h with
  | nil => exact Nat.zero_le _
  | plain _ _ _ ih => exact Nat.succ_le_succ ih
  | escaped _ _ ih => exact Nat.succ_le_succ (Nat.le_succ_of_le ih)

lemma oneOf_quote_slash (c : Char) : (!oneOf "\"\\" c) = true ↔ c ≠ '"' ∧ c ≠ '\\' := by
  have hlist : "\"\\".toList = ['"', '\\'] := by decide +kernel
  simp [oneOf, hlist]

lemma mem_successes_jsonUnit {c c' : Cursor Char} : c' ∈ jsonUnit.successes c ↔
    ∃ w, c.Reaches c' w ∧ c'.captured = c.captured ∧
      ((∃ x, x ≠ '"' ∧ x ≠ '\\' ∧ w = [x]) ∨ ∃ x, x ≠ '\n' ∧ w = ['\\', x]) := by
  rw [jsonUnit, mem_successes_alt]
  constructor
  · rintro (h | h)
    · obtain ⟨x, rest, hafter, hx, rfl⟩ := mem_successes_symbol.mp h
      obtain ⟨hquote, hslash⟩ := (oneOf_quote_slash x).mp hx
      exact ⟨[x], ⟨hafter, rfl⟩, rfl, Or.inl ⟨x, hquote, hslash, rfl⟩⟩
    · obtain ⟨mid, hmid, hend⟩ := mem_successes_seq.mp h
      obtain ⟨y, rest, hafter, hy, rfl⟩ := mem_successes_symbol.mp hmid
      obtain ⟨x, rest', hafter', hx, rfl⟩ := mem_successes_symbol.mp hend
      obtain rfl : y = '\\' := of_decide_eq_true hy
      dsimp only at hafter'
      exact ⟨['\\', x], ⟨by rw [hafter, hafter']; rfl, rfl⟩, rfl,
        Or.inr ⟨x, of_decide_eq_true hx, rfl⟩⟩
  · rintro ⟨w, hreach, hcaptured, ⟨x, hquote, hslash, rfl⟩ | ⟨x, hline, rfl⟩⟩
    · left
      refine mem_successes_symbol.mpr ⟨x, c'.after, hreach.after_eq,
        (oneOf_quote_slash x).mpr ⟨hquote, hslash⟩, ?_⟩
      have hbefore := hreach.before_eq
      cases c'
      simp_all
    · right
      refine mem_successes_seq.mpr ⟨_, mem_successes_symbol.mpr ⟨'\\', x :: c'.after,
        hreach.after_eq, by simp, rfl⟩, mem_successes_symbol.mpr ⟨x, c'.after, rfl, by simp [hline], ?_⟩⟩
      have hbefore := hreach.before_eq
      cases c'
      simp_all

lemma rounds_jsonUnit {n : ℕ} {c c' : Cursor Char} : Rounds jsonUnit.successes n c c' ↔
    ∃ w, Units n w ∧ c.Reaches c' w ∧ c'.captured = c.captured := by
  induction n generalizing c with
  | zero =>
    constructor
    · rintro rfl
      exact ⟨[], .nil, .refl _, rfl⟩
    · rintro ⟨w, hw, hreach, hcaptured⟩
      cases hw
      exact hreach.eq_of_nil hcaptured
  | succ n ih =>
    constructor
    · rintro ⟨mid, hmid, hrest⟩
      obtain ⟨w, hreach, hcaptured, hunit⟩ := mem_successes_jsonUnit.mp hmid
      obtain ⟨v, hv, hreach', hcaptured'⟩ := ih.mp hrest
      refine ⟨w ++ v, ?_, hreach.trans hreach', hcaptured'.trans hcaptured⟩
      rcases hunit with ⟨x, hquote, hslash, rfl⟩ | ⟨x, hline, rfl⟩
      · exact .plain hquote hslash hv
      · exact .escaped hline hv
    · rintro ⟨w, hw, hreach, hcaptured⟩
      have hsplit : ∀ first rest, w = first ++ rest → Units n rest →
          ((∃ x, x ≠ '"' ∧ x ≠ '\\' ∧ first = [x]) ∨ ∃ x, x ≠ '\n' ∧ first = ['\\', x]) →
          Rounds jsonUnit.successes (n + 1) c c' := by
        rintro first rest rfl hrest hunit
        have hafter : c.after = first ++ (rest ++ c'.after) := by
          rw [hreach.after_eq, List.append_assoc]
        refine ⟨c.advance first, mem_successes_jsonUnit.mpr ⟨first, Cursor.reaches_advance hafter, rfl,
          hunit⟩, ih.mpr ⟨rest, hrest, ⟨Cursor.after_advance hafter, ?_⟩, hcaptured⟩⟩
        rw [hreach.before_eq, Cursor.advance, List.reverse_append, List.append_assoc]
      cases hw with
      | plain hquote hslash hrest => exact hsplit [_] _ rfl hrest (Or.inl ⟨_, hquote, hslash, rfl⟩)
      | escaped hline hrest => exact hsplit ['\\', _] _ rfl hrest (Or.inr ⟨_, hline, rfl⟩)

/-- The text of a match: what stands before the command, the command, and the quote behind it. -/
structure NamedAs (w w' us : Text) : Prop where
  spaces : ∀ c ∈ w, isSpace c = true
  spaces' : ∀ c ∈ w', isSpace c = true
  units : ∃ n, 1 ≤ n ∧ n ≤ 4000 ∧ Units n us

/-- The word that a command is named by. -/
def commandKey : Text := ['"', 'c', 'o', 'm', 'm', 'a', 'n', 'd', '"']

lemma lit_command : lit "\"command\"" = literal commandKey :=
  congrArg literal (by decide +kernel)

/-- The matches of the pattern. -/
theorem mem_successes_bash {c c' : Cursor Char} : c' ∈ bashRegex.successes c ↔
    ∃ w w' us, NamedAs w w' us ∧ c'.captured = some us ∧
      c.Reaches c' (commandKey ++ (w ++ ([':'] ++ (w' ++ (['"'] ++ (us ++ ['"'])))))) := by
  have hcolon : lit ":" = literal [':'] := congrArg literal (by decide +kernel)
  have hquote : lit "\"" = literal ['"'] := congrArg literal (by decide +kernel)
  simp only [bashRegex, sequence, lit_command, hcolon, hquote, mem_successes_seq]
  constructor
  · rintro ⟨m₁, h₁, m₂, h₂, m₃, h₃, m₄, h₄, m₅, h₅, m₆, h₆, h₇⟩
    obtain ⟨r₁, -⟩ := mem_successes_literal.mp h₁
    obtain ⟨w, -, -, hw, r₂, -⟩ := mem_successes_repeated_symbol.mp h₂
    obtain ⟨r₃, -⟩ := mem_successes_literal.mp h₃
    obtain ⟨w', -, -, hw', r₄, -⟩ := mem_successes_repeated_symbol.mp h₄
    obtain ⟨r₅, -⟩ := mem_successes_literal.mp h₅
    obtain ⟨mid, hmid, rfl⟩ := mem_successes_group.mp h₆
    obtain ⟨n, -, hleast, hmost, hrounds⟩ := mem_iterate.mp hmid
    obtain ⟨us, hunits, r₆, -⟩ := rounds_jsonUnit.mp hrounds
    obtain ⟨r₇, hcaptured⟩ := mem_successes_literal.mp h₇
    have r₆' : m₅.Reaches { mid with captured := some us } us := ⟨r₆.after_eq, r₆.before_eq⟩
    rw [take_of_reaches r₆] at r₇ hcaptured
    exact ⟨w, w', us, ⟨hw, hw', n, hleast, hmost _ rfl, hunits⟩, hcaptured,
      r₁.trans (r₂.trans (r₃.trans (r₄.trans (r₅.trans (r₆'.trans r₇)))))⟩
  · rintro ⟨w, w', us, ⟨hw, hw', n, hleast, hmost, hunits⟩, hcaptured, hreach⟩
    have a₁ := hreach.after_eq
    simp only [List.append_assoc] at a₁
    have a₂ := Cursor.after_advance a₁
    have a₃ := Cursor.after_advance a₂
    have a₄ := Cursor.after_advance a₃
    have a₅ := Cursor.after_advance a₄
    have a₆ := Cursor.after_advance a₅
    have a₇ := Cursor.after_advance a₆
    have hfuel : n ≤ (((((c.advance commandKey).advance w).advance [':']).advance w').advance
        ['"']).after.length := by
      rw [a₆, List.length_append]
      have := hunits.le_length
      omega
    refine ⟨_, mem_successes_literal.mpr ⟨Cursor.reaches_advance a₁, rfl⟩,
      _, mem_successes_repeated_symbol.mpr ⟨w, Nat.zero_le _, by simp, hw, Cursor.reaches_advance a₂,
        rfl⟩,
      _, mem_successes_literal.mpr ⟨Cursor.reaches_advance a₃, rfl⟩,
      _, mem_successes_repeated_symbol.mpr ⟨w', Nat.zero_le _, by simp, hw',
        Cursor.reaches_advance a₄, rfl⟩,
      _, mem_successes_literal.mpr ⟨Cursor.reaches_advance a₅, rfl⟩,
      _, mem_successes_group.mpr ⟨_, mem_iterate.mpr ⟨n, hfuel, hleast, ?_, rounds_jsonUnit.mpr
        ⟨us, hunits, Cursor.reaches_advance a₆, rfl⟩⟩, rfl⟩,
      mem_successes_literal.mpr ⟨⟨a₇, ?_⟩, ?_⟩⟩
    · intro h hh
      exact Option.some.inj hh ▸ hmost
    · rw [hreach.before_eq]
      simp [Cursor.advance]
    · rw [take_of_reaches (Cursor.reaches_advance a₆)]
      exact hcaptured

/-! ## Lines -/

/-- Where a place of a line of JSON is: outside of strings, in one, or behind a backslash in one. -/
inductive LexState where
  | outside
  | inside
  | escaped
  deriving DecidableEq

/-- The characters outside of strings: white space, marks, and those of numbers and of three words. -/
def punctuation (c : Char) : Bool := oneOf " \t\r\n\x7b\x7d[],:0123456789+-.eEtrufalsn" c

def LexState.step : LexState → Char → Option LexState
  | outside, c => if c = '"' then some inside else if punctuation c then some outside else none
  | inside, c => if c = '"' then some outside else if c = '\\' then some escaped else some inside
  | escaped, c => if c = '\n' then none else some inside

/-- Where a text leads to. -/
def lexRun (s : LexState) (t : Text) : Option LexState := t.foldlM LexState.step s

/-- White space between the parts of a line of JSON. -/
def jsonSpace (c : Char) : Bool := oneOf " \t\r\n" c

/-- A line of JSON in which a key `command`, behind the mark that begins a member, has a text for its
value. -/
def NamesCommand (t line : Text) : Prop :=
  ∃ before opener w₀ w w' after, lexRun .outside before = some .outside ∧
    (opener = '\x7b' ∨ opener = ',') ∧ (∀ c ∈ w₀ ++ (w ++ w'), jsonSpace c = true) ∧
    line = before ++ opener :: (w₀ ++ (commandKey ++ (w ++ ([':'] ++ (w' ++ (['"'] ++
      (jsonEscape t ++ ['"'])))))) ++ after)

/-- From a place of a line the text goes on to a mark outside of strings. -/
def Ahead (opener : Char) (rest : Text) (s : LexState) (t : Text) : Prop :=
  ∃ before, lexRun s before = some .outside ∧ t = before ++ opener :: rest

section Ahead

variable {opener : Char} {rest t w : Text} {s : LexState} {x : Char}

lemma Ahead.cases (h : Ahead opener rest s t) : (s = .outside ∧ t = opener :: rest) ∨
    ∃ x t' s', t = x :: t' ∧ s.step x = some s' ∧ Ahead opener rest s' t' := by
  obtain ⟨before, hrun, rfl⟩ := h
  cases before with
  | nil => exact Or.inl ⟨Option.some.inj hrun, rfl⟩
  | cons x before =>
    obtain ⟨s', hs', hrest⟩ := Option.bind_eq_some_iff.mp hrun
    exact Or.inr ⟨x, _, s', rfl, hs', before, hrest, rfl⟩

/-- One character further on. -/
lemma Ahead.peel (h : Ahead opener rest s (x :: t)) (hx : s = .outside → x ≠ opener) :
    ∃ s', s.step x = some s' ∧ Ahead opener rest s' t := by
  rcases h.cases with ⟨hs, heq⟩ | ⟨y, t', s', heq, hs', hahead⟩
  · exact absurd (List.cons.inj heq).1 (hx hs)
  · obtain ⟨rfl, rfl⟩ := List.cons.inj heq
    exact ⟨s', hs', hahead⟩

/-- Over characters that are neither quotes nor backslashes the text stays in a string. -/
lemma Ahead.peel_inside (hw : ∀ x ∈ w, x ≠ '"' ∧ x ≠ '\\') (h : Ahead opener rest .inside (w ++ t)) :
    Ahead opener rest .inside t := by
  induction w with
  | nil => exact h
  | cons x w ih =>
    obtain ⟨⟨hquote, hslash⟩, hw⟩ := List.forall_mem_cons.mp hw
    obtain ⟨s', hs', hahead⟩ := h.peel (fun hs => by cases hs)
    obtain rfl : LexState.inside = s' := by simpa [LexState.step, hquote, hslash] using hs'
    exact ih hw hahead

/-- Over other characters than the mark the text stays outside of strings. -/
lemma Ahead.peel_outside (hw : ∀ x ∈ w, x ≠ '"' ∧ x ≠ opener)
    (h : Ahead opener rest .outside (w ++ t)) : Ahead opener rest .outside t := by
  induction w with
  | nil => exact h
  | cons x w ih =>
    obtain ⟨⟨hquote, hne⟩, hw⟩ := List.forall_mem_cons.mp hw
    obtain ⟨s', hs', hahead⟩ := h.peel (fun _ => hne)
    have houtside : s' = .outside := by
      simp only [LexState.step, hquote, if_false] at hs'
      split_ifs at hs'
      exact (Option.some.inj hs').symm
    exact ih hw (houtside ▸ hahead)

lemma Ahead.peel_quote_inside (h : Ahead opener rest .inside ('"' :: t)) :
    Ahead opener rest .outside t := by
  obtain ⟨s', hs', hahead⟩ := h.peel (fun hs => by cases hs)
  obtain rfl : LexState.outside = s' := Option.some.inj hs'
  exact hahead

lemma Ahead.peel_quote_outside (hopener : opener ≠ '"') (h : Ahead opener rest .outside ('"' :: t)) :
    Ahead opener rest .inside t := by
  obtain ⟨s', hs', hahead⟩ := h.peel (fun _ => hopener.symm)
  obtain rfl : LexState.inside = s' := Option.some.inj hs'
  exact hahead

lemma Ahead.peel_units {n : ℕ} (hw : Units n w) (h : Ahead opener rest .inside (w ++ t)) :
    Ahead opener rest .inside t := by
  induction hw with
  | nil => exact h
  | plain hquote hslash _ ih => exact ih (h.peel_inside (w := [_]) (by simp [hquote, hslash]))
  | @escaped n c v hline _ ih =>
    obtain ⟨s', hs', hahead⟩ := h.peel (fun hs => by cases hs)
    obtain rfl : LexState.escaped = s' := Option.some.inj hs'
    obtain ⟨s', hs', hahead⟩ := hahead.peel (fun hs => by cases hs)
    obtain rfl : LexState.inside = s' := by simpa [LexState.step, hline] using hs'
    exact ih hahead

lemma isSpace_ne {w : Text} (hopener : opener = '\x7b' ∨ opener = ',')
    (hw : ∀ x ∈ w, isSpace x = true) : ∀ x ∈ w, x ≠ '"' ∧ x ≠ opener := by
  intro x hx
  have hspace := hw x hx
  refine ⟨?_, ?_⟩
  · rintro rfl
    exact absurd hspace (by decide)
  · rintro rfl
    rcases hopener with rfl | rfl <;> exact absurd hspace (by decide)

/-- A match that begins before the mark ends outside of strings, and before the mark. -/
lemma Ahead.of_match {w' us after : Text} (hopener : opener = '\x7b' ∨ opener = ',')
    (hnamed : NamedAs w w' us)
    (h : Ahead opener rest s (commandKey ++ (w ++ ([':'] ++ (w' ++ (['"'] ++ (us ++ ['"']))))) ++
      after)) : Ahead opener rest .outside after := by
  obtain ⟨hspaces, hspaces', n, -, -, hunits⟩ := hnamed
  have hquote : opener ≠ '"' := by
    rcases hopener with rfl | rfl <;> decide
  have hcolon : ':' ≠ opener := by
    rcases hopener with rfl | rfl <;> decide
  have hword : Ahead opener rest .inside (['c', 'o', 'm', 'm', 'a', 'n', 'd'] ++ ('"' :: (w ++ ([':'] ++
      (w' ++ (['"'] ++ (us ++ ['"'])))) ++ after))) := by
    obtain ⟨s', hs', hahead⟩ := h.peel (fun _ => hquote.symm)
    cases s with
    | outside =>
      obtain rfl : LexState.inside = s' := Option.some.inj hs'
      exact hahead
    | escaped =>
      obtain rfl : LexState.inside = s' := by simpa [LexState.step] using hs'
      exact hahead
    | inside =>
      -- behind a string stands no letter of the key
      obtain rfl : LexState.outside = s' := Option.some.inj hs'
      have hc : 'c' ≠ opener := by
        rcases hopener with rfl | rfl <;> decide +kernel
      obtain ⟨s', hs', -⟩ := hahead.peel (fun _ => hc)
      exact absurd hs' (by simp [show LexState.outside.step 'c' = none by decide +kernel])
  have hcommand := (hword.peel_inside (by simp)).peel_quote_inside
  simp only [List.append_assoc] at hcommand
  have hvalue := ((hcommand.peel_outside (isSpace_ne hopener hspaces)).peel_outside
    (by simpa using hcolon)).peel_outside (isSpace_ne hopener hspaces')
  exact ((hvalue.peel_quote_outside hquote).peel_units hunits).peel_quote_inside

end Ahead

lemma consumes_bash : bashRegex.Consumes := by
  intro c c' hc'
  obtain ⟨w, w', us, -, -, hreach⟩ := mem_successes_bash.mp hc'
  rw [hreach.after_eq]
  simp only [List.length_append, commandKey, List.length_cons]
  omega

/-- Where the text does not begin with a quote there is no match. -/
lemma find_bash_eq_none {before t : Text} {x : Char} (hx : x ≠ '"') :
    bashRegex.find before (x :: t) = none := by
  cases hfind : bashRegex.find before (x :: t) with
  | none => rfl
  | some c =>
    obtain ⟨w, w', us, -, -, hreach⟩ := mem_successes_bash.mp (mem_successes_of_find hfind)
    exact absurd (List.cons.inj hreach.after_eq).1 hx

/-- The search comes to every mark outside of strings. -/
theorem piecesFrom_ahead {opener : Char} {rest : Text} (hopener : opener = '\x7b' ∨ opener = ',')
    {n : ℕ} {t : Text} {s : LexState} (hn : t.length ≤ n) (h : Ahead opener rest s t) (before : Text) :
    ∃ ps before', bashRegex.piecesFrom before t =
      ps ++ bashRegex.piecesFrom before' (opener :: rest) := by
  induction n generalizing t s before with
  | zero =>
    obtain rfl := List.eq_nil_of_length_eq_zero (Nat.le_zero.mp hn)
    obtain ⟨_, -, hnil⟩ := h
    exact absurd hnil (by simp)
  | succ n ih =>
    rcases h.cases with ⟨-, rfl⟩ | ⟨x, t', s', rfl, -, hahead⟩
    · exact ⟨[], before, rfl⟩
    rw [List.length_cons] at hn
    cases hfind : bashRegex.find before (x :: t') with
    | none =>
      obtain ⟨ps, before', hps⟩ := ih (by omega) hahead (x :: before)
      exact ⟨.inl x :: ps, before', by rw [piecesFrom_cons_of_none hfind, hps, List.cons_append]⟩
    | some c =>
      have hmem := mem_successes_of_find hfind
      obtain ⟨w, w', us, hnamed, -, hreach⟩ := mem_successes_bash.mp hmem
      have hless := consumes_bash _ _ hmem
      simp only [List.length_cons] at hless
      have hafter : x :: t' = _ := hreach.after_eq
      have hend : Ahead opener rest .outside c.after := by
        rw [hafter] at h
        exact h.of_match hopener hnamed
      obtain ⟨ps, before', hps⟩ := ih (by omega) hend c.before
      rw [piecesFrom_of_some consumes_bash hfind hafter, hps]
      exact ⟨.inr _ :: ps, before', rfl⟩

/-! ## One command -/

/-- Characters of a kind are followed by one that is not of it in one way only. -/
lemma append_cons_inj {p : Char → Prop} {x : Char} {w w' t t' : Text} (hx : ¬p x)
    (hw : ∀ c ∈ w, p c) (hw' : ∀ c ∈ w', p c) (h : w ++ x :: t = w' ++ x :: t') :
    w = w' ∧ t = t' := by
  induction w generalizing w' with
  | nil =>
    cases w' with
    | nil => exact ⟨rfl, (List.cons.inj h).2⟩
    | cons y w' => exact absurd (hw' y List.mem_cons_self) ((List.cons.inj h).1 ▸ hx)
  | cons y w ih =>
    cases w' with
    | nil => exact absurd (hw y List.mem_cons_self) ((List.cons.inj h).1 ▸ hx)
    | cons z w' =>
      obtain ⟨rfl, hrest⟩ := List.cons.inj h
      obtain ⟨rfl, rfl⟩ := ih (List.forall_mem_cons.mp hw).2 (List.forall_mem_cons.mp hw').2 hrest
      exact ⟨rfl, rfl⟩

/-- A string of JSON ends at one quote only. -/
lemma Units.append_inj {n m : ℕ} {us us' t t' : Text} (hus : Units n us) (hus' : Units m us')
    (h : us ++ '"' :: t = us' ++ '"' :: t') : us = us' ∧ t = t' := by
  induction hus generalizing m us' with
  | nil =>
    cases hus' with
    | nil => exact ⟨rfl, (List.cons.inj h).2⟩
    | plain hquote => exact absurd (List.cons.inj h).1.symm hquote
    | escaped => exact absurd (List.cons.inj h).1 (by decide)
  | plain hquote hslash _ ih =>
    cases hus' with
    | nil => exact absurd (List.cons.inj h).1 hquote
    | plain _ _ hrest =>
      obtain ⟨rfl, hrest'⟩ := List.cons.inj h
      obtain ⟨rfl, rfl⟩ := ih hrest hrest'
      exact ⟨rfl, rfl⟩
    | escaped => exact absurd (List.cons.inj h).1 hslash
  | escaped _ _ ih =>
    cases hus' with
    | nil => exact absurd (List.cons.inj h).1 (by decide)
    | plain _ hslash => exact absurd (List.cons.inj h).1.symm hslash
    | escaped _ hrest =>
      obtain ⟨rfl, hrest'⟩ := List.cons.inj (List.cons.inj h).2
      obtain ⟨rfl, rfl⟩ := ih hrest hrest'
      exact ⟨rfl, rfl⟩

/-- What is captured where a command is named. -/
lemma find_named {w w' us : Text} (hnamed : NamedAs w w' us) (before after : Text) :
    ∃ c, bashRegex.find before (commandKey ++ (w ++ ([':'] ++ (w' ++ (['"'] ++ (us ++ ['"']))))) ++
      after) = some c ∧ c.captured = some us ∧ c.after = after := by
  set named := commandKey ++ (w ++ ([':'] ++ (w' ++ (['"'] ++ (us ++ ['"']))))) with hname
  have hmem : (⟨named.reverse ++ before, after, some us⟩ : Cursor Char) ∈
      bashRegex.successes ⟨before, named ++ after, none⟩ :=
    mem_successes_bash.mpr ⟨w, w', us, hnamed, rfl, rfl, rfl⟩
  obtain ⟨c, hc⟩ := Option.isSome_iff_exists.mp
    (List.isSome_head?.mpr (List.ne_nil_of_mem hmem))
  refine ⟨c, hc, ?_⟩
  obtain ⟨v, v', us', ⟨hv, hv', m, -, -, hunits'⟩, hcaptured, hreach⟩ :=
    mem_successes_bash.mp (mem_successes_of_find hc)
  obtain ⟨hw, hw', n, -, -, hunits⟩ := hnamed
  have heq : named ++ after = _ := hreach.after_eq
  rw [hname] at heq
  simp only [List.append_assoc, List.cons_append, List.nil_append] at heq
  obtain ⟨rfl, hvalue⟩ := append_cons_inj (p := (isSpace · = true)) (by decide) hw hv
    (List.append_cancel_left heq)
  obtain ⟨rfl, hstring⟩ := append_cons_inj (p := (isSpace · = true)) (by decide) hw' hv' hvalue
  obtain ⟨rfl, rfl⟩ := hunits.append_inj hunits' hstring
  exact ⟨hcaptured, rfl⟩

lemma units_append {n m : ℕ} {us us' : Text} (h : Units n us) (h' : Units m us') :
    Units (n + m) (us ++ us') := by
  induction h with
  | nil => rwa [Nat.zero_add]
  | plain hquote hslash _ ih => exact Nat.succ_add .. ▸ .plain hquote hslash ih
  | escaped hline _ ih => exact Nat.succ_add .. ▸ .escaped hline ih

/-- A character is written as at least one and at most five units. -/
lemma units_escapeChar (c : Char) : ∃ n, 1 ≤ n ∧ n ≤ 5 ∧ Units n (escapeChar c) := by
  have hdigit : ∀ n < 16, hexDigit n ≠ '"' ∧ hexDigit n ≠ '\\' := by decide
  have htwo : ∀ x, x ≠ '\n' → ∃ n, 1 ≤ n ∧ n ≤ 5 ∧ Units n ['\\', x] := fun x hx =>
    ⟨1, by omega, by omega, .escaped hx .nil⟩
  unfold escapeChar
  split_ifs with hquote hslash _ _ _ _ _ hcontrol
  · exact htwo _ (by decide)
  · exact htwo _ (by decide)
  · exact htwo _ (by decide)
  · exact htwo _ (by decide)
  · exact htwo _ (by decide)
  · exact htwo _ (by decide)
  · exact htwo _ (by decide)
  · obtain ⟨hhigh, hhigh'⟩ := hdigit (c.toNat / 16) (by omega)
    obtain ⟨hlow, hlow'⟩ := hdigit (c.toNat % 16) (by omega)
    exact ⟨5, by omega, by omega, .escaped (by decide) (.plain (by decide) (by decide)
      (.plain (by decide) (by decide) (.plain hhigh hhigh' (.plain hlow hlow' .nil))))⟩
  · exact ⟨1, by omega, by omega, .plain hquote hslash .nil⟩

lemma units_jsonEscape (t : Text) :
    ∃ n, t.length ≤ n ∧ n ≤ 5 * t.length ∧ Units n (jsonEscape t) := by
  induction t with
  | nil => exact ⟨0, Nat.le_refl _, Nat.zero_le _, .nil⟩
  | cons c t ih =>
    obtain ⟨n, hleast, hmost, hunits⟩ := units_escapeChar c
    obtain ⟨m, hleast', hmost', hunits'⟩ := ih
    refine ⟨n + m, ?_, ?_, jsonEscape_cons c t ▸ units_append hunits hunits'⟩
    · rw [List.length_cons]
      omega
    · rw [List.length_cons]
      omega

lemma length_le_utf8Len (t : Text) : t.length ≤ utf8Len t := by
  induction t with
  | nil => exact Nat.zero_le _
  | cons c t ih =>
    have hpos := c.utf8Size_pos
    have hlen : utf8Len (c :: t) = c.utf8Size + utf8Len t := List.sum_cons
    rw [hlen, List.length_cons]
    omega

lemma namedAs_jsonEscape {t w w' : Text} (hlen : utf8Len t ≤ 300) (hne : t ≠ [])
    (hw : ∀ c ∈ w, isSpace c = true) (hw' : ∀ c ∈ w', isSpace c = true) :
    NamedAs w w' (jsonEscape t) := by
  obtain ⟨n, hleast, hmost, hunits⟩ := units_jsonEscape t
  have hpos := List.length_pos_iff.mpr hne
  have hshort := length_le_utf8Len t
  exact ⟨hw, hw', n, by omega, by omega, hunits⟩

/-! ## All commands -/

/-- The commands among the atoms of a text. -/
lemma mem_extractAtoms_bash {u : Unicode} (hu : u.LeftmostFirst) (line cmd : Text) :
    ((.bash, cmd) : Atom) ∈ extractAtoms u line ↔
      ∃ f ∈ bashRegex.findIter line, ∃ us, f.captured = some us ∧ unescapeJson us = cmd := by
  simp only [extractAtoms, hu.findIter_eq, List.mem_append, List.mem_map, List.mem_filterMap,
    Prod.mk.injEq, reduceCtorEq, false_and, and_false, exists_false, true_and, false_or, or_false]
  exact ⟨fun ⟨us, ⟨f, hf, hus⟩, hcmd⟩ => ⟨f, hf, us, hus, hcmd⟩,
    fun ⟨f, hf, us, hus, hcmd⟩ => ⟨us, ⟨f, hf, hus⟩, hcmd⟩⟩

lemma isSpace_of_jsonSpace {c : Char} (h : jsonSpace c = true) : isSpace c = true := by
  have hlist : " \t\r\n".toList = [' ', '\t', '\r', '\n'] := by decide +kernel
  simp only [jsonSpace, oneOf, hlist, List.contains_cons, List.contains_nil, Bool.or_eq_true,
    beq_iff_eq, Bool.or_false] at h
  rcases h with rfl | rfl | rfl | rfl <;> decide

/-- Over characters other than quotes the search goes on. -/
lemma piecesFrom_others {w : Text} (hw : ∀ c ∈ w, c ≠ '"') (before t : Text) :
    ∃ before', bashRegex.piecesFrom before (w ++ t) =
      w.map Sum.inl ++ bashRegex.piecesFrom before' t := by
  induction w generalizing before with
  | nil => exact ⟨before, rfl⟩
  | cons c w ih =>
    obtain ⟨hc, hw⟩ := List.forall_mem_cons.mp hw
    obtain ⟨before', hrest⟩ := ih hw (c :: before)
    refine ⟨before', ?_⟩
    rw [List.cons_append, piecesFrom_cons_of_none (find_bash_eq_none hc), hrest]
    rfl

/-- A named command is captured as it is written. -/
theorem exists_found_of_namesCommand {t line : Text} (hlen : utf8Len t ≤ 300) (hne : t ≠ [])
    (h : NamesCommand t line) :
    ∃ f ∈ bashRegex.findIter line, f.captured = some (jsonEscape t) := by
  obtain ⟨start, opener, w₀, w, w', after, hrun, hopener, hspace, rfl⟩ := h
  have hspaces : ∀ {v}, v ⊆ w₀ ++ (w ++ w') → ∀ c ∈ v, isSpace c = true :=
    fun hv c hc => isSpace_of_jsonSpace (hspace c (hv hc))
  have hnamed := namedAs_jsonEscape hlen hne
    (hspaces (List.subset_append_of_subset_right _ (List.subset_append_left ..)))
    (hspaces (List.subset_append_of_subset_right _ (List.subset_append_right ..)))
  have hquiet : ∀ c ∈ opener :: w₀, c ≠ '"' := by
    refine List.forall_mem_cons.mpr ⟨?_, fun c hc => ?_⟩
    · rcases hopener with rfl | rfl <;> decide
    · exact (isSpace_ne hopener (hspaces (List.subset_append_left ..)) c hc).1
  set named := commandKey ++ (w ++ ([':'] ++ (w' ++ (['"'] ++ (jsonEscape t ++ ['"'])))))
  have hahead : Ahead opener (w₀ ++ named ++ after) .outside
      (start ++ opener :: (w₀ ++ named ++ after)) := ⟨start, hrun, rfl⟩
  obtain ⟨ps, before, hps⟩ := piecesFrom_ahead hopener (Nat.le_refl _) hahead []
  obtain ⟨before', hothers⟩ := piecesFrom_others hquiet before (named ++ after)
  obtain ⟨c, hfind, hcaptured, hafter⟩ := find_named hnamed before' after
  have hfound : bashRegex.piecesFrom before' (named ++ after) = _ :=
    piecesFrom_of_some consumes_bash hfind (congrArg (named ++ ·) hafter.symm)
  rw [hfound, List.cons_append, ← List.append_assoc] at hothers
  refine ⟨⟨named, c.captured⟩, List.mem_filterMap.mpr ⟨.inr ⟨named, c.captured⟩, ?_, rfl⟩, hcaptured⟩
  change _ ∈ bashRegex.piecesFrom [] _
  rw [hps, hothers]
  simp

/-- The line of a transcript that has a command and nothing else. -/
def commandLine (t : Text) : Text :=
  ['\x7b'] ++ (commandKey ++ ([':', '"'] ++ jsonEscape t ++ ['"', '\x7d']))

lemma namesCommand_commandLine (t : Text) : NamesCommand t (commandLine t) :=
  ⟨[], '\x7b', [], [], [], ['\x7d'], rfl, Or.inl rfl, by simp, by simp [commandLine]⟩

/-- From such a line nothing else is captured. -/
lemma findIter_commandLine {t : Text} (hlen : utf8Len t ≤ 300) (hne : t ≠ []) :
    ∃ w, bashRegex.findIter (commandLine t) = [⟨w, some (jsonEscape t)⟩] := by
  have hnamed : NamedAs [] [] (jsonEscape t) := namedAs_jsonEscape hlen hne (by simp) (by simp)
  obtain ⟨c, hfind, hcaptured, hafter⟩ := find_named hnamed ['\x7b'] ['\x7d']
  have hline : commandLine t = '\x7b' :: (commandKey ++ ([] ++ ([':'] ++ ([] ++ (['"'] ++
      (jsonEscape t ++ ['"']))))) ++ ['\x7d']) := by
    simp [commandLine]
  have hfound := piecesFrom_of_some consumes_bash hfind (congrArg (_ ++ ·) hafter.symm)
  rw [findIter, pieces, ← piecesFrom, hline, piecesFrom_cons_of_none (find_bash_eq_none (by decide)),
    hfound, hcaptured, hafter, piecesFrom_cons_of_none (find_bash_eq_none (by decide)), piecesFrom_nil]
  exact ⟨_, rfl⟩

end ChittaField.Spans
