import ChittaField.Lib.Lists
import ChittaField.Lib.Splicing
import ChittaField.Organs.Replication
import ChittaField.Recall.Hits

/-!
# Routed recall

A typed request is routed to the cheapest lane that can answer it, and the answer is put together as
a JSON text: the strings are spliced in with a backslash in front of each quote and nothing else
escaped, and the contents are cut to 120 characters behind that.  The text is a JSON object whose
strings are beginnings of the stored ones exactly when no string shown has a backslash or a control
character and no cut is right behind an added backslash (`routed_exact`).
-/

namespace ChittaField

/-! ## Requests -/

/-- A request, as far as it is routed and answered. -/
structure RecallRequest where
  subject : Option String
  predicate : Option String
  freetext : Option String
  timeFromMs : Option ℤ
  timeToMs : Option ℤ
  causalTool : Option String
  causalEntity : Option String
  k : ℕ

/-- A named hole of a request. -/
structure UnboundSlot where
  name : List Char
  context : List Char

/-- How a request is answered. -/
inductive DispatchKind where
  | exact
  | fuzzy
  | temporal
  | causal
  | hybrid
  | needsDisambiguation (slots : List UnboundSlot)

namespace DispatchKind

/-- The name of an answer's lane. -/
def label : DispatchKind → List Char
  | exact => "exact".toList
  | fuzzy => "fuzzy".toList
  | temporal => "temporal".toList
  | causal => "causal".toList
  | hybrid => "hybrid".toList
  | needsDisambiguation _ => "needs_disambiguation".toList

end DispatchKind

/-! ## Texts of values -/

section Texts

variable (wide : Char → Bool)

/-- The debug format writes such a character by its number.  Beyond ASCII it depends on the Unicode
tables. -/
def hidden (c : Char) : Bool := c.toNat < 0x20 ∨ c.toNat = 0x7f ∨ 0x7f < c.toNat ∧ wide c

/-- A character in the debug format. -/
def debugChar (c : Char) : List Char :=
  if c = '\x00' then ['\\', '0']
  else if c = '\t' then ['\\', 't']
  else if c = '\r' then ['\\', 'r']
  else if c = '\n' then ['\\', 'n']
  else if c = '"' ∨ c = '\\' then ['\\', c]
  else if hidden wide c then "\\u\x7b".toList ++ Nat.toDigits 16 c.toNat ++ ['\x7d']
  else [c]

/-- A string that is there, in the debug format. -/
def debugSome (s : String) : List Char :=
  "Some(\"".toList ++ s.toList.flatMap (debugChar wide) ++ "\")".toList

/-- Route a request. -/
def route (req : RecallRequest) : DispatchKind :=
  let hasTime := req.timeFromMs.isSome || req.timeToMs.isSome
  let hasExact := req.subject.isSome || req.predicate.isSome
  let hasFuzzy := req.freetext.isSome
  match req.causalTool with
  | some tool =>
    if req.causalEntity.isSome then .causal
    else .needsDisambiguation
      [⟨"causal_entity".toList, "causal_tool=".toList ++ debugSome wide tool⟩]
  | none =>
    if hasExact && hasFuzzy then .hybrid
    else if hasExact then .exact
    else if hasTime && !hasFuzzy then .temporal
    else if hasTime && hasFuzzy then .hybrid
    else if hasFuzzy then .fuzzy
    else .needsDisambiguation [⟨"query_target".toList,
      "no subject, predicate, freetext, causal pair, or time range provided".toList⟩]

end Texts

/-- A machine float: a sign, a mantissa and a power of two, or no number. -/
inductive Fp where
  | nan
  | infinite (neg : Bool)
  | finite (neg : Bool) (mantissa : ℕ) (exponent : ℤ)
  deriving DecidableEq

namespace Fp

/-- The quotient, rounded to the nearest, on ties to the even one. -/
def roundHalfEven (n d : ℕ) : ℕ :=
  if 2 * (n % d) < d ∨ 2 * (n % d) = d ∧ n / d % 2 = 0 then n / d else n / d + 1

/-- The magnitude in units of the last of some decimal places. -/
def units (places mantissa : ℕ) (exponent : ℤ) : ℕ :=
  if 0 ≤ exponent then mantissa * 2 ^ exponent.toNat * 10 ^ places
  else roundHalfEven (mantissa * 10 ^ places) (2 ^ (-exponent).toNat)

/-- A minus sign. -/
def sign (neg : Bool) : List Char := if neg then ['-'] else []

/-- The number with some decimal places. -/
def fixed (places : ℕ) : Fp → List Char
  | nan => "NaN".toList
  | infinite neg => sign neg ++ "inf".toList
  | finite neg mantissa exponent =>
    sign neg ++ (Nat.toDigits 10 (units places mantissa exponent / 10 ^ places) ++
      '.' :: (Positional.digits 10 places (units places mantissa exponent)).map Nat.digitChar)

/-- It is a number. -/
def isFinite : Fp → Bool
  | finite .. => true
  | _ => false

end Fp

/-! ## Answers -/

/-- `replace('"', "\\\"")`. -/
def replaceQuotes (s : List Char) : List Char := s.flatMap fun c => if c = '"' then ['\\', '"'] else [c]

/-- A string as it is spliced into an answer. -/
def spliced (s : String) : List Char := replaceQuotes s.toList

/-- A content as it is spliced into an answer: cut to 120 characters. -/
def splicedContent (s : String) : List Char := (replaceQuotes s.toList).take 120

/-- A hit of an answer. -/
inductive Row (D : Type*) where
  | exact (e : TripletEntry Fp)
  | memory (h : RecallHit D)
  | exactLane (e : TripletEntry Fp)
  | fuzzyLane (h : RecallHit D)

/-- What an answer is taken from: the triplets, whether they are loaded, and the lanes over the
memories, which may fail. -/
structure Serving (D : Type*) where
  ready : Bool
  triplets : TripletStore Fp
  recallKeyword : String → ℕ → Option (List (RecallHit D))
  recallTemporal : ℤ → ℤ → ℕ → Option (List (RecallHit D))
  recallCausal : String → String → ℕ → Option (List (RecallHit D))
  score : D → Fp

/-- The valid triplets with a predicate. -/
def TripletStore.queryPredicate {F : Type} (t : TripletStore F) (predicate : String) (atMs : ℤ) :
    List (TripletEntry F) :=
  t.resolveIds ((t.byPredicate predicate).getD []) atMs

namespace Serving

variable {D : Type*} (s : Serving D) (now : ℤ) (req : RecallRequest)

/-- A hit in the text of an answer. -/
def rowText : Row D → List Char
  | .exact e =>
    "\x7b\"subject\":\"".toList ++ spliced e.subject ++ "\",\"predicate\":\"".toList ++
      spliced e.predicate ++ "\",\"object\":\"".toList ++ spliced e.object ++
      "\",\"weight\":".toList ++ e.weight.fixed 3 ++ "\x7d".toList
  | .memory h =>
    "\x7b\"memory_id\":".toList ++ Nat.toDigits 10 h.memoryId ++ ",\"score\":".toList ++
      (s.score h.scored).fixed 4 ++ ",\"content\":\"".toList ++ splicedContent h.content ++
      "\"\x7d".toList
  | .exactLane e =>
    "\x7b\"lane\":\"exact\",\"subject\":\"".toList ++ spliced e.subject ++
      "\",\"predicate\":\"".toList ++ spliced e.predicate ++ "\",\"object\":\"".toList ++
      spliced e.object ++ "\"\x7d".toList
  | .fuzzyLane h =>
    "\x7b\"lane\":\"fuzzy\",\"memory_id\":".toList ++ Nat.toDigits 10 h.memoryId ++
      ",\"score\":".toList ++ (s.score h.scored).fixed 4 ++ ",\"content\":\"".toList ++
      splicedContent h.content ++ "\"\x7d".toList

/-- The triplets that a request asks for. -/
def exactEntries : List (TripletEntry Fp) :=
  match req.subject, req.predicate with
  | some subject, _ => s.triplets.querySubject subject now
  | none, some predicate => s.triplets.queryPredicate predicate now
  | none, none => []

/-- The triplets are asked for before they are loaded. -/
def loading : DispatchKind → Bool
  | .exact | .hybrid => !s.ready
  | _ => false

/-- The hits of a request on a lane. -/
def laneRows (k : ℕ) : DispatchKind → List (Row D)
  | .exact => ((s.exactEntries now req).take k).map .exact
  | .fuzzy => ((s.recallKeyword (req.freetext.getD "") k).getD []).map .memory
  | .temporal =>
    ((s.recallTemporal (req.timeFromMs.getD 0) (req.timeToMs.getD (2 ^ 63 - 1)) k).getD []).map .memory
  | .causal =>
    ((s.recallCausal (req.causalTool.getD "") (req.causalEntity.getD "") k).getD []).map .memory
  | .hybrid =>
    -- the exact lane first, the fuzzy one fills the slots that remain
    let out := ((s.exactEntries now req).take (k / 2 + 1)).map .exactLane
    if out.length < k then
      out ++ ((s.recallKeyword (req.freetext.getD "") (k - out.length)).getD []).map .fuzzyLane
    else out
  | .needsDisambiguation _ => []

/-- The hits of an answer. -/
def rows (wide : Char → Bool) : List (Row D) :=
  if s.loading (route wide req) then [] else s.laneRows now req (max req.k 1) (route wide req)

/-- A hole in the text of an answer. -/
def slotText (slot : UnboundSlot) : List Char :=
  "\x7b\"slot\":\"".toList ++ slot.name ++ "\",\"context\":\"".toList ++ replaceQuotes slot.context ++
    "\"\x7d".toList

/-- The answer to a request. -/
def routedRecall (wide : Char → Bool) : List Char :=
  let dispatch := route wide req
  if s.loading dispatch then
    "\x7b\"dispatch_label\":\"".toList ++ dispatch.label ++
      "\",\"loading\":true,\"phase\":\"triplets\",\"retry_after_s\":1,\"hits\":[]\x7d".toList
  else match dispatch with
    | .needsDisambiguation slots =>
      "\x7b\"dispatch\":\"needs_disambiguation\",\"unbound_slots\":[".toList ++
        [','].intercalate (slots.map slotText) ++ "],\"hits\":[]\x7d".toList
    | dispatch =>
      "\x7b\"dispatch\":\"".toList ++ dispatch.label ++ "\",\"token_cost\":0,\"hits\":[".toList ++
        [','].intercalate ((s.laneRows now req (max req.k 1) dispatch).map s.rowText) ++ "]\x7d".toList

end Serving

open Json

/-! ## Words -/

/-- A character of words. -/
def WordChar (c : Char) : Prop := stepGap c = ([], .bare [c])

variable {c : Char}

lemma wordChar_of_isDigit (h : c.isDigit = true) : WordChar c := by
  have hrange : 48 ≤ c.toNat ∧ c.toNat ≤ 57 := by
    simp only [Char.isDigit, Bool.and_eq_true, decide_eq_true_eq, UInt32.le_iff_toNat_le] at h
    exact h
  obtain ⟨hlo, hhi⟩ := hrange
  have heq : c = Char.ofNat c.toNat := (Char.ofNat_toNat c).symm
  rw [heq]
  generalize c.toNat = n at hlo hhi
  interval_cases n <;> rfl

variable {w : List Char}

lemma scan_bare (h : ∀ c ∈ w, WordChar c) (v : List Char) :
    scan (.bare v) w = some ([], .bare (v ++ w)) := by
  induction w generalizing v with
  | nil => rw [scan, List.append_nil]
  | cons c w ih =>
    have hstep : step (.bare v) c = some ([], .bare (v ++ [c])) := by
      have hc : stepGap c = ([], .bare [c]) := h c List.mem_cons_self
      simp only [step, hc]
    rw [scan, hstep, Option.bind_some, ih (List.forall_mem_cons.mp h).2,
      Option.map_some, List.append_nil, ← List.append_cons]

/-- A word is scanned as such. -/
lemma scan_word (hne : w ≠ []) (h : ∀ c ∈ w, WordChar c) : scan .gap w = some ([], .bare w) := by
  obtain ⟨c, w, rfl⟩ := List.exists_cons_of_ne_nil hne
  have hstep : step .gap c = some ([], .bare [c]) := congrArg some (h c List.mem_cons_self)
  rw [scan, hstep, Option.bind_some, scan_bare (List.forall_mem_cons.mp h).2,
    Option.map_some, List.append_nil, List.singleton_append]

lemma isDigit_of_mem_toDigits {n : ℕ} (h : c ∈ Nat.toDigits 10 n) : c.isDigit = true :=
  Nat.isDigit_of_mem_toDigits (by decide) (by decide) h

lemma isDigit_digitChar {d : ℕ} (h : d < 10) : (Nat.digitChar d).isDigit = true := by
  interval_cases d <;> rfl

/-- No decimal has a zero in front, except that of zero. -/
lemma isInteger_toDigits (n : ℕ) : isInteger (Nat.toDigits 10 n) = true := by
  rw [isInteger, decide_eq_true_eq]
  induction n using Nat.strong_induction_on with
  | _ n ih =>
    by_cases hlt : n < 10
    · rw [Nat.toDigits_of_lt_base hlt]
      interval_cases n <;> simp
    · right
      refine ⟨Nat.toDigits_ne_nil, ?_⟩
      rw [Nat.toDigits_of_base_le (by decide) (by omega), List.head?_append_of_ne_nil _ Nat.toDigits_ne_nil]
      rcases ih (n / 10) (by omega) with h | h
      · have hzero : Nat.ofDigitChars 10 (Nat.toDigits 10 (n / 10)) 0 = 0 := by
          rw [h]
          rfl
        rw [Nat.ofDigitChars_ten_toDigits] at hzero
        omega
      · exact h.2

lemma unsigned_digits (h : ∀ c ∈ w, c.isDigit = true) (v : List Char) (hne : w ≠ []) :
    unsigned ['-'] (w ++ v) = w ++ v := by
  obtain ⟨c, w, rfl⟩ := List.exists_cons_of_ne_nil hne
  have hc : c ∉ ['-'] := by
    intro hmem
    rw [List.mem_singleton] at hmem
    exact absurd (h c List.mem_cons_self) (by rw [hmem]; decide)
  rw [List.cons_append, unsigned, if_neg hc]

lemma takeWhile_digits {w v : List Char} (h : ∀ c ∈ w, c.isDigit = true)
    (hv : ∀ c ∈ v.head?, c.isDigit = false) :
    (w ++ v).takeWhile Char.isDigit = w ∧ (w ++ v).dropWhile Char.isDigit = v := by
  rw [List.takeWhile_append_of_pos h, List.dropWhile_append_of_pos h]
  cases v with
  | nil => simp
  | cons c v =>
    have hc : c.isDigit = false := hv c rfl
    simp [hc]

/-- A decimal is a numeral. -/
lemma isWord_toDigits (n : ℕ) : isWord (Nat.toDigits 10 n) = true := by
  have hdigits : ∀ c ∈ Nat.toDigits 10 n, c.isDigit = true := fun c hc => isDigit_of_mem_toDigits hc
  obtain ⟨htake, hdrop⟩ := takeWhile_digits hdigits (v := []) (by simp)
  have hsign := unsigned_digits hdigits [] Nat.toDigits_ne_nil
  rw [List.append_nil] at htake hdrop hsign
  refine isWord_of_isNumeral (isNumeral_iff.mpr ?_)
  rw [hsign, htake, hdrop]
  exact ⟨isInteger_toDigits n, rfl⟩

namespace Fp

variable {x : Fp} {places : ℕ}

lemma wordChar_sign {neg : Bool} (h : c ∈ sign neg) : WordChar c := by
  cases neg with
  | false => exact absurd h List.not_mem_nil
  | true =>
    rw [List.mem_singleton.mp h]
    rfl

/-- The decimal places of a number. -/
lemma isDigit_of_mem_places {n : ℕ} (h : c ∈ (Positional.digits 10 places n).map Nat.digitChar) :
    c.isDigit = true := by
  obtain ⟨d, hd, rfl⟩ := List.mem_map.mp h
  exact isDigit_digitChar (Positional.lt_of_mem_digits (by decide) hd)

/-- The text of a float is made of characters of words. -/
lemma wordChar_fixed (h : c ∈ x.fixed places) : WordChar c := by
  have hword : ∀ {w : List Char}, (∀ c ∈ w, WordChar c) → c ∈ w → WordChar c := fun hw hc => hw c hc
  cases x with
  | nan =>
    exact hword (w := ['N', 'a', 'N']) (by simp [WordChar, stepGap, isBlank, mark]) h
  | infinite neg =>
    rcases List.mem_append.mp h with h | h
    · exact wordChar_sign h
    · exact hword (w := ['i', 'n', 'f']) (by simp [WordChar, stepGap, isBlank, mark]) h
  | finite =>
    rcases List.mem_append.mp h with h | h
    · exact wordChar_sign h
    rcases List.mem_append.mp h with h | h
    · exact wordChar_of_isDigit (isDigit_of_mem_toDigits h)
    rcases List.mem_cons.mp h with rfl | h
    · rfl
    · exact wordChar_of_isDigit (isDigit_of_mem_places h)

lemma fixed_ne_nil : x.fixed places ≠ [] := by
  cases x with
  | nan => exact List.cons_ne_nil _ _
  | infinite neg => exact List.append_ne_nil_of_right_ne_nil _ (List.cons_ne_nil _ _)
  | finite =>
    exact List.append_ne_nil_of_right_ne_nil _
      (List.append_ne_nil_of_right_ne_nil _ (List.cons_ne_nil _ _))

lemma unsigned_sign (neg : Bool) (h : unsigned ['-'] w = w) : unsigned ['-'] (sign neg ++ w) = w := by
  cases neg with
  | false => exact h
  | true => rfl

/-- The text of a float is a numeral exactly when the float is a number. -/
lemma isWord_fixed (x : Fp) {places : ℕ} (h : 0 < places) : isWord (x.fixed places) = x.isFinite := by
  cases x with
  | nan => rfl
  | infinite neg => cases neg <;> rfl
  | finite neg mantissa exponent =>
    obtain ⟨p, rfl⟩ : ∃ p, places = p + 1 := ⟨places - 1, by omega⟩
    set n := units (p + 1) mantissa exponent with hn
    have hint : ∀ c ∈ Nat.toDigits 10 (n / 10 ^ (p + 1)), c.isDigit = true :=
      fun c hc => isDigit_of_mem_toDigits hc
    have hfrac : ∀ c ∈ (Positional.digits 10 (p + 1) n).map Nat.digitChar, c.isDigit = true :=
      fun c hc => isDigit_of_mem_places hc
    set frac := (Positional.digits 10 (p + 1) n).map Nat.digitChar with hdef
    have hne : frac ≠ [] := by
      rw [hdef, Positional.digits]
      exact List.cons_ne_nil _ _
    have hsign := unsigned_sign neg (unsigned_digits hint ('.' :: frac) Nat.toDigits_ne_nil)
    obtain ⟨htake, hdrop⟩ := takeWhile_digits (v := '.' :: frac) hint (by
      intro c hc
      cases hc
      rfl)
    obtain ⟨htake', hdrop'⟩ := takeWhile_digits (v := []) hfrac (by simp)
    rw [List.append_nil] at htake' hdrop'
    refine isWord_of_isNumeral (isNumeral_iff.mpr ?_)
    rw [fixed, ← hn, ← hdef, hsign, htake, hdrop]
    refine ⟨isInteger_toDigits _, decide_eq_true ?_⟩
    rw [htake', hdrop']
    exact ⟨hne, rfl⟩

end Fp

/-! ## Spliced strings -/

lemma replaceQuotes_cons (c : Char) (s : List Char) :
    replaceQuotes (c :: s) = (if c = '"' then ['\\', '"'] else [c]) ++ replaceQuotes s :=
  List.flatMap_cons

/-- Every quote is behind a backslash. -/
lemma guarded_replaceQuotes (s : List Char) : Guarded false (replaceQuotes s) := by
  induction s with
  | nil => trivial
  | cons c s ih =>
    rw [replaceQuotes_cons]
    split_ifs with hc
    · exact ⟨by simp, fun _ => rfl, by simpa using ih⟩
    · exact ⟨fun h => absurd h hc, ih.weaken _⟩

/-- The characters that need no escape, other than the quote. -/
def Ordinary (s : List Char) : Prop := ∀ c ∈ s, c ≠ '\\' ∧ 0x20 ≤ c.toNat

/-- A string without backslashes reads as itself, unless it has a control character. -/
lemma foldl_replaceQuotes {s : List Char} (h : '\\' ∉ s) (acc : List Char) :
    (Ordinary s → (replaceQuotes s).foldl Reading.step (.text acc) = .text (acc ++ s)) ∧
      (¬Ordinary s → (replaceQuotes s).foldl Reading.step (.text acc) = .bad) := by
  induction s generalizing acc with
  | nil =>
    exact ⟨fun _ => by simp [replaceQuotes], fun hs => absurd (fun _ hc => absurd hc List.not_mem_nil) hs⟩
  | cons c s ih =>
    have hc : c ≠ '\\' := fun heq => h (heq ▸ List.mem_cons_self)
    obtain ⟨hgood, hbad⟩ := ih (fun hmem => h (List.mem_cons_of_mem c hmem)) (acc ++ [c])
    have hsplit : Ordinary (c :: s) ↔ 0x20 ≤ c.toNat ∧ Ordinary s := by
      rw [Ordinary, List.forall_mem_cons]
      exact ⟨fun hs => ⟨hs.1.2, hs.2⟩, fun hs => ⟨⟨hc, hs.1⟩, hs.2⟩⟩
    have hstep : ((if c = '"' then ['\\', '"'] else [c]) : List Char).foldl Reading.step (.text acc) =
        if 0x20 ≤ c.toNat then .text (acc ++ [c]) else .bad := by
      by_cases hquote : c = '"'
      · subst hquote
        rfl
      · rw [if_neg hquote, List.foldl_cons, List.foldl_nil, Reading.step, if_neg hc]
        simp only [hquote, false_or]
        by_cases hlt : c.toNat < 0x20
        · rw [if_pos hlt, if_neg (by omega)]
        · rw [if_neg hlt, if_pos (by omega)]
    rw [replaceQuotes_cons, List.foldl_append, hstep, hsplit]
    by_cases hctl : 0x20 ≤ c.toNat
    · rw [if_pos hctl]
      exact ⟨fun hs => by rw [hgood hs.2, List.append_assoc, List.singleton_append],
        fun hs => hbad fun hs' => hs ⟨hctl, hs'⟩⟩
    · rw [if_neg hctl, Reading.foldl_bad]
      exact ⟨fun hs => absurd hs.1 hctl, fun _ => rfl⟩

/-- A cut falls between two characters of the string, or behind a backslash that was added. -/
lemma take_replaceQuotes (s : List Char) (n : ℕ) : ∃ m, (replaceQuotes s).take n = replaceQuotes (s.take m) ∨
    (replaceQuotes s).take n = replaceQuotes (s.take m) ++ ['\\'] := by
  induction s generalizing n with
  | nil => exact ⟨0, Or.inl (by simp [replaceQuotes])⟩
  | cons c s ih =>
    rw [replaceQuotes_cons]
    match n with
    | 0 => exact ⟨0, Or.inl (by simp [replaceQuotes])⟩
    | n + 1 =>
      by_cases hc : c = '"'
      · match n with
        | 0 => exact ⟨0, Or.inr (by simp [hc, replaceQuotes])⟩
        | n + 1 =>
          obtain ⟨m, h⟩ := ih n
          refine ⟨m + 1, ?_⟩
          rw [List.take_succ_cons, replaceQuotes_cons, if_pos hc, List.append_assoc]
          rcases h with h | h
          · exact Or.inl (by simp [h])
          · exact Or.inr (by simp [h])
      · obtain ⟨m, h⟩ := ih n
        refine ⟨m + 1, ?_⟩
        rw [List.take_succ_cons, replaceQuotes_cons, if_neg hc, List.append_assoc]
        rcases h with h | h
        · exact Or.inl (by simp [h])
        · exact Or.inr (by simp [h])

/-- A string comes through a splice: what is spliced in is, but for the backslashes added, a beginning
of the string without a backslash and without a control character, or the backslashes of the string
happen to read as escapes that spell a beginning of it. -/
def ComesThrough (body stored : List Char) : Prop :=
  (∃ m, body = replaceQuotes (stored.take m) ∧ Ordinary (stored.take m)) ∨
    '\\' ∈ stored ∧ ∃ t, decode body = some t ∧ t <+: stored

/-- What is spliced in reads as a beginning of the string exactly when the string comes through. -/
lemma comesThrough_iff (stored : List Char) (n : ℕ) :
    (∃ t, decode ((replaceQuotes stored).take n) = some t ∧ t <+: stored) ↔
      ComesThrough ((replaceQuotes stored).take n) stored := by
  have hback : ∀ m, '\\' ∉ stored → '\\' ∉ stored.take m := fun m h hmem => h (List.mem_of_mem_take hmem)
  constructor
  · rintro ⟨t, ht, hpre⟩
    by_cases hmem : '\\' ∈ stored
    · exact Or.inr ⟨hmem, t, ht, hpre⟩
    left
    obtain ⟨m, hm⟩ := take_replaceQuotes stored n
    obtain ⟨hgood, hbad⟩ := foldl_replaceQuotes (hback m hmem) []
    by_cases hord : Ordinary (stored.take m)
    · rcases hm with hm | hm
      · exact ⟨m, hm, hord⟩
      · rw [hm, decode, List.foldl_append, hgood hord] at ht
        exact absurd ht (by simp [Reading.step, Reading.result])
    · rcases hm with hm | hm
      · rw [hm, decode, hbad hord] at ht
        exact absurd ht (by simp [Reading.result])
      · rw [hm, decode, List.foldl_append, hbad hord, Reading.foldl_bad] at ht
        exact absurd ht (by simp [Reading.result])
  · rintro (⟨m, hm, hord⟩ | ⟨-, t, ht, hpre⟩)
    · have hnot : '\\' ∉ stored.take m := fun hmem => (hord _ hmem).1 rfl
      refine ⟨stored.take m, ?_, List.take_prefix _ _⟩
      rw [hm, decode, (foldl_replaceQuotes hnot []).1 hord]
      rfl
    · exact ⟨t, ht, hpre⟩

namespace Serving

variable {D : Type*} (s : Serving D)

/-! ## Rows -/

/-- The fields of a hit in an answer. -/
def fields : Row D → List Field
  | .exact e => [.quoted "subject".toList (spliced e.subject),
      .quoted "predicate".toList (spliced e.predicate), .quoted "object".toList (spliced e.object),
      .word "weight".toList (e.weight.fixed 3)]
  | .memory h => [.word "memory_id".toList (Nat.toDigits 10 h.memoryId),
      .word "score".toList ((s.score h.scored).fixed 4),
      .quoted "content".toList (splicedContent h.content)]
  | .exactLane e => [.quoted "lane".toList "exact".toList,
      .quoted "subject".toList (spliced e.subject),
      .quoted "predicate".toList (spliced e.predicate), .quoted "object".toList (spliced e.object)]
  | .fuzzyLane h => [.quoted "lane".toList "fuzzy".toList,
      .word "memory_id".toList (Nat.toDigits 10 h.memoryId),
      .word "score".toList ((s.score h.scored).fixed 4),
      .quoted "content".toList (splicedContent h.content)]

/-- The strings of a hit that an answer shows, with their keys. -/
def stored : Row D → List (List Char × List Char)
  | .exact e | .exactLane e => [("subject".toList, e.subject.toList),
      ("predicate".toList, e.predicate.toList), ("object".toList, e.object.toList)]
  | .memory h | .fuzzyLane h => [("content".toList, h.content.toList)]

/-- A value is an object in which the shown strings of a hit are beginnings of the stored ones. -/
def Describes (v : Json) (row : Row D) : Prop :=
  ∃ members, v = .obj members ∧
    ∀ p ∈ stored row, ∃ t, members.lookup p.1 = some (.str t) ∧ t <+: p.2

/-- A text is a JSON object whose hits describe some hits. -/
def Faithful (text : List Char) (rows : List (Row D)) : Prop :=
  ∃ members hits, parse text = some (.obj members) ∧ members.lookup "hits".toList = some (.arr hits) ∧
    List.Forall₂ Describes hits rows

/-- The strings of a triplet come through. -/
def TripletThrough (e : TripletEntry Fp) : Prop :=
  ComesThrough (spliced e.subject) e.subject.toList ∧
    ComesThrough (spliced e.predicate) e.predicate.toList ∧
      ComesThrough (spliced e.object) e.object.toList

/-- The strings that are shown of a hit come through, and its weight or score is a number. -/
def RowThrough : Row D → Prop
  | .exact e => TripletThrough e ∧ e.weight.isFinite = true
  | .exactLane e => TripletThrough e
  | .memory h | .fuzzyLane h =>
    ComesThrough (splicedContent h.content) h.content.toList ∧ (s.score h.scored).isFinite = true

variable {s} {row : Row D}

/-- The template of a triplet. -/
lemma exact_eq (a b c d : List Char) :
    "\x7b\"subject\":\"".toList ++ a ++ "\",\"predicate\":\"".toList ++ b ++
      "\",\"object\":\"".toList ++ c ++ "\",\"weight\":".toList ++ d ++ "\x7d".toList =
    fieldsText [.quoted "subject".toList a, .quoted "predicate".toList b,
      .quoted "object".toList c, .word "weight".toList d] := by
  simp only [fieldsText, moreFields, Field.text, Field.key, Field.filling, String.reduceToList,
    List.append_assoc, List.cons_append, List.nil_append]

/-- The template of a memory. -/
lemma memory_eq (a b c : List Char) :
    "\x7b\"memory_id\":".toList ++ a ++ ",\"score\":".toList ++ b ++ ",\"content\":\"".toList ++ c ++
      "\"\x7d".toList =
    fieldsText [.word "memory_id".toList a, .word "score".toList b, .quoted "content".toList c] := by
  simp only [fieldsText, moreFields, Field.text, Field.key, Field.filling, String.reduceToList,
    List.append_assoc, List.cons_append, List.nil_append]

/-- The template of a triplet on the exact lane. -/
lemma exactLane_eq (a b c : List Char) :
    "\x7b\"lane\":\"exact\",\"subject\":\"".toList ++ a ++ "\",\"predicate\":\"".toList ++ b ++
      "\",\"object\":\"".toList ++ c ++ "\"\x7d".toList =
    fieldsText [.quoted "lane".toList "exact".toList, .quoted "subject".toList a,
      .quoted "predicate".toList b, .quoted "object".toList c] := by
  simp only [fieldsText, moreFields, Field.text, Field.key, Field.filling, String.reduceToList,
    List.append_assoc, List.cons_append, List.nil_append]

/-- The template of a memory on the fuzzy lane. -/
lemma fuzzyLane_eq (a b c : List Char) :
    "\x7b\"lane\":\"fuzzy\",\"memory_id\":".toList ++ a ++ ",\"score\":".toList ++ b ++
      ",\"content\":\"".toList ++ c ++ "\"\x7d".toList =
    fieldsText [.quoted "lane".toList "fuzzy".toList, .word "memory_id".toList a,
      .word "score".toList b, .quoted "content".toList c] := by
  simp only [fieldsText, moreFields, Field.text, Field.key, Field.filling, String.reduceToList,
    List.append_assoc, List.cons_append, List.nil_append]

/-- The template of a hit is that of its fields. -/
lemma rowText_eq : ∀ row : Row D, s.rowText row = fieldsText (s.fields row)
  | .exact _ => exact_eq _ _ _ _
  | .memory _ => memory_eq _ _ _
  | .exactLane _ => exactLane_eq _ _ _
  | .fuzzyLane _ => fuzzyLane_eq _ _ _

variable {key : List Char}

lemma proper_number (hkey : IsKey key) (n : ℕ) : (Field.word key (Nat.toDigits 10 n)).Proper :=
  ⟨hkey, scan_word Nat.toDigits_ne_nil fun _ hc => wordChar_of_isDigit (isDigit_of_mem_toDigits hc)⟩

lemma proper_float (hkey : IsKey key) (x : Fp) (places : ℕ) :
    (Field.word key (x.fixed places)).Proper :=
  ⟨hkey, scan_word Fp.fixed_ne_nil fun _ hc => Fp.wordChar_fixed hc⟩

lemma proper_spliced (hkey : IsKey key) (x : String) : (Field.quoted key (spliced x)).Proper :=
  ⟨hkey, guarded_replaceQuotes _⟩

lemma proper_content (hkey : IsKey key) (x : String) : (Field.quoted key (splicedContent x)).Proper :=
  ⟨hkey, (guarded_replaceQuotes _).take 120⟩

lemma proper_fields (row : Row D) : ∀ f ∈ s.fields row, f.Proper := by
  cases row with
  | exact e =>
    simp only [fields, List.forall_mem_cons, List.not_mem_nil, false_implies, implies_true, and_true]
    exact ⟨proper_spliced ⟨rfl, rfl⟩ _, proper_spliced ⟨rfl, rfl⟩ _, proper_spliced ⟨rfl, rfl⟩ _,
      proper_float ⟨rfl, rfl⟩ _ _⟩
  | memory h =>
    simp only [fields, List.forall_mem_cons, List.not_mem_nil, false_implies, implies_true, and_true]
    exact ⟨proper_number ⟨rfl, rfl⟩ _, proper_float ⟨rfl, rfl⟩ _ _, proper_content ⟨rfl, rfl⟩ _⟩
  | exactLane e =>
    simp only [fields, List.forall_mem_cons, List.not_mem_nil, false_implies, implies_true, and_true]
    exact ⟨⟨⟨rfl, rfl⟩, by simp [Guarded]⟩, proper_spliced ⟨rfl, rfl⟩ _, proper_spliced ⟨rfl, rfl⟩ _,
      proper_spliced ⟨rfl, rfl⟩ _⟩
  | fuzzyLane h =>
    simp only [fields, List.forall_mem_cons, List.not_mem_nil, false_implies, implies_true, and_true]
    exact ⟨⟨⟨rfl, rfl⟩, by simp [Guarded]⟩, proper_number ⟨rfl, rfl⟩ _, proper_float ⟨rfl, rfl⟩ _ _,
      proper_content ⟨rfl, rfl⟩ _⟩

lemma spliced_eq_take (x : String) :
    spliced x = (replaceQuotes x.toList).take (replaceQuotes x.toList).length :=
  List.take_length.symm

/-- A whole string that comes through reads as a beginning of itself. -/
lemma spliced_iff (x : String) :
    (∃ t, decode (spliced x) = some t ∧ t <+: x.toList) ↔ ComesThrough (spliced x) x.toList := by
  rw [spliced_eq_take]
  exact comesThrough_iff _ _

lemma objectOf_eq_some {fs : List Field} {v : Json} :
    objectOf fs = some v ↔ ∃ ms, List.Forall₂ (fun f m => f.reading = some m) fs ms ∧ v = .obj ms := by
  rw [objectOf, Option.map_eq_some_iff]
  exact exists_congr fun ms => and_congr Lists.mapM_eq_some eq_comm

lemma reading_quoted {key body : List Char} {m : List Char × Json} :
    (Field.quoted key body).reading = some m ↔ ∃ t, decode body = some t ∧ m = (key, .str t) := by
  rw [Field.reading, Option.map_eq_some_iff]
  exact exists_congr fun t => and_congr Iff.rfl eq_comm

lemma reading_word {key w : List Char} {m : List Char × Json} :
    (Field.word key w).reading = some m ↔ isWord w = true ∧ m = (key, .word w) := by
  rw [Field.reading]
  split_ifs with hw
  · exact ⟨fun h => ⟨hw, (Option.some.inj h).symm⟩, fun h => congrArg some h.2.symm⟩
  · exact ⟨fun h => absurd h (by simp), fun h => absurd h.1 hw⟩

/-- The key of a field. -/
def keyOf : Field → List Char
  | .word key _ | .quoted key _ => key

/-- A field reads as a member, in which what is shown under its key is a beginning of a text. -/
def Shows (shown : List (List Char × List Char)) : Field → Prop
  | .word _ w => isWord w = true
  | .quoted key body => ∃ t, decode body = some t ∧ ∀ p ∈ shown, p.1 = key → t <+: p.2

/-- Fields with different keys read as an object that shows texts exactly when each of them does. -/
lemma objectOf_shows_iff {fs : List Field} (hkeys : (fs.map keyOf).Nodup)
    {shown : List (List Char × List Char)} (hshown : ∀ p ∈ shown, ∃ body, .quoted p.1 body ∈ fs) :
    (∃ v, objectOf fs = some v ∧ ∃ members, v = .obj members ∧
      ∀ p ∈ shown, ∃ t, members.lookup p.1 = some (.str t) ∧ t <+: p.2) ↔ ∀ f ∈ fs, Shows shown f := by
  have hread : ∀ {ms}, List.Forall₂ (fun f m => f.reading = some m) fs ms → ∀ {key body t},
      .quoted key body ∈ fs → decode body = some t → ms.lookup key = some (.str t) := by
    intro ms hms key body t hmem ht
    clear hshown
    induction hms with
    | nil => cases hmem
    | @cons f m fs ms hf _ ih =>
      rw [List.map_cons, List.nodup_cons] at hkeys
      have hm : m.1 = keyOf f := by
        cases f with
        | word => exact congrArg Prod.fst (reading_word.mp hf).2
        | quoted =>
          obtain ⟨_, -, rfl⟩ := reading_quoted.mp hf
          rfl
      rw [List.lookup_cons]
      rcases List.mem_cons.mp hmem with rfl | hmem
      · obtain ⟨t', ht', rfl⟩ := reading_quoted.mp hf
        rw [beq_self_eq_true, Option.some.inj (ht'.symm.trans ht)]
      · have hne : key ≠ m.1 := fun h => hkeys.1 (List.mem_map.mpr ⟨_, hmem, h.trans hm⟩)
        rw [beq_false_of_ne hne]
        exact ih hkeys.2 hmem
  constructor
  · rintro ⟨v, hv, members, rfl, hall⟩ f hf
    obtain ⟨ms, hms, heq⟩ := objectOf_eq_some.mp hv
    cases heq
    obtain ⟨m, hm⟩ : ∃ m, f.reading = some m := by
      obtain ⟨i, hi, rfl⟩ := List.getElem_of_mem hf
      exact ⟨_, hms.get hi (hms.length_eq ▸ hi)⟩
    cases f with
    | word key w => exact (reading_word.mp hm).1
    | quoted =>
      obtain ⟨t, ht, -⟩ := reading_quoted.mp hm
      refine ⟨t, ht, ?_⟩
      rintro p hp rfl
      obtain ⟨t', hlook, hpre⟩ := hall p hp
      rw [hread hms hf ht] at hlook
      cases hlook
      exact hpre
  · intro hall
    obtain ⟨ms, hms⟩ : ∃ ms, List.Forall₂ (fun f m => f.reading = some m) fs ms := by
      refine Lists.exists_forall₂ fun f hf => ?_
      cases f with
      | word key w => exact ⟨_, reading_word.mpr ⟨hall _ hf, rfl⟩⟩
      | quoted =>
        obtain ⟨t, ht, -⟩ := hall _ hf
        exact ⟨_, reading_quoted.mpr ⟨t, ht, rfl⟩⟩
    refine ⟨_, objectOf_eq_some.mpr ⟨ms, hms, rfl⟩, ms, rfl, fun p hp => ?_⟩
    obtain ⟨body, hbody⟩ := hshown p hp
    obtain ⟨t, ht, hpre⟩ := hall _ hbody
    exact ⟨t, hread hms hbody ht, hpre p hp rfl⟩

/-- A row is an object that describes its hit exactly when it comes through. -/
lemma describes_iff (row : Row D) :
    (∃ v, objectOf (s.fields row) = some v ∧ Describes v row) ↔ s.RowThrough row := by
  have hkeys : ((s.fields row).map keyOf).Nodup := by
    cases row <;> simp only [fields, List.map_cons, List.map_nil, keyOf] <;> decide
  refine (objectOf_shows_iff hkeys (by cases row <;> simp [stored, fields])).trans ?_
  have hexact : ∃ t, decode "exact".toList = some t := ⟨_, rfl⟩
  have hfuzzy : ∃ t, decode "fuzzy".toList = some t := ⟨_, rfl⟩
  cases row with
  | exact e =>
    rw [RowThrough, TripletThrough, ← spliced_iff, ← spliced_iff, ← spliced_iff,
      ← Fp.isWord_fixed e.weight (Nat.zero_lt_succ 2)]
    simp [fields, stored, Shows, and_assoc]
  | memory h =>
    rw [RowThrough, splicedContent, ← comesThrough_iff,
      ← Fp.isWord_fixed (s.score h.scored) (Nat.zero_lt_succ 3)]
    refine Iff.trans ?_ and_comm
    simp [fields, stored, Shows, splicedContent, isWord_toDigits]
  | exactLane e =>
    rw [RowThrough, TripletThrough, ← spliced_iff, ← spliced_iff, ← spliced_iff]
    simpa [fields, stored, Shows] using fun _ _ _ _ _ _ _ _ _ => hexact
  | fuzzyLane h =>
    rw [RowThrough, splicedContent, ← comesThrough_iff,
      ← Fp.isWord_fixed (s.score h.scored) (Nat.zero_lt_succ 3)]
    refine Iff.trans ?_ and_comm
    simpa [fields, stored, Shows, splicedContent, isWord_toDigits] using fun _ _ _ _ => hfuzzy

/-! ## Answers that are read -/

variable {rows : List (List Field)} {now : ℤ} {req : RecallRequest} {wide : Char → Bool}

/-- An answer with hits is an object whenever its rows are. -/
lemma parse_answer {header label : List Char} (hrows : ∀ fs ∈ rows, fs ≠ [] ∧ ∀ f ∈ fs, f.Proper)
    (hscan : scan .gap header = some ([.openBrace, .str "dispatch".toList, .colon, .str label, .comma,
      .str "token_cost".toList, .colon, .word ['0'], .comma, .str "hits".toList, .colon], .gap)) :
    parse (header ++ (rowsText rows ++ ['\x7d'])) = (rows.mapM objectOf).map fun vs =>
      .obj [("dispatch".toList, .str label), ("token_cost".toList, .word ['0']),
        ("hits".toList, .arr vs)] := by
  have hclosing : Closing ['\x7d'] := fun s => rfl
  rw [parse, lex_append hscan, lex_rowsText hrows hclosing]
  cases rows.mapM objectOf with
  | none => rfl
  | some vs =>
    have htokens := ofTokens_tokens (.obj [("dispatch".toList, .str label),
      ("token_cost".toList, .word ['0']), ("hits".toList, .arr vs)])
    rw [Option.map_some, ← htokens]
    have hend : lex .gap ['\x7d'] = some [.closeBrace] := rfl
    rw [hend]
    simp only [Option.bind_some, Option.map_some, tokens, memberTokens, moreMemberTokens,
      List.cons_append, List.nil_append]

/-- An answer about holes is an object whenever its slots are. -/
lemma parse_slots (hrows : ∀ fs ∈ rows, fs ≠ [] ∧ ∀ f ∈ fs, f.Proper) :
    parse ("\x7b\"dispatch\":\"needs_disambiguation\",\"unbound_slots\":".toList ++
      (rowsText rows ++ ",\"hits\":[]\x7d".toList)) = (rows.mapM objectOf).map fun vs =>
        .obj [("dispatch".toList, .str "needs_disambiguation".toList),
          ("unbound_slots".toList, .arr vs), ("hits".toList, .arr [])] := by
  have hclosing : Closing ",\"hits\":[]\x7d".toList := fun s => rfl
  have hscan : scan .gap "\x7b\"dispatch\":\"needs_disambiguation\",\"unbound_slots\":".toList =
      some ([.openBrace, .str "dispatch".toList, .colon, .str "needs_disambiguation".toList, .comma,
        .str "unbound_slots".toList, .colon], .gap) := rfl
  rw [parse, lex_append hscan, lex_rowsText hrows hclosing]
  cases rows.mapM objectOf with
  | none => rfl
  | some vs =>
    have htokens := ofTokens_tokens (.obj [("dispatch".toList, .str "needs_disambiguation".toList),
      ("unbound_slots".toList, .arr vs), ("hits".toList, .arr [])])
    rw [Option.map_some, ← htokens]
    have hend : lex .gap ",\"hits\":[]\x7d".toList = some [.comma, .str "hits".toList, .colon,
      .openBracket, .closeBracket, .closeBrace] := rfl
    rw [hend]
    simp only [Option.bind_some, Option.map_some, tokens, memberTokens, moreMemberTokens, itemTokens,
      List.cons_append, List.nil_append]

/-! ## Debug texts -/

/-- The debug format and the escaped quotes together leave such a character readable. -/
def DebugThrough (wide : Char → Bool) (c : Char) : Prop :=
  c ≠ '"' ∧ c ≠ '\x00' ∧ (hidden wide c = true → c = '\t' ∨ c = '\r' ∨ c = '\n')

lemma replaceQuotes_append (a b : List Char) :
    replaceQuotes (a ++ b) = replaceQuotes a ++ replaceQuotes b :=
  List.flatMap_append

/-- A character in the debug format reads on or ends it all. -/
lemma foldl_debugChar (wide : Char → Bool) (c : Char) (acc : List Char) :
    (DebugThrough wide c → ∃ acc',
      (replaceQuotes (debugChar wide c)).foldl Reading.step (.text acc) = .text acc') ∧
    (¬DebugThrough wide c →
      (replaceQuotes (debugChar wide c)).foldl Reading.step (.text acc) = .bad) := by
  unfold debugChar
  split_ifs with hnul htab hcr hlf hesc hhidden
  · exact ⟨fun h => absurd hnul h.2.1, fun _ => rfl⟩
  · exact ⟨fun _ => ⟨_, rfl⟩, fun h => absurd ⟨by rw [htab]; decide, hnul, fun _ => Or.inl htab⟩ h⟩
  · exact ⟨fun _ => ⟨_, rfl⟩, fun h => absurd ⟨by rw [hcr]; decide, hnul, fun _ => Or.inr (Or.inl hcr)⟩ h⟩
  · exact ⟨fun _ => ⟨_, rfl⟩, fun h => absurd ⟨by rw [hlf]; decide, hnul, fun _ => Or.inr (Or.inr hlf)⟩ h⟩
  · rcases hesc with rfl | rfl
    · exact ⟨fun h => absurd rfl h.1, fun _ => rfl⟩
    · refine ⟨fun _ => ⟨_, rfl⟩, fun h => absurd ⟨by decide, hnul, fun hhid => ?_⟩ h⟩
      simp [hidden] at hhid
  · refine ⟨fun h => ?_, fun _ => ?_⟩
    · rcases h.2.2 hhidden with h | h | h
      · exact absurd h htab
      · exact absurd h hcr
      · exact absurd h hlf
    · rw [replaceQuotes_append, replaceQuotes_append, List.foldl_append, List.foldl_append]
      have hbad : (replaceQuotes "\\u\x7b".toList).foldl Reading.step (.text acc) = .bad := rfl
      rw [hbad, Reading.foldl_bad, Reading.foldl_bad]
  · have hc : c ≠ '"' ∧ c ≠ '\\' := ⟨fun h => hesc (Or.inl h), fun h => hesc (Or.inr h)⟩
    have hord : Ordinary [c] := by
      intro d hd
      rw [List.mem_singleton.mp hd]
      refine ⟨hc.2, ?_⟩
      by_contra hlt
      exact hhidden (decide_eq_true (Or.inl (by omega)))
    have hnot : '\\' ∉ [c] := fun h => hc.2 (List.mem_singleton.mp h).symm
    exact ⟨fun _ => ⟨_, (foldl_replaceQuotes hnot acc).1 hord⟩,
      fun h => absurd ⟨hc.1, hnul, fun hhid => absurd hhid hhidden⟩ h⟩

/-- The context of a hole reads as a string exactly when all characters of the tool do. -/
lemma decode_context (tool : String) :
    (∃ t, decode (replaceQuotes ("causal_tool=".toList ++ debugSome wide tool)) = some t) ↔
      ∀ c ∈ tool.toList, DebugThrough wide c := by
  have hopen : ∀ rest, decode (replaceQuotes ("causal_tool=".toList ++ ("Some(\"".toList ++ rest))) =
      ((replaceQuotes rest).foldl Reading.step (.text "causal_tool=Some(\"".toList)).result := by
    intro rest
    rw [← List.append_assoc, replaceQuotes_append, decode, List.foldl_append]
    rfl
  rw [debugSome, List.append_assoc, hopen, replaceQuotes_append, List.foldl_append]
  generalize "causal_tool=Some(\"".toList = acc
  induction tool.toList generalizing acc with
  | nil => exact ⟨fun _ c hc => absurd hc List.not_mem_nil, fun _ => ⟨_, rfl⟩⟩
  | cons c tool ih =>
    rw [List.flatMap_cons, replaceQuotes_append, List.foldl_append, List.forall_mem_cons]
    obtain ⟨hgood, hbad⟩ := foldl_debugChar wide c acc
    by_cases hc : DebugThrough wide c
    · obtain ⟨acc', hacc⟩ := hgood hc
      rw [hacc]
      exact (ih acc').trans ⟨fun h => ⟨hc, h⟩, fun h => h.2⟩
    · rw [hbad hc, Reading.foldl_bad, Reading.foldl_bad]
      refine iff_of_false ?_ fun h => hc h.1
      rintro ⟨t, ht⟩
      cases ht

/-! ## Exactness -/

lemma fields_ne_nil (row : Row D) : s.fields row ≠ [] := by
  cases row <;> exact List.cons_ne_nil _ _

/-- The text of an answer with hits describes them exactly when all of them come through. -/
lemma faithful_answer {header label : List Char} (hits : List (Row D))
    (hscan : scan .gap header = some ([.openBrace, .str "dispatch".toList, .colon, .str label, .comma,
      .str "token_cost".toList, .colon, .word ['0'], .comma, .str "hits".toList, .colon], .gap)) :
    Faithful (header ++ '[' :: ([','].intercalate (hits.map s.rowText) ++ [']', '\x7d'])) hits ↔
      ∀ row ∈ hits, s.RowThrough row := by
  have hrows : ∀ fs ∈ hits.map s.fields, fs ≠ [] ∧ ∀ f ∈ fs, f.Proper := by
    intro fs hfs
    obtain ⟨row, -, rfl⟩ := List.mem_map.mp hfs
    exact ⟨fields_ne_nil row, proper_fields row⟩
  have htexts : (hits.map s.fields).map fieldsText = hits.map s.rowText := by
    rw [List.map_map]
    exact List.map_congr_left fun row _ => (rowText_eq row).symm
  have htext : header ++ '[' :: ([','].intercalate (hits.map s.rowText) ++ [']', '\x7d']) =
      header ++ (rowsText (hits.map s.fields) ++ ['\x7d']) := by
    rw [rowsText_eq, htexts]
    simp
  rw [htext, Faithful, parse_answer hrows hscan]
  constructor
  · rintro ⟨members, vs, hparse, hlookup, hall⟩ row hrow
    obtain ⟨vs', hvs, heq⟩ := Option.map_eq_some_iff.mp hparse
    cases heq
    cases (hlookup : some (Json.arr vs') = some (Json.arr vs))
    obtain ⟨i, hi, rfl⟩ := List.getElem_of_mem hrow
    have hobj := Lists.mapM_eq_some.mp hvs
    rw [List.forall₂_map_left_iff] at hobj
    have hlen := hobj.length_eq
    exact (describes_iff _).mp ⟨vs[i], hobj.get hi (by omega), hall.get (by omega) hi⟩
  · intro hall
    obtain ⟨vs, hvs⟩ := Lists.exists_forall₂ fun row hrow => (describes_iff row).mpr (hall row hrow)
    refine ⟨_, vs, Option.map_eq_some_iff.mpr ⟨vs, Lists.mapM_eq_some.mpr ?_, rfl⟩, rfl, ?_⟩
    · rw [List.forall₂_map_left_iff]
      exact hvs.imp fun _ _ h => h.1
    · exact (hvs.imp fun _ _ h => h.2).flip

/-- The template of a hole. -/
lemma slot_eq (a b : List Char) :
    "\x7b\"slot\":\"".toList ++ a ++ "\",\"context\":\"".toList ++ b ++ "\"\x7d".toList =
    fieldsText [.quoted "slot".toList a, .quoted "context".toList b] := by
  simp only [fieldsText, moreFields, Field.text, Field.key, Field.filling, String.reduceToList,
    List.append_assoc, List.cons_append, List.nil_append]

/-- The text about a hole is an object without hits exactly when its context reads as a string. -/
lemma faithful_slot (name context : List Char) (hname : Guarded false name)
    (hdecode : ∃ t, decode name = some t) :
    Faithful ("\x7b\"dispatch\":\"needs_disambiguation\",\"unbound_slots\":[".toList ++
      [','].intercalate ([UnboundSlot.mk name context].map slotText) ++ "],\"hits\":[]\x7d".toList)
        ([] : List (Row D)) ↔ ∃ t, decode (replaceQuotes context) = some t := by
  obtain ⟨x, hx⟩ := hdecode
  have hrows : ∀ fs ∈ [[Field.quoted "slot".toList name,
      .quoted "context".toList (replaceQuotes context)]], fs ≠ [] ∧ ∀ f ∈ fs, f.Proper := by
    intro fs hfs
    rw [List.mem_singleton.mp hfs]
    refine ⟨List.cons_ne_nil _ _, ?_⟩
    simp only [List.forall_mem_cons, List.not_mem_nil, false_implies, implies_true, and_true]
    exact ⟨⟨⟨rfl, rfl⟩, hname⟩, ⟨⟨rfl, rfl⟩, guarded_replaceQuotes _⟩⟩
  have hslot : slotText ⟨name, context⟩ =
      fieldsText [.quoted "slot".toList name, .quoted "context".toList (replaceQuotes context)] :=
    slot_eq name (replaceQuotes context)
  have htext : "\x7b\"dispatch\":\"needs_disambiguation\",\"unbound_slots\":[".toList ++
      [','].intercalate ([UnboundSlot.mk name context].map slotText) ++ "],\"hits\":[]\x7d".toList =
      "\x7b\"dispatch\":\"needs_disambiguation\",\"unbound_slots\":".toList ++
        (rowsText [[.quoted "slot".toList name, .quoted "context".toList (replaceQuotes context)]] ++
          ",\"hits\":[]\x7d".toList) := by
    rw [rowsText_eq, List.map_singleton, List.map_singleton, hslot]
    simp
  rw [htext, Faithful, parse_slots hrows]
  constructor
  · rintro ⟨members, vs, hparse, -, -⟩
    obtain ⟨vs', hvs, -⟩ := Option.map_eq_some_iff.mp hparse
    rcases Lists.mapM_eq_some.mp hvs with _ | ⟨hobj, -⟩
    obtain ⟨ms, hms, -⟩ := objectOf_eq_some.mp hobj
    rcases hms with _ | ⟨-, _ | ⟨h₂, -⟩⟩
    obtain ⟨t, ht, -⟩ := reading_quoted.mp h₂
    exact ⟨t, ht⟩
  · rintro ⟨t, ht⟩
    refine ⟨_, [], Option.map_eq_some_iff.mpr ⟨_, Lists.mapM_eq_some.mpr (.cons (objectOf_eq_some.mpr
      ⟨_, .cons (reading_quoted.mpr ⟨x, hx, rfl⟩) (.cons (reading_quoted.mpr ⟨t, ht, rfl⟩) .nil), rfl⟩)
        .nil), rfl⟩, rfl, .nil⟩

/-- A request is about holes in two cases. -/
lemma route_cases (wide : Char → Bool) (req : RecallRequest) :
    (∃ tool, req.causalTool = some tool ∧ req.causalEntity = none ∧ route wide req =
      .needsDisambiguation [⟨"causal_entity".toList, "causal_tool=".toList ++ debugSome wide tool⟩]) ∨
    (∀ tool, req.causalTool = some tool → req.causalEntity ≠ none) ∧
      (route wide req = .needsDisambiguation [⟨"query_target".toList,
        "no subject, predicate, freetext, causal pair, or time range provided".toList⟩] ∨
        ∀ slots, route wide req ≠ .needsDisambiguation slots) := by
  unfold route
  cases htool : req.causalTool with
  | some tool =>
    cases hentity : req.causalEntity with
    | some entity => exact Or.inr ⟨fun _ _ => by simp, Or.inr fun slots => by simp⟩
    | none => exact Or.inl ⟨tool, rfl, rfl, rfl⟩
  | none =>
    refine Or.inr ⟨fun tool h => (by simp at h), ?_⟩
    dsimp only
    split_ifs
    · exact Or.inr fun slots => by simp
    · exact Or.inr fun slots => by simp
    · exact Or.inr fun slots => by simp
    · exact Or.inr fun slots => by simp
    · exact Or.inr fun slots => by simp
    · exact Or.inl rfl

/-- The answer that the triplets are loading is an object without hits. -/
lemma faithful_loading {dispatch : DispatchKind} (h : s.loading dispatch = true) :
    Faithful ("\x7b\"dispatch_label\":\"".toList ++ dispatch.label ++
      "\",\"loading\":true,\"phase\":\"triplets\",\"retry_after_s\":1,\"hits\":[]\x7d".toList)
        ([] : List (Row D)) := by
  have hfaithful : ∀ {text : List Char} (label : List Char),
      lex .gap text = some (Json.obj [("dispatch_label".toList, .str label),
        ("loading".toList, .word "true".toList), ("phase".toList, .str "triplets".toList),
        ("retry_after_s".toList, .word ['1']), ("hits".toList, .arr [])]).tokens →
      Faithful text ([] : List (Row D)) := by
    intro text label hlex
    have hparse : parse text = some (.obj [("dispatch_label".toList, .str label),
        ("loading".toList, .word "true".toList), ("phase".toList, .str "triplets".toList),
        ("retry_after_s".toList, .word ['1']), ("hits".toList, .arr [])]) := by
      rw [parse, hlex, Option.bind_some, ofTokens_tokens]
    exact ⟨_, [], hparse, rfl, .nil⟩
  cases dispatch with
  | exact => exact hfaithful "exact".toList (by decide +kernel)
  | hybrid => exact hfaithful "hybrid".toList (by decide +kernel)
  | fuzzy => exact absurd h Bool.false_ne_true
  | temporal => exact absurd h Bool.false_ne_true
  | causal => exact absurd h Bool.false_ne_true
  | needsDisambiguation slots => exact absurd h Bool.false_ne_true

/-- **Routed recall, exactly.**  The answer is one JSON object that shows beginnings of the stored
strings exactly when every hit shown comes through: its strings hold no backslash and no control
character where they are shown, no cut is right behind an added backslash (or the backslashes of a
string happen to spell a beginning of it), its weight or score is a number; and the debug format
leaves the tool of a request without an entity readable. -/
theorem routed_exact (s : Serving D) (now : ℤ) (req : RecallRequest) (wide : Char → Bool) :
    Faithful (s.routedRecall now req wide) (s.rows now req wide) ↔
      (∀ row ∈ s.rows now req wide, s.RowThrough row) ∧
        ∀ tool, req.causalTool = some tool → req.causalEntity = none →
          ∀ c ∈ tool.toList, DebugThrough wide c := by
  unfold routedRecall rows
  dsimp only
  rcases route_cases wide req with ⟨tool, htool, hentity, hroute⟩ | ⟨hcausal, hroute | hroute⟩
  · -- a tool without an entity
    have hslot := faithful_slot (D := D) "causal_entity".toList
      ("causal_tool=".toList ++ debugSome wide tool) (by simp [Guarded]) ⟨_, rfl⟩
    have hload : ¬s.loading (.needsDisambiguation
      [⟨"causal_entity".toList, "causal_tool=".toList ++ debugSome wide tool⟩]) = true :=
      Bool.false_ne_true
    rw [hroute, if_neg hload, if_neg hload, laneRows]
    refine hslot.trans ((decode_context tool).trans ?_)
    rw [htool, hentity]
    exact ⟨fun h => ⟨fun _ hrow => absurd hrow List.not_mem_nil, fun _ heq _ => Option.some.inj heq ▸ h⟩,
      fun h => h.2 tool rfl rfl⟩
  · -- nothing is bound
    have hslot := faithful_slot (D := D) "query_target".toList
      "no subject, predicate, freetext, causal pair, or time range provided".toList
      (by simp [Guarded]) ⟨_, rfl⟩
    have hload : ¬s.loading (.needsDisambiguation [⟨"query_target".toList,
      "no subject, predicate, freetext, causal pair, or time range provided".toList⟩]) = true :=
      Bool.false_ne_true
    rw [hroute, if_neg hload, if_neg hload, laneRows]
    refine ⟨fun _ => ⟨fun _ hrow => absurd hrow List.not_mem_nil,
      fun tool heq hnone => absurd hnone (hcausal tool heq)⟩, fun _ => hslot.mpr ?_⟩
    exact ⟨"no subject, predicate, freetext, causal pair, or time range provided".toList,
      by decide +kernel⟩
  · -- an answer with hits
    have hright : ∀ P : Prop, (P ∧ ∀ tool, req.causalTool = some tool → req.causalEntity = none →
        ∀ c ∈ tool.toList, DebugThrough wide c) ↔ P := fun P =>
      ⟨fun h => h.1, fun h => ⟨h, fun tool heq hnone => absurd hnone (hcausal tool heq)⟩⟩
    rw [hright]
    by_cases hload : s.loading (route wide req) = true
    · rw [if_pos hload, if_pos hload]
      exact ⟨fun _ _ hrow => absurd hrow List.not_mem_nil, fun _ => faithful_loading hload⟩
    · rw [if_neg hload, if_neg hload]
      have hanswer : ∀ (label : List Char) (hits : List (Row D)),
          scan .gap ("\x7b\"dispatch\":\"".toList ++ label ++ "\",\"token_cost\":0,\"hits\":".toList) =
            some ([.openBrace, .str "dispatch".toList, .colon, .str label, .comma,
              .str "token_cost".toList, .colon, .word ['0'], .comma, .str "hits".toList, .colon], .gap) →
          (Faithful ("\x7b\"dispatch\":\"".toList ++ label ++ "\",\"token_cost\":0,\"hits\":[".toList ++
            [','].intercalate (hits.map s.rowText) ++ "]\x7d".toList) hits ↔
              ∀ row ∈ hits, s.RowThrough row) := by
        intro label hits hscan
        rw [← faithful_answer hits hscan]
        generalize [','].intercalate (hits.map s.rowText) = texts
        simp
      generalize route wide req = dispatch at hroute hload ⊢
      cases dispatch with
      | exact => exact hanswer _ _ rfl
      | fuzzy => exact hanswer _ _ rfl
      | temporal => exact hanswer _ _ rfl
      | causal => exact hanswer _ _ rfl
      | hybrid => exact hanswer _ _ rfl
      | needsDisambiguation slots => exact absurd rfl (hroute slots)

/-- A memory with the content `digits \d+` makes the answer to a free text no JSON. -/
theorem backslash_is_no_json : ∃ (s : Serving Unit) (now : ℤ) (req : RecallRequest) (wide : Char → Bool),
    ¬Faithful (s.routedRecall now req wide) (s.rows now req wide) := by
  refine ⟨⟨true, ⟨⟨true, none, ∅, none, [], fun _ => none, fun _ => none, fun _ => none,
      fun _ => none⟩, 1, fun _ => none, fun _ => none, false, none⟩,
    fun _ _ => some [⟨1, 0, "episode", "default", "digits \\d+", ()⟩],
    fun _ _ _ => none, fun _ _ _ => none, fun _ => .finite false 1 0⟩, 0,
    ⟨none, none, some "digits", none, none, none, none, 1⟩, fun _ => false, ?_⟩
  rintro ⟨members, hits, hparse, -⟩
  have hnone := congrArg Option.isNone hparse
  rw [Option.isNone_some] at hnone
  revert hnone
  decide +kernel

end Serving

end ChittaField
