import Mathlib.Data.Nat.Notation

/-!
# JSON texts

The JSON values, and a reader of texts in two stages: a scanner that runs through the text
character by character, with the decoding of the escapes in its strings, and a parser of the
tokens.  The parser inverts the writing of a value as tokens (`ofTokens_tokens`), and the scanner runs
through a text piece by piece (`scan_append`).
-/

/-- A JSON value; the literals and the numerals are kept as they are spelled. -/
inductive Json where
  | word (w : List Char)
  | str (s : List Char)
  | arr (items : List Json)
  | obj (members : List (List Char × Json))

namespace Json

/-! ## Tokens -/

/-- A token of a text. -/
inductive Token where
  | openBrace
  | closeBrace
  | openBracket
  | closeBracket
  | colon
  | comma
  | word (w : List Char)
  | str (s : List Char)
  deriving DecidableEq

mutual

/-- The tokens of a value. -/
def tokens : Json → List Token
  | .word w => [.word w]
  | .str s => [.str s]
  | .arr items => .openBracket :: itemTokens items
  | .obj members => .openBrace :: memberTokens members

/-- The tokens of the items of an array, up to its end. -/
def itemTokens : List Json → List Token
  | [] => [.closeBracket]
  | v :: items => v.tokens ++ moreItemTokens items

/-- The tokens behind an item of an array, up to its end. -/
def moreItemTokens : List Json → List Token
  | [] => [.closeBracket]
  | v :: items => .comma :: (v.tokens ++ moreItemTokens items)

/-- The tokens of the members of an object, up to its end. -/
def memberTokens : List (List Char × Json) → List Token
  | [] => [.closeBrace]
  | (key, v) :: members => .str key :: .colon :: (v.tokens ++ moreMemberTokens members)

/-- The tokens behind a member of an object, up to its end. -/
def moreMemberTokens : List (List Char × Json) → List Token
  | [] => [.closeBrace]
  | (key, v) :: members => .comma :: .str key :: .colon :: (v.tokens ++ moreMemberTokens members)

end

mutual

/-- Read a value off the front of some tokens. -/
def value : ℕ → List Token → Option (Json × List Token)
  | 0, _ => none
  | _ + 1, .word w :: rest => some (.word w, rest)
  | _ + 1, .str s :: rest => some (.str s, rest)
  | n + 1, .openBracket :: rest => (items n rest).map fun p => (.arr p.1, p.2)
  | n + 1, .openBrace :: rest => (members n rest).map fun p => (.obj p.1, p.2)
  | _ + 1, _ => none

/-- Read the items of an array and its end. -/
def items : ℕ → List Token → Option (List Json × List Token)
  | 0, _ => none
  | _ + 1, .closeBracket :: rest => some ([], rest)
  | n + 1, rest => (value n rest).bind fun p => (moreItems n p.2).map fun q => (p.1 :: q.1, q.2)

/-- Read what stands behind an item of an array. -/
def moreItems : ℕ → List Token → Option (List Json × List Token)
  | 0, _ => none
  | _ + 1, .closeBracket :: rest => some ([], rest)
  | n + 1, .comma :: rest =>
    (value n rest).bind fun p => (moreItems n p.2).map fun q => (p.1 :: q.1, q.2)
  | _ + 1, _ => none

/-- Read the members of an object and its end. -/
def members : ℕ → List Token → Option (List (List Char × Json) × List Token)
  | 0, _ => none
  | _ + 1, .closeBrace :: rest => some ([], rest)
  | n + 1, .str key :: .colon :: rest =>
    (value n rest).bind fun p => (moreMembers n p.2).map fun q => ((key, p.1) :: q.1, q.2)
  | _ + 1, _ => none

/-- Read what stands behind a member of an object. -/
def moreMembers : ℕ → List Token → Option (List (List Char × Json) × List Token)
  | 0, _ => none
  | _ + 1, .closeBrace :: rest => some ([], rest)
  | n + 1, .comma :: .str key :: .colon :: rest =>
    (value n rest).bind fun p => (moreMembers n p.2).map fun q => ((key, p.1) :: q.1, q.2)
  | _ + 1, _ => none

end

/-- The value that some tokens are. -/
def ofTokens (ts : List Token) : Option Json :=
  match value (ts.length + 1) ts with
  | some (v, []) => some v
  | _ => none

lemma length_tokens_pos (v : Json) : 0 < v.tokens.length := by
  cases v <;> simp [tokens]

lemma length_moreItemTokens_pos (xs : List Json) : 0 < (moreItemTokens xs).length := by
  cases xs <;> simp [moreItemTokens]

lemma items_cons (n : ℕ) (v : Json) (rest : List Token) :
    items (n + 1) (v.tokens ++ rest) = (value n (v.tokens ++ rest)).bind fun p =>
      (moreItems n p.2).map fun q => (p.1 :: q.1, q.2) := by
  cases v <;> simp [tokens, items]

mutual

/-- A value is read back from its tokens, whatever follows them. -/
lemma value_tokens (v : Json) (rest : List Token) (n : ℕ) (h : v.tokens.length ≤ n) :
    value n (v.tokens ++ rest) = some (v, rest) := by
  obtain ⟨n, rfl⟩ : ∃ m, n = m + 1 := ⟨n - 1, by have := length_tokens_pos v; omega⟩
  cases v with
  | word w => rfl
  | str s => rfl
  | arr xs =>
    have hle : (itemTokens xs).length ≤ n := by simpa [tokens] using h
    simp [tokens, value, items_tokens xs rest n hle]
  | obj ms =>
    have hle : (memberTokens ms).length ≤ n := by simpa [tokens] using h
    simp [tokens, value, members_tokens ms rest n hle]
termination_by sizeOf v

lemma items_tokens (xs : List Json) (rest : List Token) (n : ℕ) (h : (itemTokens xs).length ≤ n) :
    items n (itemTokens xs ++ rest) = some (xs, rest) := by
  cases xs with
  | nil =>
    obtain ⟨n, rfl⟩ : ∃ m, n = m + 1 := ⟨n - 1, by simp [itemTokens] at h; omega⟩
    rfl
  | cons v xs =>
    have hv := length_tokens_pos v
    have hxs := length_moreItemTokens_pos xs
    rw [itemTokens, List.length_append] at h
    obtain ⟨n, rfl⟩ : ∃ m, n = m + 1 := ⟨n - 1, by omega⟩
    rw [itemTokens, List.append_assoc, items_cons, value_tokens v _ n (by omega), Option.bind_some,
      moreItems_tokens xs rest n (by omega), Option.map_some]
termination_by sizeOf xs

lemma moreItems_tokens (xs : List Json) (rest : List Token) (n : ℕ)
    (h : (moreItemTokens xs).length ≤ n) :
    moreItems n (moreItemTokens xs ++ rest) = some (xs, rest) := by
  obtain ⟨n, rfl⟩ : ∃ m, n = m + 1 := ⟨n - 1, by have := length_moreItemTokens_pos xs; omega⟩
  cases xs with
  | nil => rfl
  | cons v xs =>
    have hv := length_tokens_pos v
    rw [moreItemTokens, List.length_cons, List.length_append] at h
    rw [moreItemTokens, List.cons_append, List.append_assoc, moreItems,
      value_tokens v _ n (by omega), Option.bind_some, moreItems_tokens xs rest n (by omega),
      Option.map_some]
termination_by sizeOf xs

lemma members_tokens : ∀ (ms : List (List Char × Json)) (rest : List Token) (n : ℕ),
    (memberTokens ms).length ≤ n → members n (memberTokens ms ++ rest) = some (ms, rest)
  | [], rest, n, h => by
    obtain ⟨n, rfl⟩ : ∃ m, n = m + 1 := ⟨n - 1, by simp [memberTokens] at h; omega⟩
    rfl
  | (key, v) :: ms, rest, n, h => by
    have hv := length_tokens_pos v
    rw [memberTokens, List.length_cons, List.length_cons, List.length_append] at h
    obtain ⟨n, rfl⟩ : ∃ m, n = m + 1 := ⟨n - 1, by omega⟩
    rw [memberTokens, List.cons_append, List.cons_append, List.append_assoc, members,
      value_tokens v _ n (by omega), Option.bind_some, moreMembers_tokens ms rest n (by omega),
      Option.map_some]
termination_by ms => sizeOf ms

lemma moreMembers_tokens : ∀ (ms : List (List Char × Json)) (rest : List Token) (n : ℕ),
    (moreMemberTokens ms).length ≤ n →
      moreMembers n (moreMemberTokens ms ++ rest) = some (ms, rest)
  | [], rest, n, h => by
    obtain ⟨n, rfl⟩ : ∃ m, n = m + 1 := ⟨n - 1, by simp [moreMemberTokens] at h; omega⟩
    rfl
  | (key, v) :: ms, rest, n, h => by
    have hv := length_tokens_pos v
    rw [moreMemberTokens, List.length_cons, List.length_cons, List.length_cons,
      List.length_append] at h
    obtain ⟨n, rfl⟩ : ∃ m, n = m + 1 := ⟨n - 1, by omega⟩
    rw [moreMemberTokens, List.cons_append, List.cons_append, List.cons_append, List.append_assoc,
      moreMembers, value_tokens v _ n (by omega), Option.bind_some,
      moreMembers_tokens ms rest n (by omega), Option.map_some]
termination_by ms => sizeOf ms

end

/-- The tokens of a value are those of that value only. -/
theorem ofTokens_tokens (v : Json) : ofTokens v.tokens = some v := by
  have hvalue := value_tokens v [] (v.tokens.length + 1) (Nat.le_succ _)
  rw [List.append_nil] at hvalue
  rw [ofTokens, hvalue]

/-! ## Strings -/

/-- The character that a simple escape stands for. -/
def simpleEscape : Char → Option Char
  | '"' => some '"'
  | '\\' => some '\\'
  | '/' => some '/'
  | 'b' => some '\x08'
  | 'f' => some '\x0c'
  | 'n' => some '\n'
  | 'r' => some '\r'
  | 't' => some '\t'
  | _ => none

/-- The value of a hexadecimal digit. -/
def hexDigit (c : Char) : Option ℕ :=
  if '0' ≤ c ∧ c ≤ '9' then some (c.toNat - 48)
  else if 'a' ≤ c ∧ c ≤ 'f' then some (c.toNat - 87)
  else if 'A' ≤ c ∧ c ≤ 'F' then some (c.toNat - 55)
  else none

/-- How far a string is read: what it says so far, and the escape that is open. -/
inductive Reading where
  | text (s : List Char)
  /-- Behind a backslash. -/
  | escape (s : List Char)
  /-- Within the digits of a `\u` escape, which may follow a leading surrogate. -/
  | hex (s : List Char) (lead : Option ℕ) (digits n : ℕ)
  /-- Behind a leading surrogate. -/
  | surrogate (s : List Char) (n : ℕ)
  /-- Behind a leading surrogate and a backslash. -/
  | surrogateEscape (s : List Char) (n : ℕ)
  /-- Not a string. -/
  | bad
  deriving DecidableEq

namespace Reading

/-- What a complete `\u` escape adds. -/
def unit (s : List Char) (lead : Option ℕ) (n : ℕ) : Reading :=
  match lead with
  | none =>
    if 0xD800 ≤ n ∧ n < 0xDC00 then .surrogate s n
    else if 0xDC00 ≤ n ∧ n < 0xE000 then bad
    else .text (s ++ [Char.ofNat n])
  | some m =>
    if 0xDC00 ≤ n ∧ n < 0xE000 then
      .text (s ++ [Char.ofNat (0x10000 + (m - 0xD800) * 0x400 + (n - 0xDC00))])
    else bad

/-- Read a character of a string. -/
def step : Reading → Char → Reading
  | .text s, c =>
    if c = '\\' then .escape s else if c = '"' ∨ c.toNat < 0x20 then bad else .text (s ++ [c])
  | .escape s, c =>
    match simpleEscape c with
    | some x => .text (s ++ [x])
    | none => if c = 'u' then .hex s none 0 0 else bad
  | .hex s lead digits n, c =>
    match hexDigit c with
    | none => bad
    | some d => if digits < 3 then .hex s lead (digits + 1) (16 * n + d) else unit s lead (16 * n + d)
  | .surrogate s n, c => if c = '\\' then .surrogateEscape s n else bad
  | .surrogateEscape s n, c => if c = 'u' then .hex s (some n) 0 0 else bad
  | .bad, _ => bad

/-- The string, if no escape is open. -/
def result : Reading → Option (List Char)
  | .text s => some s
  | _ => none

@[simp] lemma foldl_bad (body : List Char) : body.foldl step bad = bad := by
  induction body with
  | nil => rfl
  | cons c body ih => rw [List.foldl_cons, step, ih]

end Reading

/-- What the characters between two quotes say. -/
def decode (body : List Char) : Option (List Char) := (body.foldl Reading.step (.text [])).result

/-! ## Literals and numerals -/

/-- Digits without a zero in front. -/
def isInteger (ds : List Char) : Bool := ds = ['0'] ∨ ds ≠ [] ∧ ds.head? ≠ some '0'

/-- A word without the sign in front, if it has one. -/
def unsigned (signs : List Char) : List Char → List Char
  | [] => []
  | c :: w => if c ∈ signs then w else c :: w

/-- An exponent, or nothing. -/
def isExponent : List Char → Bool
  | [] => true
  | e :: w =>
    (e = 'e' ∨ e = 'E') ∧ unsigned ['+', '-'] w ≠ [] ∧ (unsigned ['+', '-'] w).all Char.isDigit

/-- A fraction and an exponent, each of which may be missing. -/
def isFraction : List Char → Bool
  | '.' :: w => w.takeWhile Char.isDigit ≠ [] ∧ isExponent (w.dropWhile Char.isDigit)
  | w => isExponent w

/-- A numeral. -/
def isNumeral (w : List Char) : Bool :=
  isInteger ((unsigned ['-'] w).takeWhile Char.isDigit) ∧
    isFraction ((unsigned ['-'] w).dropWhile Char.isDigit)

/-- A literal or a numeral. -/
def isWord (w : List Char) : Bool :=
  w = "null".toList ∨ w = "true".toList ∨ w = "false".toList ∨ isNumeral w

lemma isNumeral_iff {w : List Char} : isNumeral w = true ↔
    isInteger ((unsigned ['-'] w).takeWhile Char.isDigit) = true ∧
      isFraction ((unsigned ['-'] w).dropWhile Char.isDigit) = true :=
  decide_eq_true_iff

lemma isWord_of_isNumeral {w : List Char} (h : isNumeral w = true) : isWord w = true :=
  decide_eq_true (Or.inr (Or.inr (Or.inr h)))

/-! ## The scanner -/

/-- Where the scanner stands: between tokens, in a bare word, or in a string. -/
inductive Mode where
  | gap
  | bare (w : List Char)
  | inside (r : Reading)
  deriving DecidableEq

/-- The token that a character is. -/
def mark : Char → Option Token
  | '\x7b' => some .openBrace
  | '\x7d' => some .closeBrace
  | '[' => some .openBracket
  | ']' => some .closeBracket
  | ':' => some .colon
  | ',' => some .comma
  | _ => none

/-- A blank. -/
def isBlank (c : Char) : Bool := c = ' ' ∨ c = '\t' ∨ c = '\n' ∨ c = '\r'

/-- Between tokens: the token that the character is, if it is one, and where the scanner is then. -/
def stepGap (c : Char) : List Token × Mode :=
  if c = '"' then ([], .inside (.text []))
  else if isBlank c then ([], .gap)
  else match mark c with
    | some t => ([t], .gap)
    | none => ([], .bare [c])

/-- Scan a character. -/
def step : Mode → Char → Option (List Token × Mode)
  | .gap, c => some (stepGap c)
  | .bare w, c =>
    match stepGap c with
    | (_, .bare _) => some ([], .bare (w ++ [c]))
    | (ts, m) => if isWord w then some (.word w :: ts, m) else none
  | .inside r, c =>
    match r with
    | .text s => if c = '"' then some ([.str s], .gap) else some ([], .inside (r.step c))
    | _ => some ([], .inside (r.step c))

/-- Scan some characters. -/
def scan : Mode → List Char → Option (List Token × Mode)
  | m, [] => some ([], m)
  | m, c :: cs => (step m c).bind fun p => (scan p.2 cs).map fun q => (p.1 ++ q.1, q.2)

/-- The tokens that are left at the end of a text. -/
def finish : Mode → Option (List Token)
  | .gap => some []
  | .bare w => if isWord w then some [.word w] else none
  | .inside _ => none

/-- The tokens of a text that the scanner has come to. -/
def lex (m : Mode) (text : List Char) : Option (List Token) :=
  (scan m text).bind fun p => (finish p.2).map (p.1 ++ ·)

/-- The value that a text is. -/
def parse (text : List Char) : Option Json := (lex .gap text).bind ofTokens

end Json
