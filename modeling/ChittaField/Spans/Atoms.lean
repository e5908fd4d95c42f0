import Mathlib.Algebra.Order.Ring.Nat
import Mathlib.Data.List.Infix
import ChittaField.Lib.Regex

/-!
# Atoms of a text

What is taken from a line or from a memory: paths, addresses, places in files, issues, commands and
errors, as they stand there.  Every atom is clamped, and then secrets in it are redacted.
-/

namespace ChittaField.Spans

/-- A text, character by character. -/
abbrev Text := List Char

/-- The bytes of a text. -/
def utf8Bytes (t : Text) : List UInt8 := t.flatMap String.utf8EncodeChar

/-- The number of bytes of a text. -/
def utf8Len (t : Text) : ℕ := (t.map Char.utf8Size).sum

/-- A text contains another one. -/
def contains (t part : Text) : Bool := decide (part <:+: t)

/-- Put a text in the place of another one, from left to right. -/
def replace (t part by_ : Text) : Text := (Regex.literal part).replaceAll (fun _ => by_) t

/-- The characters with the property `White_Space`. -/
def isSpace (c : Char) : Bool :=
  let n := c.toNat
  (9 ≤ n && n ≤ 13) || n = 0x20 || n = 0x85 || n = 0xA0 || n = 0x1680 || (0x2000 ≤ n && n ≤ 0x200A) ||
    n = 0x2028 || n = 0x2029 || n = 0x202F || n = 0x205F || n = 0x3000

/-- A text without the white space around it. -/
def trim (t : Text) : Text := ((t.dropWhile isSpace).reverse.dropWhile isSpace).reverse

/-- What the code takes from libraries: the tables of characters, as far as they are used, the decoding
of bytes that need not be text, and the engine that cuts a text into the matches of an expression and
the characters between them. -/
structure Unicode where
  word : Char → Bool
  digit : Char → Bool
  alphanumeric : Char → Bool
  lowercase : Text → Text
  decode : List UInt8 → Text
  cut : Regex Char → Text → List (Char ⊕ Regex.Found Char)

/-- The engine reads expressions leftmost-first. -/
def Unicode.LeftmostFirst (u : Unicode) : Prop := ∀ r text, u.cut r text = r.pieces text

/-- The tables, for texts of ASCII characters. -/
def Unicode.ascii : Unicode where
  word c := c.isAlphanum || c = '_'
  digit := Char.isDigit
  alphanumeric := Char.isAlphanum
  lowercase := List.map Char.toLower
  decode bytes := bytes.map fun b => Char.ofNat b.toNat
  cut := Regex.pieces

/-! ## Classes of atoms -/

/-- The class of an atom. -/
inductive SpanClass where
  | path
  | url
  | uuid
  | hex
  | issue
  | fileline
  | bash
  | error
  deriving DecidableEq

/-- The number of a class. -/
def SpanClass.code : SpanClass → ℕ
  | path => 0
  | url => 1
  | uuid => 2
  | hex => 3
  | issue => 4
  | fileline => 5
  | bash => 6
  | error => 7

/-- An atom: its class and its text. -/
abbrev Atom := SpanClass × Text

/-! ## Patterns -/

section Patterns

open Regex

variable (u : Unicode)

/-- The characters of a word. -/
def lit (s : String) : Regex Char := literal s.toList

/-- One of some characters. -/
def oneOf (s : String) (c : Char) : Bool := s.toList.contains c

def lower (c : Char) : Bool := 'a' ≤ c && c ≤ 'z'

def upper (c : Char) : Bool := 'A' ≤ c && c ≤ 'Z'

def decimal (c : Char) : Bool := '0' ≤ c && c ≤ '9'

/-- Symbols, as many as there are. -/
def many (p : Char → Bool) : Regex Char := repeated (symbol p) 0 none

/-- Symbols, as many as there are, and at least some number. -/
def atLeast (n : ℕ) (p : Char → Bool) : Regex Char := repeated (symbol p) n none

/-- Expressions one behind the other. -/
def sequence : List (Regex Char) → Regex Char
  | [] => empty
  | [r] => r
  | r :: rs => seq r (sequence rs)

/-- The expression `(?:/[\w.@+-]+){n,}`. -/
def segments (n : ℕ) : Regex Char :=
  repeated (seq (lit "/") (atLeast 1 fun c => u.word c || oneOf ".@+-" c)) n none

def pathRegex : Regex Char := segments u 3

def homeRegex : Regex Char := seq (lit "~") (segments u 2)

def urlRegex : Regex Char :=
  sequence [lit "http", repeated (symbol (· = 's')) 0 (some 1), lit "://",
    atLeast 1 fun c => !(isSpace c || oneOf ")\"'<>\\" c)]

def filelineRegex : Regex Char :=
  sequence [boundary u.word, atLeast 1 (fun c => u.word c || oneOf "./-" c), lit ".",
    anyOf (["rs", "py", "cpp", "hpp", "cc", "cxx", "c", "h", "js", "ts", "tsx", "jsx", "go", "java",
      "sh", "toml", "json", "md", "txt", "yaml", "yml", "rb", "php", "lua", "sql", "proto"].map lit),
    lit ":", atLeast 1 u.digit, boundary u.word]

def issueRegex : Regex Char := seq (lit "#") (atLeast 8 u.digit)

/-- A character of a string of JSON, or two where it is escaped. -/
def jsonUnit : Regex Char :=
  alt (symbol fun c => !oneOf "\"\\" c) (seq (symbol (· = '\\')) (symbol (· ≠ '\n')))

def bashRegex : Regex Char :=
  sequence [lit "\"command\"", many isSpace, lit ":", many isSpace, lit "\"",
    group (repeated jsonUnit 1 (some 4000)), lit "\""]

def errorRegex : Regex Char :=
  seq
    (anyOf [sequence [lit "error[E", atLeast 1 u.digit, lit "]"], lit "panicked at",
      lit "Traceback (most recent", sequence [lit "thread '", many (· ≠ '\n'), lit "' panicked"],
      seq (atLeast 1 fun c => upper c || lower c || c = '.') (lit "Error:"),
      seq (atLeast 1 fun c => upper c || lower c || c = '.') (lit "Exception:")])
    (repeated (symbol (· ≠ '\n')) 0 (some 300))

def cwdRegex : Regex Char :=
  sequence [lit "\"cwd\"", many isSpace, lit ":", many isSpace, lit "\"", group (atLeast 1 (· ≠ '"')),
    lit "\""]

end Patterns

/-! ## Extraction -/

/-- Paths of temporary files, of builds and of dependencies. -/
def isNoisePath (p : Text) : Bool :=
  300 < utf8Len p ||
    ["/tmp/", "/proc/", "/sys/", "/dev/", "/.cache/", "/node_modules/", "/.git/", "/target/",
      "/__pycache__/", "/.venv/", "/site-packages/"].any fun n => contains p n.toList

/-- Decode a string of JSON: four replacements, one after the other. -/
def unescapeJson (s : Text) : Text :=
  let s := replace s ['\\', '"'] ['"']
  let s := replace s ['\\', 'n'] [' ']
  let s := replace s ['\\', 't'] [' ']
  replace s ['\\', '\\'] ['\\']

/-- The matches in a text. -/
def Unicode.findIter (u : Unicode) (r : Regex Char) (text : Text) : List (Regex.Found Char) :=
  (u.cut r text).filterMap Sum.getRight?

lemma Unicode.LeftmostFirst.findIter_eq {u : Unicode} (h : u.LeftmostFirst) (r : Regex Char)
    (text : Text) : u.findIter r text = r.findIter text := by
  rw [Unicode.findIter, h]
  rfl

/-- The texts that an expression matches. -/
def matched (u : Unicode) (r : Regex Char) (text : Text) : List Text :=
  (u.findIter r text).map (·.text)

/-- All atoms of a text. -/
def extractAtoms (u : Unicode) (text : Text) : List Atom :=
  (matched u (filelineRegex u) text).map (.fileline, ·) ++
    ((matched u (pathRegex u) text).filter fun p => !isNoisePath p).map (.path, ·) ++
    ((matched u (homeRegex u) text).filter fun p => !isNoisePath p).map (.path, ·) ++
    (matched u urlRegex text).map (.url, ·) ++
    (matched u (issueRegex u) text).map (.issue, ·) ++
    (((u.findIter bashRegex text).filterMap (·.captured)).map fun cmd => (.bash, unescapeJson cmd)) ++
    (matched u (errorRegex u) text).map (.error, ·)

/-- The longest beginning whose characters all start before a number of bytes. -/
def startingBefore : ℕ → Text → Text
  | _, [] => []
  | limit, c :: t => if 0 < limit then c :: startingBefore (limit - c.utf8Size) t else []

def clampUtf8 (s : Text) (max : ℕ) : Text := if utf8Len s ≤ max then s else startingBefore max s

/-- The number of bytes that atoms of a class are clamped to. -/
def SpanClass.clamp : SpanClass → ℕ
  | bash => 300
  | _ => 512

/-! ## Redaction -/

section Redaction

open Regex

variable (u : Unicode)

/-- A letter, whichever its case: two letters have a third form. -/
def anyCase (l c : Char) : Bool :=
  c = l || c = l.toUpper || (l = 'k' && c.toNat = 0x212A) || (l = 's' && c.toNat = 0x17F)

/-- The letters of a word, whichever their case. -/
def litAnyCase (s : String) : Regex Char := sequence (s.toList.map fun l => symbol (anyCase l))

/-- The characters of a key, whichever their case. -/
def keyChar (c : Char) : Bool := c = '_' || upper c || lower c || c.toNat = 0x212A || c.toNat = 0x17F

def urlCreds : Regex Char :=
  sequence [group (sequence [symbol lower, many (fun c => lower c || decimal c || oneOf "+.-" c),
      lit "://"]),
    atLeast 1 (fun c => !(c = '/' || isSpace c || c = ':' || c = '@')), lit ":",
    atLeast 1 (fun c => !(c = '/' || isSpace c || c = '@')), lit "@"]

def awsKey : Regex Char :=
  sequence [boundary u.word, anyOf [lit "AKIA", lit "ASIA"],
    repeated (symbol fun c => decimal c || upper c) 16 (some 16), boundary u.word]

def ghToken : Regex Char :=
  sequence [boundary u.word, lit "gh", symbol (oneOf "pousr"), lit "_",
    atLeast 36 (fun c => upper c || lower c || decimal c), boundary u.word]

/-- A character of a part of a token. -/
def jwtChar (c : Char) : Bool := upper c || lower c || decimal c || oneOf "_-" c

def jwt : Regex Char :=
  sequence [boundary u.word, lit "eyJ", atLeast 10 jwtChar, lit ".", atLeast 10 jwtChar, lit ".",
    atLeast 6 jwtChar, boundary u.word]

/-- The words that make the name of a key secret. -/
def secretWord : Regex Char :=
  let dash := repeated (symbol (oneOf "_-")) 0 (some 1)
  anyOf [litAnyCase "secret", litAnyCase "token", litAnyCase "passwd", litAnyCase "password",
    sequence [litAnyCase "api", dash, litAnyCase "key"],
    sequence [litAnyCase "access", dash, litAnyCase "key"],
    sequence [litAnyCase "private", dash, litAnyCase "key"], litAnyCase "bearer"]

def secretValue : Regex Char :=
  sequence [boundary u.word, group (sequence [many keyChar, secretWord, many keyChar]),
    many isSpace, symbol (oneOf "=:"), many isSpace, atLeast 1 (fun c => !isSpace c)]

/-- What a match is replaced by: what it has captured, and a mark. -/
def mark (s : String) (f : Found Char) : Text := f.captured.getD [] ++ s.toList

/-- The shapes of secrets, in the order in which they are redacted, with their marks. -/
def redactors : List (Regex Char × String) :=
  [(urlCreds, "<redacted:creds>@"), (awsKey u, "<redacted:aws>"), (ghToken u, "<redacted:ghtoken>"),
    (jwt u, "<redacted:jwt>"), (secretValue u, "=<redacted>")]

/-- Redact one shape; whether anything was redacted. -/
def redactShape (out : Text × Bool) (redactor : Regex Char × String) : Text × Bool :=
  let next := (u.cut redactor.1 out.1).flatMap (Sum.elim (fun c => [c]) (mark redactor.2))
  (next, out.2 || next ≠ out.1)

/-- Redact known shapes of secrets; nothing, if nothing but secrets is left. -/
def redact (s : Text) : Option (Text × Bool) :=
  let out := (redactors u).foldl (redactShape u) (s, false)
  let residue := ["<redacted:creds>", "<redacted:aws>", "<redacted:ghtoken>", "<redacted:jwt>",
    "<redacted>"].foldl (fun t tag => replace t tag.toList []) out.1
  if utf8Len (trim residue) < 3 then none else some out

end Redaction

/-! ## Realms -/

/-- The realm of a working directory: what follows `/repos/`, else the last part. -/
def realmFromCwd (cwd : Text) : Text :=
  let name := (cwd.tails.find? ("/repos/".toList.isPrefixOf ·)).map fun rest =>
    (rest.drop 7).takeWhile (· ≠ '/')
  match name.filter (· ≠ []) with
  | some name => name
  | none => ((cwd.splitOn '/').reverse.find? (· ≠ [])).getD "brahman".toList

/-- The working directory that a line names. -/
def extractCwd (u : Unicode) (line : Text) : Option Text :=
  (u.findIter cwdRegex line).head?.bind (·.captured)

end ChittaField.Spans
