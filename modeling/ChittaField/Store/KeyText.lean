import ChittaField.Lib.Lanes
import ChittaField.Store.Live

/-!
# Keys in texts

Records of three kinds are found by exact keys that their texts carry: what is done, by the hash and
the path of its input; a correction, by the pairs of words of the mistake; a task, by its slug.
-/

namespace ChittaField

/-! ## Texts -/

/-- The white space of Unicode. -/
def isWhitespace (c : Char) : Bool :=
  (9 ≤ c.toNat && c.toNat ≤ 13) || (0x2000 ≤ c.toNat && c.toNat ≤ 0x200a) ||
    [0x20, 0x85, 0xa0, 0x1680, 0x2028, 0x2029, 0x202f, 0x205f, 0x3000].contains c.toNat

/-- Drop the characters of a kind from both ends. -/
def trimMatches (p : Char → Bool) (s : List Char) : List Char :=
  ((s.dropWhile p).reverse.dropWhile p).reverse

/-- Drop white space from both ends. -/
def trim (s : List Char) : List Char := trimMatches isWhitespace s

/-- The words between white space. -/
def splitWhitespace (s : List Char) : List (List Char) :=
  (s.splitOnP isWhitespace).filter (· ≠ [])

/-- The lines.  They may still end in a carriage return: whoever reads them drops white space. -/
def lines (s : List Char) : List (List Char) :=
  let parts := s.splitOnP (· == '\n')
  if parts.getLast? = some [] then parts.dropLast else parts

/-- What follows a prefix. -/
def stripPrefix (pre : String) (s : List Char) : Option (List Char) :=
  if pre.toList <+: s then some (s.drop pre.toList.length) else none

/-- Drop a prefix as often as it is there. -/
def trimStartMatches (pre : String) : ℕ → List Char → List Char
  | 0, s => s
  | n + 1, s =>
    match stripPrefix pre s with
    | some rest => trimStartMatches pre n rest
    | none => s

def toAsciiLowercase (s : List Char) : List Char := s.map Char.toLower

def isAsciiHexdigit (c : Char) : Bool :=
  c.isDigit || ('a' ≤ c && c ≤ 'f') || ('A' ≤ c && c ≤ 'F')

/-- The text of some bytes. -/
def fromUtf8 (content : Bytes) : Option (List Char) :=
  (String.fromUTF8? ⟨content.toArray⟩).map String.toList

/-! ## What is done -/

/-- The key in a word of a record of what is done. -/
def provKeyOf (tok : List Char) : Option String :=
  match stripPrefix "sha:" tok with
  | some v =>
    let v := trimMatches (!·.isAlphanum) v
    if 6 ≤ v.length ∧ v.all isAsciiHexdigit then
      some (String.ofList ("sha:".toList ++ toAsciiLowercase v))
    else none
  | none =>
    match stripPrefix "input:" tok with
    | some v =>
      let v := trimMatches (fun c => c == '\x22' || c == ',') v
      if v ≠ [] then some (String.ofList ("input:".toList ++ v)) else none
    | none => none

/-- The keys of a record of what is done. -/
def parseProvKeys (content : Bytes) : List String :=
  match fromUtf8 content with
  | none => []
  | some text =>
    if "[done]".toList <+: text then (splitWhitespace text).filterMap provKeyOf else []

/-- The keys that a hash and a path are looked up by. -/
def provCandidates (sha input : String) : List String :=
  let sha := trim sha.toList
  let input := trim input.toList
  (if sha ≠ [] then
    [String.ofList ("sha:".toList ++ toAsciiLowercase ((stripPrefix "sha:" sha).getD sha))] else []) ++
  (if input ≠ [] then
    [String.ofList ("input:".toList ++ (stripPrefix "input:" input).getD input)] else [])

/-! ## Corrections -/

def correctionStopwords : List String :=
  ["use", "not", "the", "and", "for", "with", "was", "are", "you", "your", "that", "this", "from",
    "into", "but", "its", "to", "of", "in", "on", "at", "by", "is", "it", "as", "or", "be", "do",
    "so", "an", "if", "we", "my", "can", "how", "what", "should", "have", "need", "want", "about",
    "check", "run", "dont", "get", "make", "did", "does", "could", "would", "will", "our", "no",
    "yes"]

/-- The words that say something. -/
def normCorrectionTokens (s : List Char) : List (List Char) :=
  (splitWhitespace (s.map fun c => if c.isAlphanum then c.toLower else ' ')).filter fun t =>
    2 ≤ t.length && !correctionStopwords.contains (String.ofList t)

/-- A correction without its metadata and without paths. -/
def cleanCorrectionText (s : List Char) : List Char :=
  let metadata := ["kind:", "tags:", "visibility:", "realm:", "source_session:", "confidence:"]
  let kept := (lines s).filter fun l =>
    metadata.all fun pre => !pre.toList.isPrefixOf (toAsciiLowercase (trim l))
  [' '].intercalate ((kept.flatMap splitWhitespace).filter fun w => !w.contains '/')

def isQuote (c : Char) : Bool := [0x22, 0x201c, 0x201d].contains c.toNat

/-- The first quotation, if it has at least two words. -/
def firstQuotedSpan (text : List Char) : Option (List Char) :=
  (text.findIdx? isQuote).bind fun start =>
    let rest := text.drop (start + 1)
    (rest.findIdx? isQuote).bind fun stop =>
      let span := rest.take stop
      if 2 ≤ (splitWhitespace span).length then some span else none

/-- The keys of the neighboring words. -/
def correctionBigramKeys (tokens : List (List Char)) : List String :=
  (tokens.zip tokens.tail).map fun w =>
    String.ofList ("correction:bg:".toList ++ w.1 ++ '_' :: w.2)

/-- Sorted, and without repetitions. -/
def sortedKeys (keys : List String) : List String := (keys.insertionSort (· ≤ ·)).dedup

/-- The mistake that a correction is about. -/
def correctedMistake (text : List Char) : List Char :=
  ((lines text).findSome? fun l =>
    (stripPrefix "NOT:" (trim l)).or (stripPrefix "WRONG:" (trim l))).getD
      ((firstQuotedSpan text).getD (trimStartMatches "[correction]" text.length text))

/-- The keys of a correction. -/
def parseCorrectionKeys (content : Bytes) : List String :=
  match fromUtf8 content with
  | none => []
  | some text =>
    if ¬"[correction".toList <+: toAsciiLowercase (text.take 11) then []
    else
      let keys := sortedKeys
        (correctionBigramKeys (normCorrectionTokens (cleanCorrectionText (correctedMistake text))))
      if keys.length < 2 then [] else keys

/-! ## Tasks -/

/-- The key of a task. -/
def normTaskKey (slug : List Char) : Option String :=
  let s := toAsciiLowercase ((trim slug).filter fun c =>
    c.isAlphanum || c == '.' || c == '_' || c == '-')
  if s = [] then none else some (String.ofList ("task:".toList ++ s))

/-- The keys of the record of a task. -/
def parseTaskKeys (content : Bytes) : List String :=
  match fromUtf8 content with
  | none => []
  | some text =>
    if ¬"[task]".toList <+: text then []
    else
      ((splitWhitespace text).findSome? fun tok =>
        ((stripPrefix "id:" tok).or (stripPrefix "task:" tok)).bind normTaskKey).toList

/-! ## Gates on the bytes -/

/-- The bytes of an ASCII text. -/
def asciiBytes (pre : List Char) : Bytes := pre.map fun c => c.toNat.toUInt8

def startsWithBytes (pre : String) (content : Bytes) : Bool :=
  (asciiBytes pre.toList).isPrefixOf content

def lowerByte (b : UInt8) : UInt8 := if 65 ≤ b && b ≤ 90 then b + 32 else b

/-- The first eleven bytes are the start of a correction, in any case. -/
def isCorrectionLead (content : Bytes) : Bool :=
  11 ≤ content.length &&
    (content.take 11).map lowerByte == asciiBytes "[correction".toList

variable {content : Bytes}

/-- Text is decoded from its encoding. -/
lemma bytes_of_fromUtf8 {text : List Char} (h : fromUtf8 content = some text) :
    content = text.flatMap String.utf8EncodeChar := by
  unfold fromUtf8 at h
  obtain ⟨s, hs, rfl⟩ := Option.map_eq_some_iff.mp h
  unfold String.fromUTF8? at hs
  split at hs
  · obtain rfl := Option.some.inj hs
    rename_i hvalid
    have hencode := congrArg (·.data.toList)
      (String.utf8Encode_toList (b := String.fromUTF8 ⟨content.toArray⟩ hvalid))
    have hbytes : (String.fromUTF8 ⟨content.toArray⟩ hvalid).toByteArray.data.toList =
        (String.fromUTF8 ⟨content.toArray⟩ hvalid).toList.flatMap String.utf8EncodeChar := by
      simpa [List.utf8Encode] using hencode.symm
    exact hbytes
  · cases hs

/-- An ASCII text starts another if its bytes do. -/
lemma asciiBytes_prefix {pre text : List Char} (hascii : ∀ c ∈ pre, c.toNat < 128)
    (h : pre <+: text) : asciiBytes pre <+: text.flatMap String.utf8EncodeChar := by
  obtain ⟨rest, rfl⟩ := h
  have hpre : pre.flatMap String.utf8EncodeChar = asciiBytes pre := by
    induction pre with
    | nil => rfl
    | cons c pre ih =>
      have hsize : c.utf8Size = 1 := by
        have hc := hascii c (List.mem_cons_self ..)
        refine Char.utf8Size_eq_one_iff.mpr (UInt32.le_iff_toNat_le.mpr ?_)
        exact Nat.le_of_lt_succ hc
      rw [List.flatMap_cons, String.utf8EncodeChar_eq_singleton hsize,
        ih (List.forall_mem_cons.mp hascii).2]
      rfl
  rw [List.flatMap_append, hpre]
  exact List.prefix_append _ _

/-- The characters of a text that is checked one by one. -/
lemma ascii_of_all {text : List Char} (h : (text.all fun c => c.toNat < 128) = true) :
    ∀ c ∈ text, c.toNat < 128 :=
  fun c hc => of_decide_eq_true (List.all_eq_true.mp h c hc)

lemma startsWithBytes_of_prefix {pre : String} (hascii : ∀ c ∈ pre.toList, c.toNat < 128)
    {text : List Char} (htext : fromUtf8 content = some text) (h : pre.toList <+: text) :
    startsWithBytes pre content = true := by
  rw [startsWithBytes, List.isPrefixOf_iff_prefix, bytes_of_fromUtf8 htext]
  exact asciiBytes_prefix hascii h

/-- Only texts that pass the gate have keys of what is done. -/
lemma gate_of_mem_parseProvKeys {k : String} (h : k ∈ parseProvKeys content) :
    startsWithBytes "[done]" content = true := by
  unfold parseProvKeys at h
  split at h
  · cases h
  · rename_i text htext
    split at h
    · rename_i hpre
      exact startsWithBytes_of_prefix (ascii_of_all (by decide)) htext hpre
    · cases h

/-- Only texts that pass the gate have the key of a task. -/
lemma gate_of_mem_parseTaskKeys {k : String} (h : k ∈ parseTaskKeys content) :
    startsWithBytes "[task]" content = true := by
  unfold parseTaskKeys at h
  split at h
  · cases h
  · rename_i text htext
    split at h
    · cases h
    · rename_i hpre
      exact startsWithBytes_of_prefix (ascii_of_all (by decide)) htext (not_not.mp hpre)

/-- A character whose lower case is ASCII is ASCII, and its byte has that lower case. -/
lemma lowerByte_of_toLower {c : Char} (h : c.toLower.toNat < 128) :
    c.toNat < 128 ∧ lowerByte c.toNat.toUInt8 = c.toLower.toNat.toUInt8 := by
  have hascii : c.toNat < 128 := by
    unfold Char.toLower at h
    split at h
    · rename_i hupper
      have hle : c.val.toNat ≤ 'Z'.val.toNat := UInt32.le_iff_toNat_le.mp hupper.2
      exact lt_of_le_of_lt hle (by decide)
    · exact h
  have hall : ∀ n < 128, lowerByte n.toUInt8 = (Char.ofNat n).toLower.toNat.toUInt8 := by
    decide +kernel
  have hc := hall c.toNat hascii
  rw [Char.ofNat_toNat] at hc
  exact ⟨hascii, hc⟩

/-- Only texts that pass the gate have keys of a correction. -/
lemma gate_of_mem_parseCorrectionKeys {k : String} (h : k ∈ parseCorrectionKeys content) :
    isCorrectionLead content = true := by
  unfold parseCorrectionKeys at h
  split at h
  · cases h
  · rename_i text htext
    split at h
    · cases h
    · rename_i hpre
      have hlower : toAsciiLowercase (text.take 11) = "[correction".toList := by
        refine ((not_not.mp hpre).eq_of_length_le ?_).symm
        simp [toAsciiLowercase]
      have hbytes : ∀ c ∈ text.take 11, c.toNat < 128 ∧
          lowerByte c.toNat.toUInt8 = c.toLower.toNat.toUInt8 := by
        intro c hc
        refine lowerByte_of_toLower ?_
        have hmem : c.toLower ∈ "[correction".toList := hlower ▸ List.mem_map_of_mem hc
        exact ascii_of_all (by decide) _ hmem
      have hprefix := asciiBytes_prefix (fun c hc => (hbytes c hc).1) (List.take_prefix 11 text)
      rw [← bytes_of_fromUtf8 htext] at hprefix
      have hlength : (asciiBytes (text.take 11)).length = 11 := by
        have := congrArg List.length hlower
        simpa [toAsciiLowercase, asciiBytes] using this
      have htake := (List.prefix_iff_eq_take.mp hprefix).symm
      rw [hlength] at htake
      have hle : 11 ≤ content.length := hlength ▸ hprefix.length_le
      rw [isCorrectionLead, htake, Bool.and_eq_true, beq_iff_eq]
      refine ⟨decide_eq_true hle, ?_⟩
      rw [← hlower, asciiBytes, asciiBytes, toAsciiLowercase, List.map_map, List.map_map]
      exact List.map_congr_left fun c hc => (hbytes c hc).2

end ChittaField
