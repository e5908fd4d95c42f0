import Mathlib.Data.Finset.Sort
import ChittaField.Lib.Replayed
import ChittaField.Spans.Atoms

/-!
# The store of spans

A span is an atom with the places of transcripts where it was seen and the memories whose texts have
it.  Spans are found by their hashes, those of a memory by the memory, and candidates of a query by
trigrams.  A span that nothing points at any more becomes a tombstone; a save drops the tombstones
when they are many.
-/

namespace ChittaField.Spans

/-! ## Spans -/

structure Locator where
  sessionIdx : ℕ
  line : ℕ
  realmId : ℕ
  tsMs : ℤ
  deriving DecidableEq

structure RealmOcc where
  realmId : ℕ
  count : ℕ
  deriving DecidableEq

structure SpanEntry where
  text : Text
  cls : SpanClass
  count : ℕ
  firstMs : ℤ
  lastMs : ℤ
  realms : List RealmOcc
  locators : List Locator
  memRefs : List ℕ
  deriving DecidableEq

/-- The atom that a span is about. -/
def SpanEntry.atom (e : SpanEntry) : Atom := (e.cls, e.text)

def SpanEntry.isDead (e : SpanEntry) : Bool := e.text = [] || (e.locators = [] && e.memRefs = [])

/-- One more, up to the largest number of 32 bits. -/
def saturatingSucc (n : ℕ) : ℕ := min (n + 1) (2 ^ 32 - 1)

/-- Count an occurrence in a realm. -/
def addOcc (realmId : ℕ) : List RealmOcc → List RealmOcc
  | [] => [⟨realmId, 1⟩]
  | r :: rest =>
    if r.realmId = realmId then { r with count := saturatingSucc r.count } :: rest
    else r :: addOcc realmId rest

/-- Add a place where an atom was seen.  Of more than four places the two oldest and the two newest
stay. -/
def addLocator (locs : List Locator) (l : Locator) : List Locator :=
  if locs.any fun l' => l'.sessionIdx = l.sessionIdx && l'.line = l.line then locs
  else if locs.length < 4 then locs ++ [l]
  else
    let locs := (locs ++ [l]).mergeSort fun a b => a.tsMs ≤ b.tsMs
    locs.eraseIdx (locs.length / 2)

/-- The newest place, one of the realm if there is one. -/
def pickLocator (locs : List Locator) (realm : Option ℕ) : Option Locator :=
  let best := (locs.filter fun l => realm.all (l.realmId = ·)).foldl (fun best l =>
    match best with
    | some (b : Locator) => if l.tsMs ≤ b.tsMs then some b else some l
    | none => some l) none
  best.or (locs.foldl (fun best l =>
    match best with
    | some (b : Locator) => if b.tsMs ≤ l.tsMs then some l else some b
    | none => some l) none)

structure IngestStats where
  lines : ℕ
  rawSpans : ℕ
  newSpans : ℕ
  redacted : ℕ
  skippedInjection : ℕ
  deriving DecidableEq

/-- Nothing was ingested. -/
def IngestStats.default : IngestStats := ⟨0, 0, 0, 0, 0⟩

/-- The store.  What is saved stands first; the rest is rebuilt. -/
structure SpanStore where
  spans : List SpanEntry
  realmDict : List Text
  sessionDict : List Text
  watermarks : Text → Option (ℕ × ℕ)
  memWatermarks : ℕ → Option ℕ
  byHash : ℕ → Option ℕ
  memAdjacency : ℕ → Option (List ℕ)
  realmIdx : Text → Option ℕ
  sessionIdx : Text → Option ℕ
  trigram : ℕ → Finset ℕ
  trigramIndexed : ℕ
  dirty : Bool

/-- What a file of spans holds. -/
structure SavedSpans where
  spans : List SpanEntry
  realmDict : List Text
  sessionDict : List Text
  watermarks : Text → Option (ℕ × ℕ)
  memWatermarks : ℕ → Option ℕ

/-- The hash of an atom. -/
def atomHash (hash : ℕ → Text → ℕ) (a : Atom) : ℕ := hash a.1.code a.2

namespace SpanStore

variable (u : Unicode) (hash : ℕ → Text → ℕ)

/-! ## Tables that are rebuilt -/

/-- Index a span, unless it is a tombstone. -/
def index (s : SpanStore) (p : SpanEntry × ℕ) : SpanStore :=
  if p.1.text = [] then s
  else
    { s with
      byHash := Function.update s.byHash (atomHash hash p.1.atom) (some p.2)
      memAdjacency := p.1.memRefs.foldl (fun adj mid =>
        Function.update adj mid (some ((adj mid).getD [] ++ [p.2]))) s.memAdjacency }

/-- Rebuild the tables that are not saved.  The id of a realm has 16 bits. -/
def reindex (s : SpanStore) : SpanStore :=
  let s := s.spans.zipIdx.foldl (index hash)
    { s with
      trigram := fun _ => ∅
      trigramIndexed := 0
      byHash := fun _ => none
      memAdjacency := fun _ => none }
  { s with
    realmIdx := s.realmDict.zipIdx.foldl (fun idx p =>
      Function.update idx p.1 (some (p.2 % 2 ^ 16))) fun _ => none
    sessionIdx := s.sessionDict.zipIdx.foldl (fun idx p =>
      Function.update idx p.1 (some p.2)) fun _ => none }

/-- Load a file; without one the store is empty. -/
def load (file : Option SavedSpans) : SpanStore :=
  let f := file.getD ⟨[], [], [], fun _ => none, fun _ => none⟩
  reindex hash ⟨f.spans, f.realmDict, f.sessionDict, f.watermarks, f.memWatermarks, fun _ => none,
    fun _ => none, fun _ => none, fun _ => none, fun _ => ∅, 0, false⟩

/-- What a save writes. -/
def saved (s : SpanStore) : SavedSpans :=
  ⟨s.spans, s.realmDict, s.sessionDict, s.watermarks, s.memWatermarks⟩

/-- Drop the tombstones, if they are more than a quarter. -/
def maybeCompact (s : SpanStore) : SpanStore :=
  let dead := s.spans.countP (·.text = [])
  if dead = 0 ∨ dead * 4 ≤ s.spans.length then s
  else reindex hash { s with spans := s.spans.filter (·.text ≠ []) }

/-! ## Inserting -/

def internRealm (s : SpanStore) (realm : Text) : ℕ × SpanStore :=
  match s.realmIdx realm with
  | some id => (id, s)
  | none =>
    let id := s.realmDict.length % 2 ^ 16
    (id, { s with
      realmDict := s.realmDict ++ [realm]
      realmIdx := Function.update s.realmIdx realm (some id) })

def internSession (s : SpanStore) (session : Text) : ℕ × SpanStore :=
  match s.sessionIdx session with
  | some id => (id, s)
  | none =>
    let id := s.sessionDict.length
    (id, { s with
      sessionDict := s.sessionDict ++ [session]
      sessionIdx := Function.update s.sessionIdx session (some id) })

/-- The span of an atom, as far as its hash leads to it. -/
def lookup (s : SpanStore) (a : Atom) : Option (ℕ × SpanEntry) :=
  match s.byHash (atomHash hash a) with
  | some i =>
    match s.spans[i]? with
    | some e => if e.cls = a.1 ∧ e.text = a.2 then some (i, e) else none
    | none => none
  | none => none

/-- Append a span. -/
def push (s : SpanStore) (e : SpanEntry) : SpanStore :=
  { s with
    spans := s.spans ++ [e]
    byHash := Function.update s.byHash (atomHash hash e.atom) (some s.spans.length) }

/-- Insert an atom of a transcript; whether there is a new span. -/
def insertSpan (s : SpanStore) (a : Atom) (l : Locator) : SpanStore × Bool :=
  match s.lookup hash a with
  | some (i, e) =>
    ({ s with spans := s.spans.set i { e with
        count := saturatingSucc e.count
        firstMs := min l.tsMs e.firstMs
        lastMs := max l.tsMs e.lastMs
        realms := addOcc l.realmId e.realms
        locators := addLocator e.locators l } }, false)
  | none => (s.push hash ⟨a.2, a.1, 1, l.tsMs, l.tsMs, [⟨l.realmId, 1⟩], [l], []⟩, true)

/-- Note that a memory has a span. -/
def link (s : SpanStore) (m i : ℕ) : SpanStore :=
  { s with
    memAdjacency := Function.update s.memAdjacency m (some ((s.memAdjacency m).getD [] ++ [i])) }

/-- Insert an atom of a memory; whether there is a new span. -/
def insertSpanMem (s : SpanStore) (a : Atom) (realmId m : ℕ) : SpanStore × Bool :=
  match s.lookup hash a with
  | some (i, e) =>
    if m ∈ e.memRefs then
      ({ s with spans := s.spans.set i { e with realms := addOcc realmId e.realms } }, false)
    else
      ({ s.link m i with spans := s.spans.set i { e with
          memRefs := e.memRefs ++ [m]
          realms := addOcc realmId e.realms } }, false)
  | none => ((s.push hash ⟨a.2, a.1, 1, 0, 0, [⟨realmId, 1⟩], [], [m]⟩).link m s.spans.length, true)

/-! ## Memories -/

/-- Drop the reference of a memory to a span; without any other reference the span becomes a
tombstone. -/
def dropRef (m : ℕ) (s : SpanStore) (i : ℕ) : SpanStore :=
  match s.spans[i]? with
  | none => s
  | some e =>
    let e' := { e with memRefs := e.memRefs.filter (· ≠ m) }
    if e'.isDead ∧ e'.text ≠ [] then
      { s with
        byHash := Function.update s.byHash (atomHash hash e'.atom) none
        spans := s.spans.set i { e' with text := [], realms := [], locators := [], memRefs := [] } }
    else { s with spans := s.spans.set i e' }

/-- Remove all references of a memory; how many there were. -/
def unlinkMemory (s : SpanStore) (m : ℕ) : SpanStore × ℕ :=
  match s.memAdjacency m with
  | none =>
    ({ s with
      memWatermarks := Function.update s.memWatermarks m none
      dirty := s.dirty || (s.memWatermarks m).isSome }, 0)
  | some indices =>
    let s' := indices.foldl (dropRef hash m)
      { s with memAdjacency := Function.update s.memAdjacency m none }
    ({ s' with memWatermarks := Function.update s'.memWatermarks m none, dirty := true },
      indices.length)

/-- What is stored of an atom: it is clamped, then redacted. -/
def storedAtom (a : Atom) : Option (Atom × Bool) :=
  (redact u (clampUtf8 a.2 a.1.clamp)).map fun r => ((a.1, r.1), r.2)

/-- The atoms that are stored of a text. -/
def storedAtoms (text : Text) : List Atom :=
  (extractAtoms u text).filterMap fun a => (storedAtom u a).map (·.1)

/-- Ingest an atom of a memory. -/
def ingestMemoryAtom (realmId m : ℕ) (p : SpanStore × IngestStats) (a : Atom) :
    SpanStore × IngestStats :=
  let stats := { p.2 with rawSpans := p.2.rawSpans + 1 }
  match storedAtom u a with
  | some (red, wasRed) =>
    let (s, new) := p.1.insertSpanMem hash red realmId m
    (s, { stats with
      redacted := stats.redacted + wasRed.toNat
      newSpans := stats.newSpans + new.toNat })
  | none => (p.1, { stats with redacted := stats.redacted + 1 })

/-- Link the spans of a memory's text.  A text with the hash of the last one is skipped. -/
def ingestMemory (s : SpanStore) (m : ℕ) (text realm : Text) : SpanStore × IngestStats :=
  let contentHash := hash 0 text
  if s.memWatermarks m = some contentHash then (s, .default)
  else
    let s := if (s.memWatermarks m).isSome then (s.unlinkMemory hash m).1 else s
    let (realmId, s) := s.internRealm realm
    let (s, stats) := (extractAtoms u text).foldl (ingestMemoryAtom u hash realmId m) (s, .default)
    ({ s with
      memWatermarks := Function.update s.memWatermarks m (some contentHash)
      dirty := true }, stats)

/-! ## Transcripts -/

/-- A file: when it was changed, and its bytes. -/
structure TranscriptFile where
  modifiedMs : ℤ
  data : List UInt8

/-- Ingest an atom of a line, unless enough were harvested of it. -/
def ingestLineAtom (l : Locator) (p : SpanStore × IngestStats × ℕ) (a : Atom) :
    SpanStore × IngestStats × ℕ :=
  if 64 ≤ p.2.2 then p
  else
    let stats := { p.2.1 with rawSpans := p.2.1.rawSpans + 1 }
    match storedAtom u a with
    | some (red, wasRed) =>
      let (s, new) := p.1.insertSpan hash red l
      (s, { stats with
        redacted := stats.redacted + wasRed.toNat
        newSpans := stats.newSpans + new.toNat }, p.2.2 + 1)
    | none => (p.1, { stats with redacted := stats.redacted + 1 }, p.2.2)

/-- A line that the system has put into the transcript itself. -/
def isInjected (text : Text) : Bool :=
  contains text "UserPromptSubmit hook additional context".toList ||
    contains text "[soul-context]".toList || contains text "[recall:".toList

/-- The realm of a line. -/
def lineRealm (text : Text) : Text := ((extractCwd u text).map realmFromCwd).getD "brahman".toList

/-- The part of a line that is looked at. -/
def scanned (text : Text) : Text := clampUtf8 text 200000

def ingestLine (s : SpanStore) (stats : IngestStats) (line : List UInt8) (sessionIdx lineNo : ℕ)
    (tsMs : ℤ) : SpanStore × IngestStats :=
  if line = [] then (s, stats)
  else
    let text := u.decode line
    if isInjected text then (s, { stats with skippedInjection := stats.skippedInjection + 1 })
    else
      let (realmId, s) := s.internRealm (lineRealm u text)
      let (s, stats, _) := (extractAtoms u (scanned text)).foldl
        (ingestLineAtom u hash ⟨sessionIdx, lineNo, realmId, tsMs⟩) (s, stats, 0)
      (s, stats)

/-- The lines that end in the data, and how many bytes they have with their ends. -/
def completeLines (data : List UInt8) : List (List UInt8) × ℕ :=
  let lines := (data.splitOn 10).dropLast
  (lines, (lines.map (·.length + 1)).sum)

/-- Where to read on in a file: its bytes and lines that were ingested, unless it has shrunk. -/
def startAt (s : SpanStore) (path : Text) (size : ℕ) : ℕ × ℕ :=
  let start := (s.watermarks path).getD (0, 0)
  if size < start.1 then (0, 0) else start

/-- Ingest one line more. -/
def ingestNextLine (sessionIdx : ℕ) (tsMs : ℤ) (p : SpanStore × IngestStats × ℕ)
    (line : List UInt8) : SpanStore × IngestStats × ℕ :=
  let r := p.1.ingestLine u hash p.2.1 line sessionIdx p.2.2 tsMs
  (r.1, { r.2 with lines := r.2.lines + 1 }, p.2.2 + 1)

/-- Ingest the lines of a file that are new. -/
def ingestTranscript (s : SpanStore) (path : Text) (file : Option TranscriptFile) :
    SpanStore × IngestStats :=
  match file with
  | none => (s, .default)
  | some file =>
    let size := file.data.length
    let start := s.startAt path size
    if start.1 = size then (s, .default)
    else
      let session := s.internSession path
      let read := completeLines (file.data.drop start.1)
      let r := read.1.foldl (ingestNextLine u hash session.1 file.modifiedMs)
        (session.2, .default, start.2)
      ({ r.1 with
        watermarks := Function.update r.1.watermarks path (some (start.1 + read.2, r.2.2))
        dirty := r.1.dirty || 0 < read.2 || 0 < r.2.1.newSpans }, r.2.1)

/-! ## Queries -/

/-- What stands for three bytes one behind the other. -/
def trigramCode (a b c : UInt8) : ℕ := a.toNat * 2 ^ 16 + b.toNat * 2 ^ 8 + c.toNat

/-- The trigrams of some bytes. -/
def trigramsOf : List UInt8 → List ℕ
  | a :: b :: c :: rest => trigramCode a b c :: trigramsOf (b :: c :: rest)
  | _ => []

def trigrams (t : Text) : List ℕ := trigramsOf (utf8Bytes t)

/-- The number of spans from which on trigrams are used. -/
def trigramMin : ℕ := 200000

/-- Add a span to the bitmaps of its trigrams. -/
def addTrigrams (spans : List SpanEntry) (trigram : ℕ → Finset ℕ) (i : ℕ) : ℕ → Finset ℕ := fun tg =>
  if tg ∈ trigrams (u.lowercase ((spans[i]?.map (·.text)).getD [])) then insert i (trigram tg)
  else trigram tg

/-- Index the spans that were appended since the last query. -/
def ensureTrigram (s : SpanStore) : SpanStore :=
  if s.spans.length < trigramMin then s
  else
    let s := if s.spans.length < s.trigramIndexed then
        { s with trigram := fun _ => ∅, trigramIndexed := 0 }
      else s
    { s with
      trigram := (List.range' s.trigramIndexed (s.spans.length - s.trigramIndexed)).foldl
        (addTrigrams u s.spans) s.trigram
      trigramIndexed := s.spans.length }

/-- Words of a query that say nothing about atoms. -/
def isStopword (t : Text) : Bool :=
  (["where", "what", "when", "which", "whose", "there", "here", "this", "that", "with", "from", "have",
    "were", "will", "would", "could", "should", "about", "into", "than", "then", "them", "they", "your",
    "you're", "does", "did", "the", "and", "for", "output", "directory", "file", "files", "path",
    "command", "value", "using", "used", "please"].map String.toList).contains t

/-- The tokens of a query. -/
def queryTokens (ql : Text) : List Text :=
  (ql.splitOnP fun c => !u.alphanumeric c && !oneOf "/.-_" c).filter fun t =>
    4 ≤ utf8Len t && !isStopword t

/-- How many bytes of a query match an atom: all of the atom, or the longest token in it. -/
def strength (ql tl : Text) (tokens : List Text) : ℕ :=
  tokens.foldl (fun strength t =>
    if strength < utf8Len t ∧ contains tl t then utf8Len t else strength)
    (if 6 ≤ utf8Len tl ∧ contains ql tl then utf8Len tl else 0)

/-- The arithmetic of scores. -/
structure Scoring (F : Type*) where
  less : F → F → Bool
  span (strength len : ℕ) (cls : SpanClass) (count : ℕ) (lastMs now : ℤ) (inRealm : Bool) : F
  memory (cls : SpanClass) (count : ℕ) : F

structure SpanHit (F : Type*) where
  text : Text
  cls : SpanClass
  count : ℕ
  lastMs : ℤ
  realm : Text
  session : Text
  line : ℕ
  score : F
  memoryIds : List ℕ

variable {F : Type*} (scoring : Scoring F) (now : ℤ)

/-- The hit that a span is, if it is one. -/
def hit (s : SpanStore) (ql : Text) (tokens : List Text) (realmFilter : Option ℕ) (e : SpanEntry) :
    Option (SpanHit F) :=
  if e.text = [] then none
  else
    let occ := realmFilter.bind fun rid => e.realms.find? (·.realmId = rid)
    if realmFilter.isSome ∧ occ = none then none
    else
      let tl := u.lowercase e.text
      let n := strength ql tl tokens
      if n < 5 then none
      else
        let loc := pickLocator e.locators realmFilter
        some {
          text := e.text
          cls := e.cls
          count := (occ.map (·.count)).getD e.count
          lastMs := e.lastMs
          realm := (loc.bind fun l => s.realmDict[l.realmId]?).getD []
          session := (loc.bind fun l => s.sessionDict[l.sessionIdx]?).getD []
          line := (loc.map (·.line)).getD 0
          score := scoring.span n (utf8Len tl) e.cls e.count e.lastMs now occ.isSome
          memoryIds := e.memRefs }

/-- The best hits; of equally good ones the earlier one is first. -/
def best (hits : List (SpanHit F)) (k : ℕ) : List (SpanHit F) :=
  (hits.mergeSort fun a b => !scoring.less a.score b.score).take k

/-- The hits among some candidates. -/
def search (s : SpanStore) (q : Text) (realm : Option Text) (k : ℕ)
    (candidates : SpanStore → Text → List ℕ) : List (SpanHit F) :=
  let ql := u.lowercase q
  if realm.isSome ∧ realm.bind s.realmIdx = none then []
  else
    let tokens := queryTokens u ql
    if tokens = [] then []
    else best scoring ((candidates s ql).filterMap fun i =>
      s.spans[i]?.bind (s.hit u scoring now ql tokens (realm.bind s.realmIdx))) k

/-- All spans. -/
def everySpan (s : SpanStore) (_ : Text) : List ℕ := List.range s.spans.length

/-- The spans that share a trigram with the query; all spans, if they are few. -/
def candidates (s : SpanStore) (ql : Text) : List ℕ :=
  if trigramMin ≤ s.spans.length then
    ((trigrams ql).foldl (fun set tg => set ∪ s.trigram tg) ∅).sort (· ≤ ·)
  else s.everySpan ql

/-- A query; it brings the trigrams up to date. -/
def query (s : SpanStore) (q : Text) (realm : Option Text) (k : ℕ) : List (SpanHit F) × SpanStore :=
  if trim q = [] ∨ s.spans = [] then ([], s)
  else
    let s := s.ensureTrigram u
    (s.search u scoring now q realm k candidates, s)

/-- The spans that a memory's text has. -/
def spansForMemory (s : SpanStore) (m k : ℕ) : List (SpanHit F) :=
  best scoring (((s.memAdjacency m).getD []).filterMap fun i =>
    (s.spans[i]?.filter (·.text ≠ [])).map fun e =>
      { text := e.text
        cls := e.cls
        count := e.count
        lastMs := e.lastMs
        realm := (e.realms.head?.bind fun r => s.realmDict[r.realmId]?).getD []
        session := []
        line := 0
        score := scoring.memory e.cls e.count
        memoryIds := e.memRefs }) k

end SpanStore

/-! ## What ingesting inserts -/

section Ingesting

variable {u : Unicode} {hash : ℕ → Text → ℕ}

/-- Nothing is stored as the empty text. -/
lemma ne_nil_of_storedAtom {a red : Atom} {wasRed : Bool}
    (h : SpanStore.storedAtom u a = some (red, wasRed)) : red.2 ≠ [] := by
  obtain ⟨r, hr, heq⟩ := Option.map_eq_some_iff.mp h
  obtain ⟨rfl, -⟩ := Prod.mk.inj heq
  unfold redact at hr
  dsimp only at hr
  split_ifs at hr with hresidue
  intro hnil
  have hout : ((redactors u).foldl (redactShape u) (clampUtf8 a.2 a.1.clamp, false)).1 = [] :=
    (congrArg Prod.fst (Option.some.inj hr)).trans hnil
  rw [hout] at hresidue
  exact hresidue (by decide +kernel)

lemma ne_nil_of_mem_storedAtoms {text : Text} {a : Atom} (h : a ∈ SpanStore.storedAtoms u text) :
    a.2 ≠ [] := by
  obtain ⟨b, -, hb⟩ := List.mem_filterMap.mp h
  obtain ⟨⟨red, wasRed⟩, hred, rfl⟩ := Option.map_eq_some_iff.mp hb
  exact ne_nil_of_storedAtom hred

/-- Ingesting the atoms of a memory inserts those that are stored. -/
lemma foldl_ingestMemoryAtom (realmId m : ℕ) (atoms : List Atom) (p : SpanStore × IngestStats) :
    (atoms.foldl (SpanStore.ingestMemoryAtom u hash realmId m) p).1 =
      (atoms.filterMap fun a => (SpanStore.storedAtom u a).map (·.1)).foldl
        (fun s a => (s.insertSpanMem hash a realmId m).1) p.1 := by
  induction atoms generalizing p with
  | nil => rfl
  | cons a atoms ih =>
    rw [List.foldl_cons, ih, List.filterMap_cons]
    cases hstored : SpanStore.storedAtom u a with
    | none => simp [SpanStore.ingestMemoryAtom, hstored]
    | some r => simp [SpanStore.ingestMemoryAtom, hstored]

/-- Ingesting the atoms of a line inserts the first ones of those that are stored. -/
lemma foldl_ingestLineAtom (l : Locator) (atoms : List Atom) (p : SpanStore × IngestStats × ℕ) :
    (atoms.foldl (SpanStore.ingestLineAtom u hash l) p).1 =
      ((atoms.filterMap fun a => (SpanStore.storedAtom u a).map (·.1)).take (64 - p.2.2)).foldl
        (fun s a => (s.insertSpan hash a l).1) p.1 := by
  induction atoms generalizing p with
  | nil => simp
  | cons a atoms ih =>
    rw [List.foldl_cons, ih, List.filterMap_cons]
    by_cases hfull : 64 ≤ p.2.2
    · have hzero : 64 - p.2.2 = 0 := by omega
      simp [SpanStore.ingestLineAtom, hfull, hzero]
    · cases hstored : SpanStore.storedAtom u a with
      | none => simp [SpanStore.ingestLineAtom, hfull, hstored]
      | some r =>
        have hleft : 64 - p.2.2 = 64 - (p.2.2 + 1) + 1 := by omega
        simp [SpanStore.ingestLineAtom, hfull, hstored, hleft]

/-- The atoms that a line inserts. -/
def SpanStore.lineAtoms (u : Unicode) (text : Text) : List Atom :=
  (SpanStore.storedAtoms u (SpanStore.scanned text)).take 64

/-- The atoms that the new lines of a file insert. -/
def SpanStore.transcriptAtoms (u : Unicode) (s : SpanStore) (path : Text)
    (file : Option SpanStore.TranscriptFile) : List Atom :=
  (file.map fun f =>
    (SpanStore.completeLines (f.data.drop (s.startAt path f.data.length).1)).1.flatMap fun line =>
      SpanStore.lineAtoms u (u.decode line)).getD []

/-- What a line does to the store. -/
lemma ingestLine_fst (s : SpanStore) (stats : IngestStats) (line : List UInt8) (sessionIdx lineNo : ℕ)
    (tsMs : ℤ) : (s.ingestLine u hash stats line sessionIdx lineNo tsMs).1 =
      if line = [] ∨ SpanStore.isInjected (u.decode line) = true then s
      else (SpanStore.lineAtoms u (u.decode line)).foldl (fun s' a => (s'.insertSpan hash a
        ⟨sessionIdx, lineNo, (s.internRealm (SpanStore.lineRealm u (u.decode line))).1, tsMs⟩).1)
        (s.internRealm (SpanStore.lineRealm u (u.decode line))).2 := by
  unfold SpanStore.ingestLine
  by_cases hempty : line = []
  · simp [hempty]
  · by_cases hinjected : SpanStore.isInjected (u.decode line) = true
    · simp [hempty, hinjected]
    · have hneither : ¬(line = [] ∨ SpanStore.isInjected (u.decode line) = true) :=
        not_or.mpr ⟨hempty, hinjected⟩
      rw [if_neg hempty, if_neg hneither]
      dsimp only
      rw [if_neg hinjected]
      dsimp only
      rw [foldl_ingestLineAtom, SpanStore.lineAtoms, SpanStore.storedAtoms, Nat.sub_zero]

/-- What all that ingests transcripts keeps, for atoms of a kind. -/
structure Keeps (u : Unicode) (hash : ℕ → Text → ℕ) (kind : Atom → Prop) (P : SpanStore → Prop) :
    Prop where
  realm : ∀ s realm, P s → P (s.internRealm realm).2
  session : ∀ s session, P s → P (s.internSession session).2
  insert : ∀ s a l, kind a → P s → P (s.insertSpan hash a l).1
  marks : ∀ s watermarks dirty, P s → P { s with watermarks := watermarks, dirty := dirty }

variable {s : SpanStore}

lemma keeps_foldl {P : SpanStore → Prop} {kind : Atom → Prop} {f : SpanStore → Atom → SpanStore}
    (hf : ∀ s a, kind a → P s → P (f s a)) {atoms : List Atom} (hkind : ∀ a ∈ atoms, kind a) (h : P s) :
    P (atoms.foldl f s) :=
  List.foldlRecOn atoms f h fun s h a ha => hf s a (hkind a ha) h

namespace Keeps

variable {kind : Atom → Prop} {P : SpanStore → Prop}

lemma ingestLine (k : Keeps u hash kind P) (h : P s) (stats : IngestStats) (line : List UInt8)
    (hkind : ∀ a ∈ SpanStore.lineAtoms u (u.decode line), kind a) (sessionIdx lineNo : ℕ) (tsMs : ℤ) :
    P (s.ingestLine u hash stats line sessionIdx lineNo tsMs).1 := by
  rw [ingestLine_fst]
  split_ifs
  · exact h
  · exact keeps_foldl (fun s a ha => k.insert s a _ ha) hkind (k.realm s _ h)

lemma foldl_ingestNextLine (k : Keeps u hash kind P) {lines : List (List UInt8)} (h : P s)
    (hkind : ∀ a ∈ lines.flatMap fun line => SpanStore.lineAtoms u (u.decode line), kind a)
    (sessionIdx : ℕ) (tsMs : ℤ) {stats : IngestStats × ℕ} :
    P (lines.foldl (SpanStore.ingestNextLine u hash sessionIdx tsMs) (s, stats)).1 := by
  induction lines generalizing s stats with
  | nil => exact h
  | cons line lines ih =>
    rw [List.flatMap_cons, List.forall_mem_append] at hkind
    exact ih (k.ingestLine h _ line hkind.1 ..) hkind.2

/-- What a file does to the store, if the atoms of its lines are of the kind. -/
theorem ingestTranscript (k : Keeps u hash kind P) (h : P s) (path : Text)
    (file : Option SpanStore.TranscriptFile) (hkind : ∀ a ∈ s.transcriptAtoms u path file, kind a) :
    P (s.ingestTranscript u hash path file).1 := by
  cases file with
  | none => exact h
  | some f =>
    unfold SpanStore.ingestTranscript
    dsimp only
    split_ifs
    · exact h
    · exact k.marks _ _ _ (k.foldl_ingestNextLine (k.session s _ h) hkind _ _)

end Keeps

/-- As `Keeps`, and also what links and unlinks memories. -/
structure KeepsAll (u : Unicode) (hash : ℕ → Text → ℕ) (kind : Atom → Prop) (P : SpanStore → Prop) :
    Prop extends Keeps u hash kind P where
  insertMem : ∀ s a realmId m, kind a → P s → P (s.insertSpanMem hash a realmId m).1
  drop : ∀ s m i, P s → P (s.dropRef hash m i)
  adjacency : ∀ s adj, P s → P { s with memAdjacency := adj }
  memMarks : ∀ s marks dirty, P s → P { s with memWatermarks := marks, dirty := dirty }

namespace KeepsAll

variable {kind : Atom → Prop} {P : SpanStore → Prop}

lemma unlinkMemory (k : KeepsAll u hash kind P) (h : P s) (m : ℕ) : P (s.unlinkMemory hash m).1 := by
  unfold SpanStore.unlinkMemory
  split
  · exact k.memMarks s _ _ h
  · exact k.memMarks _ _ _ (List.foldlRecOn _ _ (k.adjacency _ _ h) fun _ h i _ => k.drop _ m i h)

theorem ingestMemory (k : KeepsAll u hash kind P) (h : P s) (m : ℕ) (text realm : Text)
    (hkind : ∀ a ∈ SpanStore.storedAtoms u text, kind a) :
    P (s.ingestMemory u hash m text realm).1 := by
  unfold SpanStore.ingestMemory
  dsimp only
  split_ifs with hsame hmarked
  · exact h
  · refine k.memMarks _ _ _ ?_
    rw [foldl_ingestMemoryAtom]
    exact keeps_foldl (fun s a ha => k.insertMem s a _ m ha) hkind
      (k.realm _ realm (k.unlinkMemory h m))
  · refine k.memMarks _ _ _ ?_
    rw [foldl_ingestMemoryAtom]
    exact keeps_foldl (fun s a ha => k.insertMem s a _ m ha) hkind (k.realm _ realm h)

end KeepsAll

end Ingesting

/-! ## Histories -/

/-- What happens to a store. -/
inductive SpanStep where
  | ingestMemory (m : ℕ) (text realm : Text)
  | unlinkMemory (m : ℕ)
  | ingestTranscript (path : Text) (file : Option SpanStore.TranscriptFile)
  /-- Save; whether the file could be written. -/
  | save (written : Bool)
  /-- Load the file again. -/
  | reload
  | query (q : Text)

/-- A store and its file. -/
structure SpanDisk where
  store : SpanStore
  file : Option SavedSpans

namespace SpanDisk

variable (u : Unicode) (hash : ℕ → Text → ℕ)

/-- A store without a file. -/
def new : SpanDisk := ⟨.load hash none, none⟩

/-- One step. -/
def live (d : SpanDisk) : SpanStep → SpanDisk × List Unit
  | .ingestMemory m text realm => ({ d with store := (d.store.ingestMemory u hash m text realm).1 }, [])
  | .unlinkMemory m => ({ d with store := (d.store.unlinkMemory hash m).1 }, [])
  | .ingestTranscript path file =>
    ({ d with store := (d.store.ingestTranscript u hash path file).1 }, [])
  | .save written =>
    let s := d.store.maybeCompact hash
    (if written then ⟨{ s with dirty := false }, some s.saved⟩ else ⟨s, d.file⟩, [])
  | .reload => ({ d with store := .load hash d.file }, [])
  | .query q =>
    ({ d with store := if trim q = [] ∨ d.store.spans = [] then d.store else d.store.ensureTrigram u },
      [])

end SpanDisk

end ChittaField.Spans
