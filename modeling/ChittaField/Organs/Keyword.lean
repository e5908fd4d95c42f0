import ChittaField.Lib.HashMaps
import ChittaField.Memory.Indexes

/-!
# The keyword index

The index has for each term the memories that contain it, and for each memory the number of its tokens.
A reverse index finds the terms of a memory, by ids of terms; it is not saved, so that a loaded index
is without it until it is rebuilt.  A memory that the reverse index does not know is removed by going
through all terms.
-/

namespace ChittaField.Keyword

open HashMaps

/-- The postings and the lengths of memories, and the reverse index. -/
structure KeywordIndex where
  postings : Finmap fun _ : String => List Posting
  docLengths : MemoryId → Option ℕ
  docTerms : MemoryId → Option (List ℕ)
  termNames : List (Option String)
  termIds : String → Option ℕ
  /-- Ids of terms that are free; the last one that became so is first. -/
  freeTermIds : List ℕ
  totalTokens : ℕ
  totalDocs : ℕ

/-- A reverse index that was prepared. -/
structure KeywordReverseIndex where
  docTerms : MemoryId → Option (List ℕ)
  termNames : List (Option String)
  termIds : String → Option ℕ

namespace KeywordIndex

def new : KeywordIndex := ⟨∅, fun _ => none, fun _ => none, [], fun _ => none, [], 0, 0⟩

/-- What is loaded of a saved index: all but the reverse index. -/
def deserialised (k : KeywordIndex) : KeywordIndex :=
  ⟨k.postings, k.docLengths, fun _ => none, [], fun _ => none, [], k.totalTokens, k.totalDocs⟩

variable (k : KeywordIndex)

/-- The postings of a term; none, if it is not known. -/
def postingsOf (term : String) : List Posting := (k.postings.lookup term).getD []

/-- The id of a term; a new one, if it has none. -/
def internTerm (term : String) : ℕ × KeywordIndex :=
  match k.termIds term with
  | some id => (id, k)
  | none =>
    match k.freeTermIds with
    | id :: free =>
      (id, { k with
        termNames := k.termNames.set id (some term)
        termIds := Function.update k.termIds term (some id)
        freeTermIds := free })
    | [] =>
      (k.termNames.length, { k with
        termNames := k.termNames ++ [some term]
        termIds := Function.update k.termIds term (some k.termNames.length) })

/-! ## Removing -/

/-- Postings without those of a memory. -/
def without (id : MemoryId) (ps : List Posting) : List Posting := ps.filter (·.memoryId ≠ id)

/-- The name of a term, if the id has one. -/
def nameOf (termId : ℕ) : Option String := k.termNames[termId]?.join

/-- Drop the posting of a memory from a term.  A term without postings is forgotten. -/
def dropTerm (id : MemoryId) (k : KeywordIndex) (termId : ℕ) : KeywordIndex :=
  match k.nameOf termId with
  | none => k
  | some term =>
    match k.postings.lookup term with
    | none => k
    | some ps =>
      if without id ps = [] then
        { k with
          postings := k.postings.erase term
          termIds := Function.update k.termIds term none
          termNames := k.termNames.set termId none
          freeTermIds := termId :: k.freeTermIds }
      else { k with postings := k.postings.insert term (without id ps) }

/-- Drop the postings of a memory from all terms, in the order in which they are gone through. -/
def retain (order : KeyOrder String) (id : MemoryId) : KeywordIndex :=
  { k with
    postings := collect (order.list k.postings.keys) fun term =>
      ((k.postings.lookup term).map (without id)).filter (· ≠ []) }

/-- Remove a memory: by the reverse index, if it has the memory. -/
def remove (order : KeyOrder String) (id : MemoryId) : KeywordIndex :=
  match k.docLengths id with
  | none => k
  | some oldLen =>
    let k := { k with
      docLengths := Function.update k.docLengths id none
      totalTokens := k.totalTokens - oldLen
      totalDocs := k.totalDocs - 1 }
    match k.docTerms id with
    | some terms => terms.foldl (dropTerm id) { k with docTerms := Function.update k.docTerms id none }
    | none => k.retain order id

/-! ## Indexing -/

/-- Add the posting of a term; the ids of the terms that were added. -/
def addTerm (id : MemoryId) (tokens : List String) (p : KeywordIndex × List ℕ) (term : String) :
    KeywordIndex × List ℕ :=
  let (termId, k) := p.1.internTerm term
  ({ k with
    postings := k.postings.insert term (k.postingsOf term ++ [⟨id, tokens.count term % 2 ^ 32⟩]) },
    p.2 ++ [termId])

/-- Index the text of a memory, in place of what it had.  The length has 32 bits. -/
def index (T : Casing) (order : KeyOrder String) (id : MemoryId) (content : String) : KeywordIndex :=
  let k := k.remove order id
  let tokens := tokenize T content
  let docLen := tokens.length % 2 ^ 32
  if docLen = 0 then k
  else
    let (k, reverseTerms) := (order.list tokens.toFinset).foldl (addTerm id tokens) (k, [])
    { k with
      docTerms := Function.update k.docTerms id (some reverseTerms)
      docLengths := Function.update k.docLengths id (some docLen)
      totalTokens := k.totalTokens + docLen
      totalDocs := k.totalDocs + 1 }

/-! ## The reverse index -/

/-- Note a term and its memories. -/
def addEntry (r : KeywordReverseIndex) (e : String × List Posting) : KeywordReverseIndex where
  docTerms := e.2.foldl (fun d p => Maps.push d p.memoryId r.termNames.length) r.docTerms
  termNames := r.termNames ++ [some e.1]
  termIds := Function.update r.termIds e.1 (some r.termNames.length)

/-- Prepare a reverse index, unless it is cancelled. -/
def prepareReverseIndex (order : KeyOrder String) (cancelled : Bool) : Option KeywordReverseIndex :=
  if cancelled then none
  else some ((entries order k.postings).foldl addEntry ⟨fun _ => none, [], fun _ => none⟩)

def publishReverseIndex (r : KeywordReverseIndex) : KeywordIndex :=
  { k with
    docTerms := r.docTerms
    termNames := r.termNames
    termIds := r.termIds
    freeTermIds := [] }

/-- Prepare a reverse index and publish it, under a lock that nothing is written behind. -/
def rebuildReverseIndex (order : KeyOrder String) (cancelled : Bool) : KeywordIndex :=
  match k.prepareReverseIndex order cancelled with
  | some r => k.publishReverseIndex r
  | none => k

end KeywordIndex

/-! ## Searching -/

/-- The arithmetic of scores. -/
structure Bm25 (F : Type*) where
  zero : F
  add : F → F → F
  less : F → F → Bool
  eq : F → F → Bool
  /-- The total order. -/
  le : F → F → Bool
  /-- The weight of a term, by the numbers of memories and of those that contain it. -/
  idf (totalDocs df : ℕ) : F
  /-- So many memories of all are few enough. -/
  rare (totalDocs df : ℕ) : Bool
  /-- What a posting adds to the score of its memory. -/
  share (idf : F) (tf docLen totalTokens totalDocs : ℕ) : F

structure QueryTerm (F : Type*) where
  postings : List Posting
  df : ℕ
  idf : F

structure KeywordHit (F : Type*) where
  memoryId : MemoryId
  bm25Score : F

namespace KeywordIndex

variable {F : Type*} (bm : Bm25 F) (k : KeywordIndex)

/-- The terms of a query that are looked up: the rarest ones, and others that are not common. -/
def queryTerms (terms : List String) : List (QueryTerm F) :=
  let found := terms.filterMap fun term => (k.postings.lookup term).map fun ps =>
    ⟨ps, ps.length, bm.idf k.totalDocs ps.length⟩
  let sorted := found.insertionSort fun a b => (a.df < b.df || (a.df = b.df && !bm.less a.idf b.idf)) = true
  let minDf := (sorted.head?.map (·.df)).getD 0
  (if minDf < k.totalDocs then
    sorted.filter fun t => t.df = minDf || bm.rare k.totalDocs t.df
  else sorted).take 4

/-- Add what a posting gives to the score of its memory. -/
def addScore (idf : F) (scores : Finmap fun _ : MemoryId => F) (p : Posting) :
    Finmap fun _ : MemoryId => F :=
  scores.insert p.memoryId (bm.add ((scores.lookup p.memoryId).getD bm.zero)
    (bm.share idf p.tf ((k.docLengths p.memoryId).getD 1) k.totalTokens k.totalDocs))

/-- The hit with the lowest score, of several the one with the greatest id. -/
def worst : List (KeywordHit F) → Option (KeywordHit F)
  | [] => none
  | h :: hs =>
    match worst hs with
    | none => some h
    | some w =>
      if bm.le h.bm25Score w.bm25Score && (!bm.le w.bm25Score h.bm25Score || w.memoryId < h.memoryId)
      then some h else some w

/-- Add a hit to the best ones; if there are enough, in place of the worst one. -/
def pushTopK (limit : ℕ) (heap : List (KeywordHit F)) (hit : KeywordHit F) : List (KeywordHit F) :=
  if heap.length < limit then hit :: heap
  else
    match worst bm heap with
    | none => hit :: heap
    | some w =>
      if bm.less w.bm25Score hit.bm25Score ||
          (bm.eq hit.bm25Score w.bm25Score && hit.memoryId < w.memoryId) then
        hit :: heap.eraseP (·.memoryId = w.memoryId)
      else heap

/-- The best hits of a query, the best one first. -/
def search (T : Casing) (order : KeyOrder MemoryId) (query : String) (limit : ℕ) :
    List (KeywordHit F) :=
  if k.totalDocs = 0 ∨ limit = 0 then []
  else
    let scores := (k.queryTerms bm (tokenize T query).eraseDups).foldl
      (fun scores t => t.postings.foldl (k.addScore bm t.idf) scores) ∅
    let heap := (entries order scores).foldl (fun heap e => pushTopK bm limit heap ⟨e.1, e.2⟩) []
    heap.insertionSort fun a b => (!bm.le a.bm25Score b.bm25Score ||
      (bm.le b.bm25Score a.bm25Score && a.memoryId ≤ b.memoryId)) = true

end KeywordIndex

end ChittaField.Keyword
