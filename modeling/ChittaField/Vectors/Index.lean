import ChittaField.Lib.HashMaps
import ChittaField.Lib.Inverted
import ChittaField.Lib.Replayed

/-!
# The index of vectors

Beside the embeddings the index keeps what is derived from them: binary codes with a vector of them to
scan, the coarse centroids and the signatures of each memory with their buckets, and the number of
memories of each realm.
-/

namespace ChittaField.Vectors

open HashMaps Inverted

/-- The operations on vectors of floats that the index uses, and the vectors that it was made with. -/
structure VectorMath (S F C : Type*) where
  /-- The length of embeddings. -/
  dim : ℕ
  normalize : List S → List S
  length_normalize : ∀ v, (normalize v).length = v.length
  dot : List S → List S → F
  /-- The total order. -/
  le : F → F → Bool
  /-- A number is zero or more. -/
  nonneg : F → Bool
  /-- The signs of a vector behind a centroid is taken from it. -/
  binarizeCentered : List S → List S → C
  /-- The mean of the vectors of the right length; empty, if there are none. -/
  mean : List (List S) → List S
  /-- Two centroids are so close that the codes stay. -/
  close : List S → List S → Bool
  /-- The number of writes behind which the mean is looked at again, by the number of embeddings. -/
  trigger : ℕ → ℕ
  coarseCentroids : List (List S)
  length_coarseCentroids : coarseCentroids.length = 256
  lshPlanes : List (List (List S))
  length_lshPlanes : lshPlanes.length = 4

namespace VectorMath

variable {S F C : Type*} (vm : VectorMath S F C)

/-- The centroids that are nearest to a vector. -/
def chooseProbeIds (query : List S) (desired : ℕ) : List ℕ :=
  let scored := vm.coarseCentroids.zipIdx.map fun p => (vm.dot query p.1, p.2 % 2 ^ 16)
  ((scored.insertionSort fun a b =>
    (!vm.le a.1 b.1 || (vm.le b.1 a.1 && a.2 ≤ b.2)) = true).take desired).map (·.2)

def assignCoarse (embedding : List S) : List ℕ := vm.chooseProbeIds embedding 2

/-- On which sides of some planes a vector is. -/
def lshSignature (planes : List (List S)) (embedding : List S) : ℕ :=
  planes.zipIdx.foldl (fun sig p =>
    if vm.nonneg (vm.dot embedding p.1) then sig ||| 1 <<< p.2 else sig) 0

def assignLsh (embedding : List S) : List ℕ :=
  vm.lshPlanes.map fun planes => vm.lshSignature planes embedding

end VectorMath

/-- The buckets that signatures stand for: one in each table. -/
def lshKeys (signatures : List ℕ) : List (ℕ × ℕ) := signatures.zipIdx.map fun p => (p.2, p.1)

/-- The orders in which the maps are iterated. -/
structure Orders where
  embeddings : KeyOrder ℕ
  codes : KeyOrder ℕ
  signatures : KeyOrder ℕ

/-- The index, as far as it is not a graph. -/
structure SemanticIndex (S C : Type*) where
  embeddings : Finmap fun _ : ℕ => List S
  coarseMembers : ℕ → Option (List ℕ)
  memCoarse : Finmap fun _ : ℕ => List ℕ
  lshBuckets : ℕ × ℕ → Option (List ℕ)
  memLsh : Finmap fun _ : ℕ => List ℕ
  centroid : List S
  centroidStaleWrites : ℕ
  inhibitHnsw : Bool
  binaryCodes : Finmap fun _ : ℕ => C
  /-- The vector of codes, and where each memory stands in it. -/
  binaryVec : Placed ℕ C
  perRealmCounts : String → Option ℕ
  perIdRealm : Finmap fun _ : ℕ => String

namespace SemanticIndex

variable {S F C : Type*} (vm : VectorMath S F C)

/-- An empty index; whether graphs are inhibited. -/
def new (inhibitHnsw : Bool) : SemanticIndex S C where
  embeddings := ∅
  coarseMembers := fun _ => none
  memCoarse := ∅
  lshBuckets := fun _ => none
  memLsh := ∅
  centroid := []
  centroidStaleWrites := 0
  inhibitHnsw := inhibitHnsw
  binaryCodes := ∅
  binaryVec := .empty
  perRealmCounts := fun _ => none
  perIdRealm := ∅

variable (order : Orders) (s : SemanticIndex S C)

def totalEmbeddingCount : ℕ := s.embeddings.keys.card

/-! ## Codes -/

/-- The mean of the embeddings. -/
def computeCentroid : List S :=
  vm.mean ((entries order.embeddings s.embeddings).map (·.2))

/-- Put the codes into a vector. -/
def placeCodes : SemanticIndex S C :=
  { s with
    binaryVec := (entries order.codes s.binaryCodes).foldl (fun p e => p.push e.1 e.2) .empty }

/-- Binarize the embeddings again. -/
def binarizeAll : SemanticIndex S C :=
  { s with
    binaryCodes := collect (order.embeddings.list s.embeddings.keys) fun id =>
      (s.embeddings.lookup id).map (vm.binarizeCentered · s.centroid) }

def rebinarizeAll : SemanticIndex S C := (s.binarizeAll vm order).placeCodes order

/-- Look at the mean again, if there were writes enough, and take it if it has moved. -/
def maybeRefreshCentroid : SemanticIndex S C :=
  if s.centroid.length ≠ vm.dim then s
  else
    let writes := s.centroidStaleWrites + 1
    if s.inhibitHnsw ∨ writes < vm.trigger s.totalEmbeddingCount then
      { s with centroidStaleWrites := writes }
    else
      let fresh := s.computeCentroid vm order
      if fresh.length ≠ s.centroid.length ∨ vm.close s.centroid fresh then
        { s with centroidStaleWrites := 0 }
      else { s with centroidStaleWrites := 0, centroid := fresh }.rebinarizeAll vm order

/-! ## Writing -/

/-- Take a memory out of its realm. -/
def leaveRealm (id : ℕ) : SemanticIndex S C :=
  match s.perIdRealm.lookup id with
  | some realm =>
    { s with
      perIdRealm := s.perIdRealm.erase id
      perRealmCounts :=
        Function.update s.perRealmCounts realm ((s.perRealmCounts realm).map (· - 1)) }
  | none => s

/-- Take a memory out of all that is derived. -/
def takeOut (id : ℕ) : SemanticIndex S C :=
  { s with
    embeddings := s.embeddings.erase id
    binaryVec := s.binaryVec.swapRemove id
    binaryCodes := s.binaryCodes.erase id
    memCoarse := s.memCoarse.erase id
    coarseMembers := drop id ((s.memCoarse.lookup id).getD []) s.coarseMembers
    memLsh := s.memLsh.erase id
    lshBuckets := drop id (lshKeys ((s.memLsh.lookup id).getD [])) s.lshBuckets }

def remove (id : ℕ) : SemanticIndex S C :=
  ((s.leaveRealm id).takeOut id).maybeRefreshCentroid vm order

/-- Give a code to a memory. -/
def placeCode (id : ℕ) (code : C) : SemanticIndex S C :=
  { s with
    binaryVec :=
      match s.binaryVec.pos id with
      | some pos => { s.binaryVec with vec := s.binaryVec.vec.set pos (id, code) }
      | none => s.binaryVec.push id code
    binaryCodes := s.binaryCodes.insert id code }

/-- Put a memory into a realm. -/
def joinRealm (id : ℕ) : Option String → SemanticIndex S C
  | some realm =>
    { s with
      perRealmCounts := Function.update s.perRealmCounts realm
        (some ((s.perRealmCounts realm).getD 0 + 1))
      perIdRealm := s.perIdRealm.insert id realm }
  | none => s

/-- The bookkeeping of a write. -/
def upsertMeta (id : ℕ) (embedding : List S) (realm : Option String) : SemanticIndex S C :=
  let s := s.remove vm order id
  let embedding := vm.normalize embedding
  let coarse := vm.assignCoarse embedding
  let lsh := vm.assignLsh embedding
  let s : SemanticIndex S C := { s with
    coarseMembers := add id coarse s.coarseMembers
    memCoarse := s.memCoarse.insert id coarse
    lshBuckets := add id (lshKeys lsh) s.lshBuckets
    memLsh := s.memLsh.insert id lsh }
  let s := if embedding.length = vm.dim then
      s.placeCode id (vm.binarizeCentered embedding s.centroid)
    else s
  { s with embeddings := s.embeddings.insert id embedding }.joinRealm id realm

def upsert (id : ℕ) (embedding : List S) (realm : Option String) : SemanticIndex S C :=
  (s.upsertMeta vm order id embedding realm).maybeRefreshCentroid vm order

/-- As `upsert`, but the graphs are left for later. -/
def upsertDeferred (id : ℕ) (embedding : List S) (realm : Option String) : SemanticIndex S C :=
  (s.upsertMeta vm order id embedding realm).maybeRefreshCentroid vm order

/-! ## Maintenance -/

/-- The memories whose embeddings have another length. -/
def wrongDim : List ℕ :=
  (order.embeddings.list s.embeddings.keys).filter fun id =>
    ((s.embeddings.lookup id).getD []).length ≠ vm.dim

/-- Drop the embeddings that have another length. -/
def purgeWrongDim : SemanticIndex S C :=
  let bad := s.wrongDim vm order
  let s : SemanticIndex S C := { s with
    embeddings := eraseAll s.embeddings bad
    binaryCodes := eraseAll s.binaryCodes bad
    memCoarse := eraseAll s.memCoarse bad
    memLsh := eraseAll s.memLsh bad }
  if bad = [] then s
  else { s with coarseMembers := fun _ => none, lshBuckets := fun _ => none, binaryVec := .empty }

def normalizeVectors : SemanticIndex S C :=
  { s with
    embeddings := collect (order.embeddings.list s.embeddings.keys) fun id =>
      (s.embeddings.lookup id).map vm.normalize }

/-- The memories in the order of their ids. -/
def sortedIds : List ℕ := upwards.list s.embeddings.keys

/-- Assign the centroids again. -/
def rebuildCoarse : SemanticIndex S C :=
  { s with
    coarseMembers := s.sortedIds.foldl (fun b id =>
      add id (vm.assignCoarse ((s.embeddings.lookup id).getD [])) b) fun _ => none
    memCoarse := collect s.sortedIds fun id => (s.embeddings.lookup id).map vm.assignCoarse }

/-- Assign the signatures again. -/
def rebuildLsh : SemanticIndex S C :=
  { s with
    lshBuckets := s.sortedIds.foldl (fun b id =>
      add id (lshKeys (vm.assignLsh ((s.embeddings.lookup id).getD []))) b) fun _ => none
    memLsh := collect s.sortedIds fun id => (s.embeddings.lookup id).map vm.assignLsh }

def rebuildAnn : SemanticIndex S C := (s.rebuildCoarse vm).rebuildLsh vm

/-- Fill the buckets from the signatures. -/
def rebuildLshBucketsFromMem : SemanticIndex S C :=
  { s with
    lshBuckets := (order.signatures.list s.memLsh.keys).foldl (fun b id =>
      add id (lshKeys ((s.memLsh.lookup id).getD [])) b) fun _ => none }

/-- Compute the signatures again. -/
def assignSignatures : SemanticIndex S C :=
  { s with
    memLsh := collect (order.embeddings.list s.embeddings.keys) fun id =>
      (s.embeddings.lookup id).map vm.assignLsh }

/-- Rebuild the codes and their vector where they do not have the right number. -/
def refreshCodes : SemanticIndex S C :=
  let s := if s.binaryCodes.keys.card ≠ s.totalEmbeddingCount then s.binarizeAll vm order else s
  if s.binaryVec.vec.length ≠ s.binaryCodes.keys.card then s.placeCodes order else s

/-- Rebuild the buckets, and what does not have the right number. -/
def refreshAnn : SemanticIndex S C :=
  if s.memCoarse.keys.card ≠ s.totalEmbeddingCount then s.rebuildAnn vm
  else if s.memLsh.keys.card ≠ s.totalEmbeddingCount then s.rebuildLsh vm
  else s.rebuildLshBucketsFromMem order

/-- Normalize the embeddings, and bring what is derived up to date. -/
def normalizeAll : SemanticIndex S C :=
  let s := s.normalizeVectors vm order
  let s := s.assignSignatures vm order
  let s := s.refreshCodes vm order
  s.refreshAnn vm order

/-- Rebuild everything. -/
def forceReindex : SemanticIndex S C :=
  let s := s.normalizeVectors vm order
  let s : SemanticIndex S C :=
    { s with centroid := s.computeCentroid vm order, centroidStaleWrites := 0 }
  let s := s.rebinarizeAll vm order
  { s with memCoarse := ∅, memLsh := ∅ }.rebuildAnn vm

end SemanticIndex

/-! ## Histories -/

/-- What happens to an index. -/
inductive IndexStep (S : Type*) where
  | upsert (id : ℕ) (embedding : List S) (realm : Option String)
  | upsertDeferred (id : ℕ) (embedding : List S) (realm : Option String)
  | remove (id : ℕ)
  | purgeWrongDim
  | normalizeAll
  | forceReindex

/-- One step, with the orders in which the maps are iterated. -/
def SemanticIndex.live {S F C : Type*} (vm : VectorMath S F C) (s : SemanticIndex S C)
    (step : IndexStep S × Orders) : SemanticIndex S C × List Unit :=
  (match step.1 with
    | .upsert id embedding realm => s.upsert vm step.2 id embedding realm
    | .upsertDeferred id embedding realm => s.upsertDeferred vm step.2 id embedding realm
    | .remove id => s.remove vm step.2 id
    | .purgeWrongDim => s.purgeWrongDim vm step.2
    | .normalizeAll => s.normalizeAll vm step.2
    | .forceReindex => s.forceReindex vm step.2, [])

/-- The number of memories of a realm. -/
def SemanticIndex.members {S C : Type*} (s : SemanticIndex S C) (realm : String) : Finset ℕ :=
  s.perIdRealm.keys.filter fun id => s.perIdRealm.lookup id = some realm

/-- What is derived mirrors what it is derived from. -/
structure Mirrors {S C : Type*} (s : SemanticIndex S C) : Prop where
  /-- Positions are those in the vector. -/
  positions : s.binaryVec.Exact
  /-- The vector has the memories that have codes. -/
  codes : ∀ id, id ∈ s.binaryVec.vec.map (·.1) ↔ id ∈ s.binaryCodes.keys
  /-- Buckets are the inverses of the assignments. -/
  coarse : Inverse s.coarseMembers fun id => (s.memCoarse.lookup id).getD []
  lsh : Inverse s.lshBuckets fun id => lshKeys ((s.memLsh.lookup id).getD [])
  /-- Realms are counted. -/
  realms : ∀ realm, (s.perRealmCounts realm).getD 0 = (s.members realm).card

end ChittaField.Vectors
