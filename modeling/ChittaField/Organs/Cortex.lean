import ChittaField.Lib.HashMaps

/-!
# The cortical index

The cortical index has postings for the features of sparse codes.  It keeps the codes, with the times
and the kinds of the memories, how many memories have a feature, the prototypes that memories were
assigned to, and the quantized residuals.

Numbers of the encoder and what is computed from them are parameters.
-/

namespace ChittaField

open HashMaps

/-- Features with their activations, sorted upwards in the source. -/
structure SparseCode (F : Type) where
  featureIds : List ℕ
  activations : List F
  parallel : featureIds.length = activations.length
  distinct : featureIds.Nodup

def SparseCode.isEmpty {F : Type} (code : SparseCode F) : Bool := code.featureIds.isEmpty

/-- What is computed with activations. -/
structure CorticalArith (F : Type) where
  zero : F
  one : F
  half : F
  negInfinity : F
  add : F → F → F
  totalCmp : F → F → Ordering
  ge : F → F → Bool
  /-- An activation as a byte. -/
  quantize : F → ℕ
  /-- A strength or an arousal as a byte, clamped before. -/
  quantizeUnit : F → ℕ
  /-- A byte as a number. -/
  unquantize : ℕ → F
  sparseDot : SparseCode F → SparseCode F → F
  normalized : SparseCode F → SparseCode F
  updateCentroid : SparseCode F → ℕ → SparseCode F → SparseCode F
  /-- What a query's feature weighs, for the number of memories and of those with the feature. -/
  weight : ℕ → ℕ → F → F
  /-- What a shared feature adds to a score. -/
  term : ℕ → ℕ → F → ℕ → F
  /-- A score over the norm of the query. -/
  overNorm : F → F → F
  /-- The bonus for a transition. -/
  transitionBonus : F → F
  /-- How recent a time is, now. -/
  recency : ℤ → F
  /-- The score from its parts. -/
  score : F → F → F → F → F → F

def maxPrototypes : ℕ := 2048

structure PrototypeEntry (F : Type) where
  id : ℕ
  centroid : SparseCode F
  count : ℕ

structure PrototypeIndex (F : Type) where
  protos : List (PrototypeEntry F)
  memToProto : Finmap fun _ : ℕ => ℕ
  transitions : Finmap fun _ : ℕ × ℕ => F
  vigilance : F
  nextId : ℕ

structure PostingEntry where
  memId : ℕ
  activationQ : ℕ
  strengthQ : ℕ
  protoId : ℕ
  affectQ : ℕ
deriving DecidableEq, Repr

/-- Quantized residuals have 32 bytes. -/
abbrev PqCodes := Vector UInt8 32

structure CorticalIndex (F : Type) where
  postings : Finmap fun _ : ℕ => List PostingEntry
  df : Finmap fun _ : ℕ => ℕ
  nMemories : ℕ
  memCodes : Finmap fun _ : ℕ => SparseCode F
  memTs : Finmap fun _ : ℕ => ℤ
  memKind : Finmap fun _ : ℕ => String
  prototypeIdx : PrototypeIndex F
  memPq : Finmap fun _ : ℕ => PqCodes

namespace PrototypeIndex

variable {F : Type} (A : CorticalArith F)

/-- The best match of a code, with its place and its similarity. -/
def bestMatch (protos : List (PrototypeEntry F)) (code : SparseCode F) :
    Option (ℕ × PrototypeEntry F × F) :=
  protos.head?.map fun first =>
    protos.zipIdx.foldl (fun best x =>
      let sim := A.sparseDot x.1.centroid code
      match A.totalCmp sim best.2.2 with
      | .gt => (x.2, x.1, sim)
      | .eq => if x.1.id < best.2.1.id then (x.2, x.1, sim) else best
      | .lt => best) (0, first, A.negInfinity)

def createProto (p : PrototypeIndex F) (code : SparseCode F) : PrototypeIndex F × ℕ :=
  ({ p with
      protos := p.protos ++ [⟨p.nextId, A.normalized code, 1⟩]
      nextId := p.nextId + 1 }, p.nextId)

/-- Count a code to a prototype. -/
def join (p : PrototypeIndex F) (place : ℕ) (code : SparseCode F) : PrototypeIndex F :=
  { p with protos := p.protos.modify place fun entry =>
      { entry with
        count := entry.count + 1
        centroid := A.updateCentroid entry.centroid (entry.count + 1) code } }

def assignTo (p : PrototypeIndex F) (memoryId protoId : ℕ) : PrototypeIndex F :=
  { p with memToProto := p.memToProto.insert memoryId protoId }

/-- Assign a memory to the prototype that its code matches best, or to a new one. -/
def assign (p : PrototypeIndex F) (memoryId : ℕ) (code : SparseCode F) : PrototypeIndex F × ℕ :=
  if code.isEmpty then
    match p.protos with
    | [] => p.createProto A code
    | first :: _ => (p.assignTo memoryId first.id, first.id)
  else
    let (p', protoId) :=
      match bestMatch A p.protos code with
      | none => p.createProto A code
      | some (place, entry, sim) =>
        if A.ge sim p.vigilance then (p.join A place code, entry.id)
        else if p.protos.length < maxPrototypes then p.createProto A code
        else (p.join A place code, entry.id)
    (p'.assignTo memoryId protoId, protoId)

def removeMemory (p : PrototypeIndex F) (memoryId : ℕ) : PrototypeIndex F :=
  { p with memToProto := p.memToProto.erase memoryId }

def nearestProto (p : PrototypeIndex F) (code : SparseCode F) : Option ℕ :=
  if code.isEmpty then none else (bestMatch A p.protos code).map (·.2.1.id)

def transition (p : PrototypeIndex F) (a b : ℕ) : F := (p.transitions.lookup (a, b)).getD A.zero

end PrototypeIndex

namespace CorticalIndex

variable {F : Type} (A : CorticalArith F)

def new (vigilance : F) : CorticalIndex F :=
  ⟨∅, ∅, 0, ∅, ∅, ∅, ⟨[], ∅, ∅, vigilance, 0⟩, ∅⟩

/-- Forget the features of a memory. -/
def dropFeature (memId : ℕ) (idx : CorticalIndex F) (fid : ℕ) : CorticalIndex F :=
  match idx.postings.lookup fid with
  | none => idx
  | some list =>
    { idx with
      postings := idx.postings.insert fid (list.filter (·.memId ≠ memId))
      df := match idx.df.lookup fid with
        | none => idx.df
        | some df => idx.df.insert fid (df - 1) }

def remove (idx : CorticalIndex F) (memId : ℕ) : CorticalIndex F :=
  let idx := match idx.memCodes.lookup memId with
    | none => idx
    | some code =>
      let idx := code.featureIds.foldl (dropFeature memId) { idx with memCodes := idx.memCodes.erase memId }
      { idx with nMemories := idx.nMemories - 1 }
  { idx with
    memTs := idx.memTs.erase memId
    memKind := idx.memKind.erase memId
    prototypeIdx := idx.prototypeIdx.removeMemory memId }

/-- Post an entry for a feature. -/
def post (idx : CorticalIndex F) (fid : ℕ) (entry : PostingEntry) : CorticalIndex F :=
  { idx with
    postings := idx.postings.insert fid ((idx.postings.lookup fid).getD [] ++ [entry])
    df := idx.df.insert fid ((idx.df.lookup fid).getD 0 + 1) }

/-- Index a memory that is not there. -/
def indexNew (idx : CorticalIndex F) (memId : ℕ) (code : SparseCode F) (strengthQ affectQ : ℕ) (tsMs : ℤ)
    (kind : String) : CorticalIndex F :=
  let (prototypeIdx, protoId) := idx.prototypeIdx.assign A memId code
  let idx := (code.featureIds.zip code.activations).foldl
    (fun idx p => idx.post p.1 ⟨memId, A.quantize p.2, strengthQ, protoId, affectQ⟩)
    { idx with prototypeIdx }
  { idx with
    memCodes := idx.memCodes.insert memId code
    memTs := idx.memTs.insert memId tsMs
    memKind := idx.memKind.insert memId kind
    nMemories := idx.nMemories + 1 }

def indexWithAffect (idx : CorticalIndex F) (memId : ℕ) (code : SparseCode F) (strength : F) (tsMs : ℤ)
    (kind : String) (affectArousal : F) : CorticalIndex F :=
  if code.isEmpty then idx
  else
    let idx := if (idx.memCodes.lookup memId).isSome then idx.remove memId else idx
    idx.indexNew A memId code (A.quantizeUnit strength) (A.quantizeUnit affectArousal) tsMs kind

def index (idx : CorticalIndex F) (memId : ℕ) (code : SparseCode F) (strength : F) (tsMs : ℤ)
    (kind : String) : CorticalIndex F :=
  idx.indexWithAffect A memId code strength tsMs kind A.zero

/-- Set the strength in the entries of a memory. -/
def restrengthen (memId sq : ℕ) (list : List PostingEntry) : List PostingEntry :=
  list.map fun e => if e.memId = memId then { e with strengthQ := sq } else e

def strengthenFeature (memId sq : ℕ) (idx : CorticalIndex F) (fid : ℕ) : CorticalIndex F :=
  match idx.postings.lookup fid with
  | none => idx
  | some list => { idx with postings := idx.postings.insert fid (restrengthen memId sq list) }

def updateStrength (idx : CorticalIndex F) (memId : ℕ) (strength : F) : CorticalIndex F :=
  match idx.memCodes.lookup memId with
  | none => idx
  | some code => code.featureIds.foldl (strengthenFeature memId (A.quantizeUnit strength)) idx

def indexPq (idx : CorticalIndex F) (memoryId : ℕ) (codes : PqCodes) : CorticalIndex F :=
  { idx with memPq := idx.memPq.insert memoryId codes }

/-! ### Searches -/

/-- The candidates with their scores and prototypes, and the norm of the query. -/
structure Scores (F : Type) where
  scores : Finmap fun _ : ℕ => F
  candidateProtos : Finmap fun _ : ℕ => ℕ
  queryNorm : F

/-- Score an entry of the postings of a feature, if its memory is allowed. -/
def scoreEntry (allowed : Option (Finset ℕ)) (term : ℕ → F) (s : Scores F) (entry : PostingEntry) :
    Scores F :=
  if allowed.all (entry.memId ∈ ·) then
    { s with
      scores := s.scores.insert entry.memId
        (A.add ((s.scores.lookup entry.memId).getD A.zero) (term entry.activationQ))
      candidateProtos := s.candidateProtos.insert entry.memId
        ((s.candidateProtos.lookup entry.memId).getD entry.protoId) }
  else s

def scoreFeature (idx : CorticalIndex F) (allowed : Option (Finset ℕ)) (s : Scores F) (p : ℕ × F) :
    Scores F :=
  let df := (idx.df.lookup p.1).getD 1
  let s := { s with queryNorm := A.add s.queryNorm (A.weight idx.nMemories df p.2) }
  ((idx.postings.lookup p.1).getD []).foldl
    (scoreEntry A allowed (A.term idx.nMemories df p.2)) s

/-- An entry of a memory: that of its first feature. -/
def firstEntry (idx : CorticalIndex F) (memId : ℕ) : Option PostingEntry :=
  ((idx.memCodes.lookup memId).bind (·.featureIds.head?)).bind fun fid =>
    (idx.postings.lookup fid).bind fun list => list.find? (·.memId = memId)

/-- The score of a candidate, with strength, recency, prototype and affect. -/
def finalScore (idx : CorticalIndex F) (queryProto : Option ℕ) (s : Scores F) (memId : ℕ)
    (sparseRaw : F) : F :=
  let strength := ((idx.firstEntry memId).map (A.unquantize ·.strengthQ)).getD A.half
  let isEpisodic := ((idx.memKind.lookup memId).map fun k => k == "episode" || k == "observation").getD false
  let recency := if isEpisodic then A.recency ((idx.memTs.lookup memId).getD 0) else A.zero
  let protoBonus := match queryProto, s.candidateProtos.lookup memId with
    | some qp, some cp => if qp = cp then A.one else A.transitionBonus (idx.prototypeIdx.transition A qp cp)
    | _, _ => A.zero
  let affectBoost := ((idx.firstEntry memId).map (A.unquantize ·.affectQ)).getD A.zero
  A.score (A.overNorm sparseRaw s.queryNorm) protoBonus strength recency affectBoost

/-- The memories that share features with a query, the best ones first. -/
def search (order : KeyOrder ℕ) (idx : CorticalIndex F) (queryCode : SparseCode F) (k : ℕ)
    (allowed : Option (Finset ℕ)) : List (ℕ × F) :=
  if queryCode.isEmpty || idx.nMemories == 0 then []
  else
    let queryProto := idx.prototypeIdx.nearestProto A queryCode
    let s := (queryCode.featureIds.zip queryCode.activations).foldl (scoreFeature A idx allowed)
      ⟨∅, ∅, A.zero⟩
    let results := (entries order s.scores).map fun e => (e.1, finalScore A idx queryProto s e.1 e.2)
    (results.mergeSort fun a b =>
      ((A.totalCmp b.2 a.2).then (compare a.1 b.1)).isLE).take k

/-! ## Postings and their counts -/

/-- The entries of a feature. -/
def bucket (idx : CorticalIndex F) (f : ℕ) : List PostingEntry := (idx.postings.lookup f).getD []

/-- How many memories have a feature, as counted. -/
def frequency (idx : CorticalIndex F) (f : ℕ) : ℕ := (idx.df.lookup f).getD 0

/-- All but the postings and their counts is the same. -/
structure Framed (idx idx' : CorticalIndex F) : Prop where
  memCodes : idx'.memCodes = idx.memCodes
  memTs : idx'.memTs = idx.memTs
  memKind : idx'.memKind = idx.memKind
  prototypeIdx : idx'.prototypeIdx = idx.prototypeIdx
  nMemories : idx'.nMemories = idx.nMemories
  memPq : idx'.memPq = idx.memPq

variable {A} {idx idx' idx'' : CorticalIndex F} {f fid m memId : ℕ}

lemma Framed.refl : Framed idx idx := ⟨rfl, rfl, rfl, rfl, rfl, rfl⟩

lemma Framed.trans (h : Framed idx idx') (h' : Framed idx' idx'') : Framed idx idx'' :=
  ⟨h'.memCodes.trans h.memCodes, h'.memTs.trans h.memTs, h'.memKind.trans h.memKind,
    h'.prototypeIdx.trans h.prototypeIdx, h'.nMemories.trans h.nMemories, h'.memPq.trans h.memPq⟩

lemma getD_lookup_insert {V : Type} {map : Finmap fun _ : ℕ => V} {v d : V} :
    ((map.insert fid v).lookup f).getD d = if f = fid then v else (map.lookup f).getD d := by
  split_ifs with hf
  · rw [hf, Finmap.lookup_insert]
    rfl
  · rw [Finmap.lookup_insert_of_ne _ hf]

lemma framed_post (idx : CorticalIndex F) {entry : PostingEntry} : Framed idx (idx.post fid entry) :=
  ⟨rfl, rfl, rfl, rfl, rfl, rfl⟩

/-- Entries that are posted stand behind the others, and are counted. -/
lemma foldl_post (entry : F → PostingEntry) (pairs : List (ℕ × F)) (idx : CorticalIndex F) :
    (∀ f, (pairs.foldl (fun idx p => idx.post p.1 (entry p.2)) idx).bucket f =
      idx.bucket f ++ (pairs.filter (·.1 = f)).map (entry ·.2)) ∧
    (∀ f, (pairs.foldl (fun idx p => idx.post p.1 (entry p.2)) idx).frequency f =
      idx.frequency f + (pairs.filter (·.1 = f)).length) ∧
    Framed idx (pairs.foldl (fun idx p => idx.post p.1 (entry p.2)) idx) := by
  induction pairs generalizing idx with
  | nil => exact ⟨fun f => (List.append_nil _).symm, fun f => rfl, Framed.refl⟩
  | cons p pairs ih =>
    obtain ⟨hbucket, hfrequency, hframed⟩ := ih (idx.post p.1 (entry p.2))
    rw [List.foldl_cons]
    refine ⟨fun f => ?_, fun f => ?_, Framed.trans (framed_post idx) hframed⟩
    · rw [hbucket, bucket, post, getD_lookup_insert]
      by_cases hf : f = p.1
      · subst hf
        simp [bucket]
      · simp [bucket, hf, Ne.symm hf]
    · rw [hfrequency, frequency, post, getD_lookup_insert]
      by_cases hf : f = p.1
      · subst hf
        simp [frequency]
        omega
      · simp [frequency, hf, Ne.symm hf]

lemma bucket_dropFeature :
    (dropFeature memId idx fid).bucket f =
      if f = fid then (idx.bucket f).filter (·.memId ≠ memId) else idx.bucket f := by
  unfold dropFeature
  cases hlist : idx.postings.lookup fid with
  | none =>
    split_ifs with hf
    · rw [hf, bucket, hlist]
      rfl
    · rfl
  | some list =>
    rw [bucket, getD_lookup_insert]
    split_ifs with hf
    · rw [hf, bucket, hlist]
      rfl
    · rfl

/-- A feature that has entries is counted down. -/
lemma frequency_dropFeature (hfid : idx.bucket fid ≠ []) :
    (dropFeature memId idx fid).frequency f =
      if f = fid then idx.frequency f - 1 else idx.frequency f := by
  unfold dropFeature
  cases hlist : idx.postings.lookup fid with
  | none =>
    rw [bucket, hlist] at hfid
    exact absurd rfl hfid
  | some list =>
    unfold frequency
    cases hdf : idx.df.lookup fid with
    | none =>
      split_ifs with hf
      · rw [hf]
        dsimp only
        rw [hdf]
        rfl
      · rfl
    | some df =>
      dsimp only
      rw [getD_lookup_insert]
      split_ifs with hf
      · rw [hf, hdf]
        rfl
      · rfl

lemma framed_dropFeature : Framed idx (dropFeature memId idx fid) := by
  unfold dropFeature
  cases idx.postings.lookup fid with
  | none => exact Framed.refl
  | some list => exact ⟨rfl, rfl, rfl, rfl, rfl, rfl⟩

/-- The features of a memory lose its entries, and are counted down. -/
lemma foldl_dropFeature {fids : List ℕ} (hnodup : fids.Nodup) (hposted : ∀ f ∈ fids, idx.bucket f ≠ []) :
    (∀ f, (fids.foldl (dropFeature memId) idx).bucket f =
      if f ∈ fids then (idx.bucket f).filter (·.memId ≠ memId) else idx.bucket f) ∧
    (∀ f, (fids.foldl (dropFeature memId) idx).frequency f =
      if f ∈ fids then idx.frequency f - 1 else idx.frequency f) ∧
    Framed idx (fids.foldl (dropFeature memId) idx) := by
  induction fids generalizing idx with
  | nil => exact ⟨fun f => rfl, fun f => rfl, Framed.refl⟩
  | cons fid fids ih =>
    obtain ⟨hnot, hnodup⟩ := List.nodup_cons.mp hnodup
    obtain ⟨hhead, htail⟩ := List.forall_mem_cons.mp hposted
    have hposted' : ∀ f ∈ fids, (dropFeature memId idx fid).bucket f ≠ [] := by
      intro f hf
      rw [bucket_dropFeature, if_neg fun heq : f = fid => hnot (heq ▸ hf)]
      exact htail f hf
    obtain ⟨hbucket, hfrequency, hframed⟩ := ih hnodup hposted'
    rw [List.foldl_cons]
    refine ⟨fun f => ?_, fun f => ?_, framed_dropFeature.trans hframed⟩
    · rw [hbucket, bucket_dropFeature]
      by_cases hf : f = fid
      · subst hf
        simp [hnot]
      · simp [hf]
    · rw [hfrequency, frequency_dropFeature hhead]
      by_cases hf : f = fid
      · subst hf
        simp [hnot]
      · simp [hf]

variable {sq : ℕ} {list : List PostingEntry}

lemma restrengthen_restrengthen :
    restrengthen memId sq (restrengthen memId sq list) = restrengthen memId sq list := by
  unfold restrengthen
  rw [List.map_map]
  refine List.map_congr_left fun e _ => ?_
  rw [Function.comp_apply]
  split_ifs <;> simp_all

lemma bucket_strengthenFeature : (strengthenFeature memId sq idx fid).bucket f =
    if f = fid then restrengthen memId sq (idx.bucket f) else idx.bucket f := by
  unfold strengthenFeature
  cases hlist : idx.postings.lookup fid with
  | none =>
    split_ifs with hf
    · rw [hf, bucket, hlist]
      rfl
    · rfl
  | some list =>
    rw [bucket, getD_lookup_insert]
    split_ifs with hf
    · rw [hf, bucket, hlist]
      rfl
    · rfl

lemma framed_strengthenFeature : Framed idx (strengthenFeature memId sq idx fid) ∧
    (strengthenFeature memId sq idx fid).df = idx.df := by
  unfold strengthenFeature
  cases idx.postings.lookup fid with
  | none => exact ⟨Framed.refl, rfl⟩
  | some list => exact ⟨⟨rfl, rfl, rfl, rfl, rfl, rfl⟩, rfl⟩

/-- The features of a memory get its new strength. -/
lemma foldl_strengthenFeature (fids : List ℕ) (idx : CorticalIndex F) :
    (∀ f, (fids.foldl (strengthenFeature memId sq) idx).bucket f =
      if f ∈ fids then restrengthen memId sq (idx.bucket f) else idx.bucket f) ∧
    (fids.foldl (strengthenFeature memId sq) idx).df = idx.df ∧
    Framed idx (fids.foldl (strengthenFeature memId sq) idx) := by
  induction fids generalizing idx with
  | nil => exact ⟨fun f => rfl, rfl, Framed.refl⟩
  | cons fid fids ih =>
    obtain ⟨hbucket, hdf, hframed⟩ := ih (strengthenFeature memId sq idx fid)
    obtain ⟨hframed', hdf'⟩ : Framed idx (strengthenFeature memId sq idx fid) ∧
      (strengthenFeature memId sq idx fid).df = idx.df := framed_strengthenFeature
    rw [List.foldl_cons]
    refine ⟨fun f => ?_, hdf.trans hdf', hframed'.trans hframed⟩
    rw [hbucket, bucket_strengthenFeature]
    by_cases hf : f = fid
    · subst hf
      simp [restrengthen_restrengthen]
    · simp [hf]

/-! ## What stays right -/

/-- The postings, the counts and the prototypes are those of the codes. -/
structure Indexed (idx : CorticalIndex F) : Prop where
  listed : ∀ f m, m ∈ (idx.bucket f).map (·.memId) ↔
    ∃ code, idx.memCodes.lookup m = some code ∧ f ∈ code.featureIds
  nodup : ∀ f, ((idx.bucket f).map (·.memId)).Nodup
  counted : ∀ f, idx.frequency f = (idx.bucket f).length
  total : idx.nMemories = idx.memCodes.keys.card
  uniform : ∀ m code, idx.memCodes.lookup m = some code → ∃ strengthQ protoId,
    idx.prototypeIdx.memToProto.lookup m = some protoId ∧
    ∀ f, ∀ e ∈ idx.bucket f, e.memId = m → e.strengthQ = strengthQ ∧ e.protoId = protoId
  gone : ∀ m, idx.memCodes.lookup m = none → idx.memTs.lookup m = none ∧ idx.memKind.lookup m = none ∧
    idx.prototypeIdx.memToProto.lookup m = none

lemma indexed_new (vigilance : F) : Indexed (new vigilance) where
  listed f m := by simp [bucket, new]
  nodup f := List.nodup_nil
  counted f := rfl
  total := rfl
  uniform m code h := by
    rw [new, Finmap.lookup_empty] at h
    cases h
  gone m _ := ⟨Finmap.lookup_empty m, Finmap.lookup_empty m, Finmap.lookup_empty m⟩

lemma Indexed.not_mem_bucket (h : Indexed idx) (hm : idx.memCodes.lookup m = none) :
    ∀ e ∈ idx.bucket f, e.memId ≠ m := by
  rintro e he rfl
  obtain ⟨code, hcode, -⟩ := (h.listed f e.memId).mp (List.mem_map_of_mem he)
  rw [hm] at hcode
  cases hcode

lemma map_filter_ne (list : List PostingEntry) :
    (list.filter (·.memId ≠ memId)).map (·.memId) = (list.map (·.memId)).filter (· ≠ memId) := by
  rw [List.filter_map]
  rfl

lemma length_filter_ne (h : (list.map (·.memId)).Nodup) (hmem : memId ∈ list.map (·.memId)) :
    (list.filter (·.memId ≠ memId)).length = list.length - 1 := by
  have herase : (list.map (·.memId)).erase memId = (list.map (·.memId)).filter (· ≠ memId) := by
    rw [h.erase_eq_filter]
    exact List.filter_congr fun x _ => by rw [Bool.eq_iff_iff, bne_iff_ne, decide_eq_true_iff]
  have hlength := List.length_erase_of_mem hmem
  rwa [herase, ← map_filter_ne, List.length_map, List.length_map] at hlength

/-- Removing takes a memory out of everything but the quantized residuals. -/
lemma Indexed.remove_spec (h : Indexed idx) (memId : ℕ) :
    (∀ f, (idx.remove memId).bucket f = (idx.bucket f).filter (·.memId ≠ memId)) ∧
    (∀ f, (idx.remove memId).frequency f = ((idx.remove memId).bucket f).length) ∧
    (idx.remove memId).memCodes = idx.memCodes.erase memId ∧
    (idx.remove memId).memTs = idx.memTs.erase memId ∧
    (idx.remove memId).memKind = idx.memKind.erase memId ∧
    (idx.remove memId).prototypeIdx = idx.prototypeIdx.removeMemory memId ∧
    (idx.remove memId).nMemories = (idx.memCodes.erase memId).keys.card ∧
    (idx.remove memId).memPq = idx.memPq := by
  have hkeys : (idx.memCodes.erase memId).keys = idx.memCodes.keys.erase memId := Finmap.keys_erase _ _
  unfold remove
  cases hcode : idx.memCodes.lookup memId with
  | none =>
    have hnot : memId ∉ idx.memCodes.keys := lookup_eq_none_iff.mp hcode
    have hsame : ∀ f, (idx.bucket f).filter (·.memId ≠ memId) = idx.bucket f := fun f =>
      List.filter_eq_self.mpr fun e he => by simpa using h.not_mem_bucket hcode e he
    refine ⟨fun f => (hsame f).symm, h.counted, ?_, rfl, rfl, rfl, ?_, rfl⟩
    · refine Finmap.ext_lookup fun m => ?_
      by_cases hm : m = memId
      · rw [hm, Finmap.lookup_erase]
        exact hcode
      · rw [Finmap.lookup_erase_ne hm]
    · rw [hkeys, Finset.erase_eq_of_notMem hnot]
      exact h.total
  | some code =>
    have hmem : memId ∈ idx.memCodes.keys := mem_keys_iff.mpr (by rw [hcode]; rfl)
    have hfeature : ∀ f, memId ∈ (idx.bucket f).map (·.memId) ↔ f ∈ code.featureIds := by
      intro f
      rw [h.listed, hcode]
      simp
    have hposted : ∀ f ∈ code.featureIds,
        CorticalIndex.bucket { idx with memCodes := idx.memCodes.erase memId } f ≠ [] := by
      intro f hf hnil
      have hin := (hfeature f).mpr hf
      rw [show idx.bucket f = [] from hnil] at hin
      exact List.not_mem_nil hin
    obtain ⟨hbucket, hfrequency, hframed⟩ := @foldl_dropFeature F _ memId _ code.distinct hposted
    dsimp only
    generalize code.featureIds.foldl (dropFeature memId)
      { idx with memCodes := idx.memCodes.erase memId } = out at *
    have hfilter : ∀ f, out.bucket f = (idx.bucket f).filter (·.memId ≠ memId) := by
      intro f
      rw [hbucket]
      split_ifs with hf
      · rfl
      · refine (List.filter_eq_self.mpr fun e he => ?_).symm
        rw [decide_eq_true_iff]
        rintro rfl
        exact hf ((hfeature f).mp (List.mem_map_of_mem he))
    refine ⟨hfilter, fun f => ?_, hframed.memCodes, ?_, ?_, ?_, ?_, hframed.memPq⟩
    · change out.frequency f = (out.bucket f).length
      rw [hfrequency]
      change (if f ∈ code.featureIds then idx.frequency f - 1 else idx.frequency f) = _
      rw [h.counted]
      split_ifs with hf
      · rw [hfilter, length_filter_ne (h.nodup f) ((hfeature f).mpr hf)]
      · rw [hbucket, if_neg hf]
        rfl
    · exact congrArg (Finmap.erase memId) hframed.memTs
    · exact congrArg (Finmap.erase memId) hframed.memKind
    · exact congrArg (PrototypeIndex.removeMemory · memId) hframed.prototypeIdx
    · rw [hkeys, Finset.card_erase_of_mem hmem, ← h.total]
      exact congrArg (· - 1) hframed.nMemories

lemma Indexed.remove (h : Indexed idx) (memId : ℕ) : Indexed (idx.remove memId) := by
  obtain ⟨hbucket, hcounted, hcodes, hts, hkind, hprotos, htotal, -⟩ := h.remove_spec memId
  generalize idx.remove memId = out at *
  refine ⟨fun f m => ?_, fun f => ?_, hcounted, by rw [htotal, hcodes], fun m code hcode => ?_,
    fun m hm => ?_⟩
  · rw [hbucket, map_filter_ne, List.mem_filter, h.listed, hcodes]
    by_cases hm : m = memId
    · rw [hm, Finmap.lookup_erase]
      simp
    · rw [Finmap.lookup_erase_ne hm]
      simp [hm]
  · rw [hbucket, map_filter_ne]
    exact (h.nodup f).filter _
  · have hne : m ≠ memId := by
      rintro rfl
      rw [hcodes, Finmap.lookup_erase] at hcode
      cases hcode
    rw [hcodes, Finmap.lookup_erase_ne hne] at hcode
    obtain ⟨strengthQ, protoId, hproto, hentries⟩ := h.uniform m code hcode
    refine ⟨strengthQ, protoId, ?_, fun f e he => ?_⟩
    · rw [hprotos, PrototypeIndex.removeMemory, Finmap.lookup_erase_ne hne]
      exact hproto
    · rw [hbucket] at he
      exact hentries f e (List.mem_filter.mp he).1
  · rw [hts, hkind, hprotos, PrototypeIndex.removeMemory]
    by_cases hmem : m = memId
    · rw [hmem]
      exact ⟨Finmap.lookup_erase _ _, Finmap.lookup_erase _ _, Finmap.lookup_erase _ _⟩
    · rw [hcodes, Finmap.lookup_erase_ne hmem] at hm
      rw [Finmap.lookup_erase_ne hmem, Finmap.lookup_erase_ne hmem, Finmap.lookup_erase_ne hmem]
      exact h.gone m hm

variable {code : SparseCode F}

/-- A memory with a code gets a prototype, and nothing else of the assignments changes. -/
lemma memToProto_assign {p : PrototypeIndex F} (hcode : code.isEmpty = false) :
    (p.assign A memId code).1.memToProto = p.memToProto.insert memId (p.assign A memId code).2 := by
  unfold PrototypeIndex.assign
  rw [if_neg (by rw [hcode]; exact Bool.false_ne_true)]
  dsimp only
  cases PrototypeIndex.bestMatch A p.protos code with
  | none => rfl
  | some best =>
    dsimp only
    split_ifs <;> rfl

/-- A feature that stands once is found once. -/
lemma filter_fst_eq {pairs : List (ℕ × F)} (hnodup : (pairs.map (·.1)).Nodup) (f : ℕ) :
    (pairs.filter (·.1 = f)).map (·.1) = if f ∈ pairs.map (·.1) then [f] else [] := by
  induction pairs with
  | nil => rfl
  | cons p pairs ih =>
    rw [List.map_cons] at hnodup ⊢
    obtain ⟨hnot, hnodup⟩ := List.nodup_cons.mp hnodup
    by_cases hf : p.1 = f
    · subst hf
      have hrest : pairs.filter (·.1 = p.1) = [] := by
        refine List.filter_eq_nil_iff.mpr fun q hq heq => hnot ?_
        exact List.mem_map.mpr ⟨q, hq, of_decide_eq_true heq⟩
      simp [hrest]
    · have hmem : f ∈ p.1 :: pairs.map (·.1) ↔ f ∈ pairs.map (·.1) :=
        List.mem_cons.trans (or_iff_right (Ne.symm hf))
      rw [List.filter_cons_of_neg (by simpa using hf), ih hnodup]
      simp only [hmem]

/-- The entries that a code is posted with: one for each of its features. -/
lemma map_memId_posted (code : SparseCode F) (f : ℕ) {entry : F → PostingEntry}
    (hentry : ∀ x, (entry x).memId = memId) :
    ((((code.featureIds.zip code.activations).filter (·.1 = f)).map (entry ·.2)).map (·.memId)) =
      if f ∈ code.featureIds then [memId] else [] := by
  have hfst : (code.featureIds.zip code.activations).map (·.1) = code.featureIds :=
    List.map_fst_zip code.parallel.le
  have hnodup : ((code.featureIds.zip code.activations).map (·.1)).Nodup := by
    rw [hfst]
    exact code.distinct
  have honce := filter_fst_eq hnodup f
  rw [hfst] at honce
  have hids : ((((code.featureIds.zip code.activations).filter (·.1 = f)).map (entry ·.2)).map (·.memId)) =
      (((code.featureIds.zip code.activations).filter (·.1 = f)).map (·.1)).map fun _ => memId := by
    rw [List.map_map, List.map_map]
    exact List.map_congr_left fun p _ => hentry p.2
  rw [hids, honce]
  split_ifs <;> rfl

/-- Indexing changes no quantized residual and no code but that of the memory. -/
lemma indexNew_maps (idx : CorticalIndex F) {strengthQ affectQ : ℕ} {tsMs : ℤ} {kind : String} :
    (idx.indexNew A memId code strengthQ affectQ tsMs kind).memCodes = idx.memCodes.insert memId code ∧
    (idx.indexNew A memId code strengthQ affectQ tsMs kind).memPq = idx.memPq := by
  unfold CorticalIndex.indexNew
  generalize idx.prototypeIdx.assign A memId code = assigned
  obtain ⟨-, -, hframed⟩ := foldl_post
    (fun act => (⟨memId, A.quantize act, strengthQ, assigned.2, affectQ⟩ : PostingEntry))
    (code.featureIds.zip code.activations) { idx with prototypeIdx := assigned.1 }
  exact ⟨congrArg (Finmap.insert memId code) hframed.memCodes, hframed.memPq⟩

/-- A memory that is indexed anew. -/
lemma Indexed.indexNew (h : Indexed idx) (hcode : code.isEmpty = false)
    (hnew : idx.memCodes.lookup memId = none) (strengthQ affectQ : ℕ) (tsMs : ℤ) (kind : String) :
    Indexed (idx.indexNew A memId code strengthQ affectQ tsMs kind) := by
  have hprotos : (idx.prototypeIdx.assign A memId code).1.memToProto =
    idx.prototypeIdx.memToProto.insert memId (idx.prototypeIdx.assign A memId code).2 :=
    memToProto_assign hcode
  unfold CorticalIndex.indexNew
  generalize idx.prototypeIdx.assign A memId code = assigned at *
  obtain ⟨prototypeIdx, protoId⟩ := assigned
  dsimp only at hprotos ⊢
  obtain ⟨hbucket, hfrequency, hframed⟩ := foldl_post
    (fun act => (⟨memId, A.quantize act, strengthQ, protoId, affectQ⟩ : PostingEntry))
    (code.featureIds.zip code.activations) { idx with prototypeIdx }
  generalize (code.featureIds.zip code.activations).foldl _ { idx with prototypeIdx } = out at *
  have hids := fun f => @map_memId_posted F memId code f
    (fun act => ⟨memId, A.quantize act, strengthQ, protoId, affectQ⟩) fun _ => rfl
  have hposted : ∀ f, ∀ e ∈ (((code.featureIds.zip code.activations).filter (·.1 = f)).map
      fun p => (⟨memId, A.quantize p.2, strengthQ, protoId, affectQ⟩ : PostingEntry)),
      e.memId = memId ∧ e.strengthQ = strengthQ ∧ e.protoId = protoId := by
    intro f e he
    obtain ⟨p, -, rfl⟩ := List.mem_map.mp he
    exact ⟨rfl, rfl, rfl⟩
  have hold : ∀ f, CorticalIndex.bucket { idx with prototypeIdx } f = idx.bucket f := fun f => rfl
  have hcount : ∀ f, CorticalIndex.frequency { idx with prototypeIdx } f = idx.frequency f := fun f => rfl
  have hcodes : out.memCodes = idx.memCodes := hframed.memCodes
  have habsent : ∀ f, memId ∉ (idx.bucket f).map (·.memId) := by
    intro f hmem
    obtain ⟨e, he, heq⟩ := List.mem_map.mp hmem
    exact h.not_mem_bucket hnew e he heq
  refine ⟨fun f m => ?_, fun f => ?_, fun f => ?_, ?_, fun m code' hm => ?_, fun m hm => ?_⟩
  · change m ∈ (out.bucket f).map (·.memId) ↔ ∃ c, (out.memCodes.insert memId code).lookup m = some c ∧ _
    rw [hbucket, hold, List.map_append, List.mem_append, hids, h.listed, hcodes]
    by_cases hm : m = memId
    · subst hm
      rw [Finmap.lookup_insert, hnew]
      split_ifs with hf <;> simp [hf]
    · rw [Finmap.lookup_insert_of_ne _ hm]
      split_ifs <;> simp [hm]
  · change ((out.bucket f).map (·.memId)).Nodup
    rw [hbucket, hold, List.map_append, hids]
    refine List.nodup_append.mpr ⟨h.nodup f, ?_, fun a ha b hb => ?_⟩
    · split_ifs
      · exact List.nodup_singleton _
      · exact List.nodup_nil
    · split_ifs at hb
      · rw [List.mem_singleton.mp hb]
        rintro rfl
        exact habsent f ha
      · cases hb
  · change out.frequency f = (out.bucket f).length
    rw [hfrequency, hbucket, hcount, hold, h.counted, List.length_append, List.length_map]
  · change out.nMemories + 1 = (out.memCodes.insert memId code).keys.card
    have hnot : memId ∉ idx.memCodes.keys := lookup_eq_none_iff.mp hnew
    rw [hcodes, keys_insert, Finset.card_insert_of_notMem hnot, ← h.total]
    exact congrArg (· + 1) hframed.nMemories
  · change (out.memCodes.insert memId code).lookup m = some code' at hm
    change ∃ strengthQ protoId, out.prototypeIdx.memToProto.lookup m = some protoId ∧
      ∀ f, ∀ e ∈ out.bucket f, e.memId = m → _
    have hproto : out.prototypeIdx.memToProto = idx.prototypeIdx.memToProto.insert memId protoId := by
      rw [hframed.prototypeIdx]
      exact hprotos
    by_cases hmem : m = memId
    · subst hmem
      refine ⟨strengthQ, protoId, by rw [hproto, Finmap.lookup_insert], fun f e he heq => ?_⟩
      rw [hbucket, hold, List.mem_append] at he
      rcases he with he | he
      · exact absurd heq (h.not_mem_bucket hnew e he)
      · exact (hposted f e he).2
    · rw [hcodes, Finmap.lookup_insert_of_ne _ hmem] at hm
      obtain ⟨strengthQ', protoId', hassigned, hentries⟩ := h.uniform m code' hm
      refine ⟨strengthQ', protoId', by rw [hproto, Finmap.lookup_insert_of_ne _ hmem]; exact hassigned,
        fun f e he heq => ?_⟩
      rw [hbucket, hold, List.mem_append] at he
      rcases he with he | he
      · exact hentries f e he heq
      · exact absurd (heq.symm.trans (hposted f e he).1) hmem
  · change (out.memCodes.insert memId code).lookup m = none at hm
    change (out.memTs.insert memId tsMs).lookup m = none ∧ (out.memKind.insert memId kind).lookup m = none ∧
      out.prototypeIdx.memToProto.lookup m = none
    have hne : m ≠ memId := by
      rintro rfl
      rw [Finmap.lookup_insert] at hm
      cases hm
    rw [hcodes, Finmap.lookup_insert_of_ne _ hne] at hm
    obtain ⟨hts, hkind, hproto⟩ := h.gone m hm
    rw [Finmap.lookup_insert_of_ne _ hne, Finmap.lookup_insert_of_ne _ hne, hframed.memTs,
      hframed.memKind, hframed.prototypeIdx]
    refine ⟨hts, hkind, ?_⟩
    change prototypeIdx.memToProto.lookup m = none
    rw [hprotos, Finmap.lookup_insert_of_ne _ hne]
    exact hproto

lemma map_memId_restrengthen (list : List PostingEntry) :
    (restrengthen memId sq list).map (·.memId) = list.map (·.memId) := by
  unfold restrengthen
  rw [List.map_map]
  refine List.map_congr_left fun e _ => ?_
  rw [Function.comp_apply]
  split_ifs <;> rfl

/-- An entry that was strengthened, or that belongs to another memory. -/
lemma mem_restrengthen {e : PostingEntry} (he : e ∈ restrengthen memId sq list) :
    ∃ e' ∈ list, e.memId = e'.memId ∧ e.protoId = e'.protoId ∧
      e.strengthQ = if e.memId = memId then sq else e'.strengthQ := by
  obtain ⟨e', he', rfl⟩ := List.mem_map.mp he
  refine ⟨e', he', ?_⟩
  by_cases hid : e'.memId = memId
  · rw [if_pos hid]
    exact ⟨rfl, rfl, (if_pos hid).symm⟩
  · rw [if_neg hid]
    exact ⟨rfl, rfl, (if_neg hid).symm⟩

/-- All but the postings stays where a strength is set. -/
lemma framed_updateStrength (idx : CorticalIndex F) (memId : ℕ) (strength : F) :
    Framed idx (idx.updateStrength A memId strength) := by
  unfold updateStrength
  cases idx.memCodes.lookup memId with
  | none => exact Framed.refl
  | some code => exact (foldl_strengthenFeature _ _).2.2

lemma Indexed.updateStrength (h : Indexed idx) (memId : ℕ) (strength : F) :
    Indexed (idx.updateStrength A memId strength) := by
  unfold CorticalIndex.updateStrength
  cases hcode : idx.memCodes.lookup memId with
  | none => exact h
  | some code =>
    obtain ⟨hbucket, hdf, hframed⟩ := @foldl_strengthenFeature F memId (A.quantizeUnit strength)
      code.featureIds idx
    dsimp only
    generalize code.featureIds.foldl (strengthenFeature memId (A.quantizeUnit strength)) idx = out at *
    have hids : ∀ f, (out.bucket f).map (·.memId) = (idx.bucket f).map (·.memId) := by
      intro f
      rw [hbucket]
      split_ifs
      · exact map_memId_restrengthen _
      · rfl
    refine ⟨fun f m => ?_, fun f => ?_, fun f => ?_, ?_, fun m code' hm => ?_, fun m hm => ?_⟩
    · rw [hids, hframed.memCodes]
      exact h.listed f m
    · rw [hids]
      exact h.nodup f
    · have hlength : (out.bucket f).length = (idx.bucket f).length := by
        rw [← List.length_map (·.memId), hids, List.length_map]
      rw [hlength, ← h.counted, frequency, hdf, frequency]
    · rw [hframed.nMemories, hframed.memCodes]
      exact h.total
    · rw [hframed.memCodes] at hm
      obtain ⟨strengthQ, protoId, hproto, hentries⟩ := h.uniform m code' hm
      rw [hframed.prototypeIdx]
      refine ⟨if m = memId then A.quantizeUnit strength else strengthQ, protoId, hproto, ?_⟩
      rintro f e he rfl
      rw [hbucket] at he
      split_ifs at he with hf
      · obtain ⟨e', he', hid, hproto', hstrength⟩ := mem_restrengthen he
        obtain ⟨hold, hold'⟩ := hentries f e' he' hid.symm
        rw [hstrength, hold]
        exact ⟨rfl, hproto'.trans hold'⟩
      · -- A feature that the memory does not have lists entries of other memories alone.
        have hne : e.memId ≠ memId := by
          intro heq
          obtain ⟨c, hc, hfc⟩ := (h.listed f e.memId).mp (List.mem_map_of_mem he)
          rw [heq, hcode] at hc
          exact hf (Option.some.inj hc ▸ hfc)
        rw [if_neg hne]
        exact hentries f e he rfl
    · rw [hframed.memCodes] at hm
      rw [hframed.memTs, hframed.memKind, hframed.prototypeIdx]
      exact h.gone m hm

lemma Indexed.indexWithAffect (h : Indexed idx) (memId : ℕ) (code : SparseCode F) (strength : F)
    (tsMs : ℤ) (kind : String) (affectArousal : F) :
    Indexed (idx.indexWithAffect A memId code strength tsMs kind affectArousal) := by
  unfold CorticalIndex.indexWithAffect
  split_ifs with hempty hsome
  · exact h
  · refine (h.remove memId).indexNew (Bool.eq_false_iff.mpr hempty) ?_ _ _ _ _
    rw [(h.remove_spec memId).2.2.1, Finmap.lookup_erase]
  · exact h.indexNew (Bool.eq_false_iff.mpr hempty) (Option.not_isSome_iff_eq_none.mp hsome) _ _ _ _

end CorticalIndex

end ChittaField
