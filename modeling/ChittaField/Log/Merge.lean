import ChittaField.Lib.Lists
import ChittaField.Log.Directory
import ChittaField.Log.Reference

/-!
# Merge replay

`replayCertified` walks every segment of the directory in the order of the names and hands the
operations on in merge order: by effective timestamp, then instance, then sequence number.  The
effective timestamp of an operation is its own, raised to that of the operation before it by the
same writer; an operation without a clock takes the one before it.  So the timestamps of one writer
never decrease, and sorting by them keeps every writer's order.

Segments stamped with another vector space are fenced out, and archived once their writer is done
with them.  With a checkpoint family, a writer all of whose segments are certified and covered is
skipped.
-/

namespace ChittaField

variable {F : Type}

/-! ## Effective timestamps -/

/-- An operation with its merge key. -/
structure Stamped (F : Type) where
  effTs : ℤ
  inst : InstanceId
  seqno : ℕ
  op : Op F

/-- The merge key: effective timestamp, instance, sequence number. -/
def Stamped.key (a : Stamped F) : ℤ ×ₗ ℕ ×ₗ ℕ := toLex (a.effTs, toLex (a.inst, a.seqno))

/-- The order of merge replay. -/
def mergeLE (a b : Stamped F) : Prop := a.key ≤ b.key

instance : DecidableRel (mergeLE (F := F)) := fun a b => inferInstanceAs (Decidable (a.key ≤ b.key))

instance : IsTrans (Stamped F) mergeLE := ⟨fun _ _ _ h h' => le_trans (α := ℤ ×ₗ ℕ ×ₗ ℕ) h h'⟩

instance : Std.Total (mergeLE (F := F)) := ⟨fun a b => le_total a.key b.key⟩

/-- The operation without its effective timestamp, as the callback of replay gets it. -/
def Stamped.handed (a : Stamped F) : InstanceId × ℕ × Op F := (a.inst, a.seqno, a.op)

/-- The effective timestamp of an operation after one with effective timestamp `prev`. -/
def effectiveTs (prev : ℤ) (op : Op F) : ℤ := max ((opTimestamp op).getD prev) prev

/-- The operations collected so far and the last effective timestamp of each writer. -/
structure Stamper (F : Type) where
  lastTs : InstanceId → Option ℤ
  buf : List (Stamped F)

/-- Nothing collected. -/
def Stamper.empty : Stamper F := ⟨fun _ => none, []⟩

/-- Collect an operation of a writer. -/
def Stamper.push (s : Stamper F) (inst : InstanceId) (seqno : ℕ) (op : Op F) : Stamper F :=
  let eff := effectiveTs ((s.lastTs inst).getD 0) op
  ⟨Function.update s.lastTs inst (some eff), s.buf ++ [⟨eff, inst, seqno, op⟩]⟩

/-- Collect operations in order. -/
def Stamper.pushAll (s : Stamper F) (ops : List (InstanceId × ℕ × Op F)) : Stamper F :=
  ops.foldl (fun s o => s.push o.1 o.2.1 o.2.2) s

/-! ## Checkpoint families -/

/-- The part of a checkpoint family that replay reads: coverage by writer, in hexadecimal, and the
certified segments. -/
structure CheckpointSet where
  snapshotSeqno : ℕ
  covered : List (List Char × ℕ)
  corticalCovered : List (List Char × ℕ)
  segments : List SegmentInfo
  vectorSpaceId : Option ℕ

/-- The coverage vector of a manifest, by instance id. -/
def coverageVector (map : List (List Char × ℕ)) : InstanceId → Option ℕ :=
  map.foldl (fun v (k, n) =>
    match fromStrRadix16 k with
    | none => v
    | some inst => Function.update v inst (some n)) fun _ => none

/-- The part of the log's state that replay reads: whose log it is, its vector space, its open
segment, and which segment files were last changed before the open one. -/
structure LogView where
  inst : InstanceId
  vectorSpaceId : ℕ
  writerPath : FileName
  older : FileName → Bool

/-- The name of a segment in the inventory, relative to the data directory. -/
def relativePath (name : FileName) : FileName := "segments/".toList ++ name

/-- A relative path without the directory. -/
def stripSegments (path : FileName) : Option FileName :=
  if path.take 9 = "segments/".toList then some (path.drop 9) else none

/-- A certified segment is covered: it still has its certified size, and both snapshots hold
everything in it. -/
def coveredSegment (dir : SegDir) (entry : SegmentInfo) (full cortical : InstanceId → Option ℕ)
    (writerPath : FileName) : Bool :=
  match stripSegments entry.path with
  | none => false
  | some name =>
    match segmentIdentity name with
    | none => false
    | some (writer, first) =>
      if first ≠ entry.firstSeqno ∨ entry.lastSeqno < first - 1 then false
      else match full writer, cortical writer with
        | some full, some cortical =>
          name ≠ writerPath ∧ entry.lastSeqno ≤ min full cortical ∧
            (dir.read name).any (·.length = entry.sizeBytes)
        | _, _ => false

/-- A segment that its writer is done with: an earlier one of our own, or a foreign one older than
our open segment. -/
def sealedCandidate (log : LogView) (name : FileName) : Bool :=
  match segmentIdentity name, segmentIdentity log.writerPath with
  | some (writer, first), some (live, liveFirst) =>
    if name = log.writerPath then false
    else if writer = live then first < liveFirst
    else log.older name
  | _, _ => false

namespace CheckpointSet

/-- The certificate of a segment; a later one replaces an earlier one. -/
def entryFor (cp : CheckpointSet) (name : FileName) : Option SegmentInfo :=
  cp.segments.reverse.find? (·.path = relativePath name)

/-- The segment has a certificate and is covered by it. -/
def eligible (cp : CheckpointSet) (log : LogView) (dir : SegDir) (name : FileName) : Bool :=
  (cp.entryFor name).any fun e =>
    coveredSegment dir e (coverageVector cp.covered) (coverageVector cp.corticalCovered)
      log.writerPath

end CheckpointSet

/-- The certificate a segment is skipped on: all segments of its writer are eligible. -/
def skippedEntry (log : LogView) (dir : SegDir) (family : Option CheckpointSet)
    (segments : List FileName) (name : FileName) : Option SegmentInfo :=
  match family with
  | none => none
  | some cp =>
    if cp.vectorSpaceId = some log.vectorSpaceId ∧
        segments.all fun n => writerPart n ≠ writerPart name ∨ cp.eligible log dir n then
      cp.entryFor name
    else none

/-! ## The walk over the directory -/

/-- The vector space a V3 segment is stamped with. -/
def segmentVectorSpaceId (file : Bytes) : Option ℕ :=
  match readExact 8 file with
  | none => none
  | some (magic, bs) =>
    if magic ≠ segmentMagicV3 then none
    else match readExact 40 bs with
      | none => none
      | some (_, bs) => (readExact 8 bs).map fun r => beNat r.1

/-- The segment is stamped with a vector space that is not the log's. -/
def isForeign (log : LogView) (file : Bytes) : Bool :=
  (segmentVectorSpaceId file).any (· ≠ log.vectorSpaceId)

/-- Move a foreign segment to the archive, which never overwrites. -/
def archiveForeignSegment (dir : SegDir) (name : FileName) : Except FieldError SegDir :=
  if name ∈ dir.archive then
    .error (.manifest ("foreign segment archive already exists: " ++ String.ofList name))
  else .ok { dir.remove name with archive := name :: dir.archive }

/-- The state of the walk over the directory. -/
structure Merge (F : Type) where
  dir : SegDir
  chainHead : ChainHash
  currentInstance : Option (List Char)
  ownChainHead : ChainHash
  stamper : Stamper F
  coverage : InstanceId → Option ℕ
  inventory : List SegmentInfo

/-- The coverage of a writer is at least `n`. -/
def raiseCoverage (coverage : InstanceId → Option ℕ) (inst : InstanceId) (n : ℕ) :
    InstanceId → Option ℕ :=
  Function.update coverage inst (some (max ((coverage inst).getD 0) n))

/-- Replay a segment that is neither skipped nor fenced out. -/
def Merge.replaySegment (W : Wire F) (log : LogView) (name : FileName) (file : Bytes)
    (m : Merge F) : Merge F × Option FieldError :=
  let instance' := writerPart name
  let inst := instOf name
  let head := if instance' = m.currentInstance then m.chainHead else zeroHash
  let res := replaySegmentInventoried W name file 0 head
  let dir := m.dir.repair name file res.file
  match res.result with
  | .error e => ({ m with dir := dir }, some e)
  | .ok (chainHead, certificate) =>
    ({ dir := dir
       chainHead := chainHead
       currentInstance := instance'
       ownChainHead := if instance' = some (instHex log.inst) then chainHead else m.ownChainHead
       stamper := m.stamper.pushAll (res.delivered.map fun r => (inst, r.1, r.2))
       coverage := res.delivered.foldl (fun c r => raiseCoverage c inst r.1)
         (raiseCoverage m.coverage inst 0)
       inventory := m.inventory ++ certificate.toList }, none)

/-- One segment of the walk. -/
def Merge.step (W : Wire F) (log : LogView) (skipped : FileName → Option SegmentInfo)
    (name : FileName) (m : Merge F) : Merge F × Option FieldError :=
  match skipped name with
  | some entry =>
    let coverage := match (writerPart name).bind fromStrRadix16 with
      | some inst => raiseCoverage m.coverage inst entry.lastSeqno
      | none => m.coverage
    ({ m with coverage := coverage }, none)
  | none =>
    match m.dir.read name with
    | none => (m, some (.io "not found"))
    | some file =>
      if isForeign log file then
        if sealedCandidate log name then
          match archiveForeignSegment m.dir name with
          | .error e => (m, some e)
          | .ok dir => ({ m with dir := dir }, none)
        else (m, none)
      else m.replaySegment W log name file

/-- The walk over the segments, up to the first error. -/
def Merge.loop (W : Wire F) (log : LogView) (skipped : FileName → Option SegmentInfo) :
    List FileName → Merge F → Merge F × Option FieldError
  | [], m => (m, none)
  | name :: names, m =>
    match m.step W log skipped name with
    | (m, some e) => (m, some e)
    | (m, none) => loop W log skipped names m

/-- The result of a replay without error: the operations in the order they are handed to the
callback, the chain tip of the log's own instance, the coverage by writer, and the part of the log
that the next checkpoint is charged with. -/
structure Replayed (F : Type) where
  handed : List (InstanceId × ℕ × Op F)
  chainHead : ChainHash
  coverage : InstanceId → Option ℕ
  recoveredBytes : ℕ
  recoveredRecords : ℕ

/-- The outcome of a replay.  An error leaves the repairs made on the way. -/
structure ReplayOutcome (F : Type) where
  dir : SegDir
  inventory : List SegmentInfo
  result : Except FieldError (Replayed F)

/-- The walk before the first segment. -/
def Merge.start (dir : SegDir) (inventory : List SegmentInfo) : Merge F :=
  ⟨dir, zeroHash, none, zeroHash, .empty, fun _ => none, inventory⟩

/-- What the two snapshots of a family both cover of a writer. -/
def jointCoverage (family : Option CheckpointSet) (inst : InstanceId) : ℕ :=
  match family with
  | none => 0
  | some cp => min ((coverageVector cp.covered inst).getD 0)
      ((coverageVector cp.corticalCovered inst).getD 0)

/-- The end of a walk without error. -/
def Merge.finish (family : Option CheckpointSet) (m : Merge F) : Replayed F where
  handed := (m.stamper.buf.insertionSort mergeLE).map Stamped.handed
  chainHead := m.ownChainHead
  coverage := m.coverage
  recoveredBytes := ((m.inventory.filter fun entry =>
    (((stripSegments entry.path).bind writerPart).bind fromStrRadix16).any fun w =>
      jointCoverage family w < entry.lastSeqno).map (·.sizeBytes)).sum
  recoveredRecords := m.stamper.buf.countP fun a => jointCoverage family a.inst < a.seqno

/-- Replay all segments in merge order, skipping certified ones. -/
def replayCertified (W : Wire F) (log : LogView) (family : Option CheckpointSet) (dir : SegDir) :
    ReplayOutcome F :=
  let segments := collectAllSegments dir
  let skipped := skippedEntry log dir family segments
  let (m, err) := Merge.loop W log skipped segments
    (.start dir (segments.filterMap skipped))
  ⟨m.dir, m.inventory,
    match err with
    | some e => .error e
    | none => .ok (m.finish family)⟩

/-! ## The records of a segment file -/

/-- The records that stand in `bs`: each checks, and behind the last one the file ends or tears. -/
inductive Records (W : Wire F) (version : ℕ) : Bytes → List (ℕ × Op F) → Prop
  | done {bs : Bytes} (h : bs.length < 4) : Records W version bs []
  | torn {bs : Bytes} (h : readFrame version bs = .torn) : Records W version bs []
  | tornCrc {bs : Bytes} {f : Frame} (h : readFrame version bs = .frame f [])
    (hcrc : f.computedCrc W version ≠ f.storedCrc) : Records W version bs []
  | record {bs rest : Bytes} {f : Frame} {op : Op F} {rs : List (ℕ × Op F)}
    (h : readFrame version bs = .frame f rest) (hcrc : f.computedCrc W version = f.storedCrc)
    (hop : decodeOp W f = .ok op) (hrest : Records W version rest rs) :
    Records W version bs ((f.seqno, op) :: rs)

/-- The records of a segment file.  A file that ends in its header has none. -/
def SegmentFile (W : Wire F) (file : Bytes) (rs : List (ℕ × Op F)) : Prop :=
  readHeader file = .short ∧ rs = [] ∨
    ∃ version first rest, readHeader file = .header version first rest ∧ Records W version rest rs

variable {rs : List (ℕ × Op F)}

/-- The walk delivers the records and does not fail. -/
lemma walk_records (W : Wire F) {version : ℕ} {bs : Bytes} (h : Records W version bs rs) (fileLen : ℕ)
    (st : Walk F) :
    ∃ st' e, walk W version 0 fileLen bs st = (st', e) ∧ st'.delivered = st.delivered ++ rs ∧
      ∀ err, e ≠ .failed err := by
  induction h generalizing st with
  | done h =>
    refine ⟨st, .complete, ?_, by simp, by simp⟩
    rw [walk_eq, (readFrame_eof_iff _).mpr h]
  | @torn bs h =>
    refine ⟨st, .torn (fileLen - bs.length), ?_, by simp, by simp⟩
    rw [walk_eq, h]
  | @tornCrc bs f h hcrc =>
    refine ⟨st, .torn (fileLen - bs.length), ?_, by simp, by simp⟩
    rw [walk_eq, h]
    simp [hcrc]
  | @record bs rest f op rs h hcrc hop _ ih =>
    obtain ⟨st', e, hwalk, hdel, he⟩ := ih
      (Walk.accept { st with chainHead := nextChainHead W version st.chainHead f } f.seqno
        (fileLen - rest.length) op)
    refine ⟨st', e, ?_, by simpa [Walk.accept] using hdel, he⟩
    rw [walk_eq, h]
    simpa [hcrc, hop] using hwalk

variable {file : Bytes}

/-- The reader delivers the records of a segment file and does not fail. -/
lemma replaySegment_of_segmentFile (W : Wire F) (name : FileName) (h : SegmentFile W file rs)
    (head : ChainHash) : (replaySegmentInventoried W name file 0 head).delivered = rs ∧
      ∃ r, (replaySegmentInventoried W name file 0 head).result = .ok r := by
  rcases h with ⟨hshort, rfl⟩ | ⟨version, first, rest, hheader, hrecords⟩
  · simp [replaySegmentInventoried, hshort]
  · obtain ⟨st', e, hwalk, hdel, he⟩ := walk_records W hrecords file.length
      (Walk.start head (file.length - rest.length))
    simp only [replaySegmentInventoried, hheader, hwalk]
    cases e with
    | complete => exact ⟨by simpa [SegmentReplay.ofWalk, Walk.start] using hdel, _, rfl⟩
    | torn k => exact ⟨by simpa [SegmentReplay.ofWalk, Walk.start] using hdel, _, rfl⟩
    | failed err => exact absurd rfl (he err)

/-- Valid records in front of others. -/
lemma Records.encodeAll {W : Wire F} {version : ℕ} (hv : 2 ≤ version) {es : List (Entry F)}
    (hes : ∀ e ∈ es, e.Valid W) {tail : Bytes} (htail : Records W version tail rs) :
    Records W version (ChittaField.encodeAll W (records es) ++ tail)
      (es.map (fun e => (e.record.seqno, e.op)) ++ rs) := by
  induction es with
  | nil => simpa using htail
  | cons e es ih =>
    have he := hes e List.mem_cons_self
    rw [records_cons, encodeAll_cons, List.append_assoc, List.map_cons, List.cons_append,
      ← Record.toFrame_seqno W he.seqno_lt]
    exact .record (readFrame_encode W hv he.payload_lt _) (Record.toFrame_crc W hv _)
      he.decodeOp_eq (ih (List.forall_mem_cons.mp hes).2)

/-- A chained header followed by records. -/
lemma ChainedHeader.segmentFile {W : Wire F} {version first : ℕ} {hdr : Bytes}
    (hhdr : ChainedHeader version first hdr) {bs : Bytes} (h : Records W version bs rs) :
    SegmentFile W (hdr ++ bs) rs :=
  Or.inr ⟨version, first, bs, hhdr.readHeader_eq bs, h⟩

/-- A chained header followed by valid records. -/
lemma ChainedHeader.segmentFile_encodeAll {W : Wire F} {version first : ℕ} {hdr : Bytes}
    (hhdr : ChainedHeader version first hdr) {es : List (Entry F)} (hes : ∀ e ∈ es, e.Valid W) :
    SegmentFile W (hdr ++ encodeAll W (records es)) (es.map fun e => (e.record.seqno, e.op)) := by
  have h := Records.encodeAll hhdr.two_le hes (.done (by simp) : Records W version [] [])
  rw [List.append_nil, List.append_nil] at h
  exact hhdr.segmentFile h

/-! ## Carrying timestamps forward -/

/-- The operations of one writer with their effective timestamps. -/
def carryForward (inst : InstanceId) : ℤ → List (ℕ × Op F) → List (Stamped F)
  | _, [] => []
  | prev, (seqno, op) :: rs =>
    ⟨effectiveTs prev op, inst, seqno, op⟩ :: carryForward inst (effectiveTs prev op) rs

lemma le_effectiveTs (prev : ℤ) (op : Op F) : prev ≤ effectiveTs prev op := le_max_right _ _

/-- Effective timestamps never fall behind the one they started from. -/
lemma le_effTs_of_mem_carryForward {inst : InstanceId} {prev : ℤ} {a : Stamped F}
    (h : a ∈ carryForward inst prev rs) : prev ≤ a.effTs := by
  induction rs generalizing prev with
  | nil => simp [carryForward] at h
  | cons r rs ih =>
    rcases List.mem_cons.mp h with rfl | h
    · exact le_effectiveTs prev r.2
    · exact (le_effectiveTs prev r.2).trans (ih h)

lemma carryForward_handed (inst : InstanceId) (prev : ℤ) (rs : List (ℕ × Op F)) :
    (carryForward inst prev rs).map Stamped.handed = rs.map fun r => (inst, r.1, r.2) := by
  induction rs generalizing prev with
  | nil => rfl
  | cons r rs ih => simp [carryForward, ih, Stamped.handed]

/-- One writer's operations are in merge order if their sequence numbers increase. -/
lemma carryForward_pairwise (inst : InstanceId) (prev : ℤ) (h : (rs.map Prod.fst).Pairwise (· < ·)) :
    (carryForward inst prev rs).Pairwise mergeLE := by
  induction rs generalizing prev with
  | nil => exact List.Pairwise.nil
  | cons r rs ih =>
    rw [List.map_cons, List.pairwise_cons] at h
    refine List.Pairwise.cons (fun b hb => ?_) (ih _ h.2)
    have hts := le_effTs_of_mem_carryForward hb
    have hhanded : b.handed ∈ rs.map fun r => (inst, r.1, r.2) := by
      rw [← carryForward_handed inst (effectiveTs prev r.2)]
      exact List.mem_map_of_mem hb
    obtain ⟨r', hr', heq⟩ := List.mem_map.mp hhanded
    have hinst : inst = b.inst := congrArg Prod.fst heq
    have hseqno : r'.1 = b.seqno := congrArg (fun o => o.2.1) heq
    have hlt : r.1 < b.seqno := hseqno ▸ h.1 _ (List.mem_map_of_mem hr')
    simp only [mergeLE, Stamped.key, Prod.Lex.le_iff, ofLex_toLex]
    rcases hts.lt_or_eq with hts | hts
    · exact Or.inl hts
    · exact Or.inr ⟨hts, Or.inr ⟨hinst, hlt.le⟩⟩

/-- Where no clock is ahead of the first one, all operations get the timestamp of the first one. -/
lemma carryForward_latest {inst : InstanceId} {first : ℕ × Op F}
    (h : ∀ r ∈ rs, effectiveTs 0 r.2 ≤ effectiveTs 0 first.2) :
    carryForward inst 0 (first :: rs) =
      (first :: rs).map fun r => ⟨effectiveTs 0 first.2, inst, r.1, r.2⟩ := by
  rw [carryForward, List.map_cons]
  congr 1
  induction rs with
  | nil => rfl
  | cons r rs ih =>
    obtain ⟨hr, hrs⟩ := List.forall_mem_cons.mp h
    have hts : effectiveTs (effectiveTs 0 first.2) r.2 = effectiveTs 0 first.2 := by
      refine max_eq_right ?_
      cases hop : opTimestamp r.2 with
      | none => exact le_rfl
      | some t =>
        rw [effectiveTs, hop] at hr
        exact (le_max_left ..).trans hr
    rw [carryForward, hts, ih hrs, List.map_cons]

/-- Operations with one timestamp are sorted by their sequence numbers. -/
lemma insertionSort_stamped {inst : InstanceId} {ts : ℤ} {sorted : List (ℕ × Op F)}
    (hperm : sorted.Perm rs) (hseqno : (sorted.map Prod.fst).Pairwise (· < ·)) :
    (rs.map fun r => (⟨ts, inst, r.1, r.2⟩ : Stamped F)).insertionSort mergeLE =
      sorted.map fun r => ⟨ts, inst, r.1, r.2⟩ := by
  refine @List.Perm.eq_of_pairwise _ mergeLE _ _ ?_ (List.pairwise_insertionSort _ _) ?_
    ((List.perm_insertionSort _ _).trans (hperm.symm.map _))
  · intro a b ha hb hab hba
    obtain ⟨r, hr, rfl⟩ := List.mem_map.mp ((List.mem_insertionSort mergeLE).mp ha)
    obtain ⟨r', hr', rfl⟩ := List.mem_map.mp hb
    have hkey := le_antisymm (α := ℤ ×ₗ ℕ ×ₗ ℕ) hab hba
    have heq : r.1 = r'.1 := congrArg (fun k : ℤ ×ₗ ℕ ×ₗ ℕ => (ofLex (ofLex k).2).2) hkey
    rw [List.inj_on_of_nodup_map (hseqno.imp fun h => h.ne) (hperm.mem_iff.mpr hr) hr' heq]
  · rw [List.pairwise_map]
    refine (List.pairwise_map.mp hseqno).imp fun hlt => ?_
    simp [mergeLE, Stamped.key, Prod.Lex.le_iff, hlt.le]

/-- What has been collected of one writer. -/
lemma Stamper.pushAll_filter (s : Stamper F) (ops : List (InstanceId × ℕ × Op F))
    (inst : InstanceId) :
    (s.pushAll ops).buf.filter (·.inst = inst) = s.buf.filter (·.inst = inst) ++
      carryForward inst ((s.lastTs inst).getD 0) ((ops.filter (·.1 = inst)).map Prod.snd) := by
  induction ops generalizing s with
  | nil => simp [pushAll, carryForward]
  | cons o ops ih =>
    have hstep : s.pushAll (o :: ops) = (s.push o.1 o.2.1 o.2.2).pushAll ops := rfl
    rw [hstep, ih]
    by_cases h : o.1 = inst
    · subst h
      simp [push, carryForward]
    · have h' : inst ≠ o.1 := fun h' => h h'.symm
      simp [push, h, h']

lemma Stamper.pushAll_handed (s : Stamper F) (ops : List (InstanceId × ℕ × Op F)) :
    (s.pushAll ops).buf.map Stamped.handed = s.buf.map Stamped.handed ++ ops := by
  induction ops generalizing s with
  | nil => simp [pushAll]
  | cons o ops ih =>
    have hstep : s.pushAll (o :: ops) = (s.push o.1 o.2.1 o.2.2).pushAll ops := rfl
    rw [hstep, ih]
    simp [push, Stamped.handed]

@[simp] lemma Stamper.pushAll_append (s : Stamper F) (ops ops' : List (InstanceId × ℕ × Op F)) :
    s.pushAll (ops ++ ops') = (s.pushAll ops).pushAll ops' :=
  List.foldl_append

/-! ## The order of merge replay -/

/-- The segments that pass the lineage fence. -/
def admittedSegments (log : LogView) (dir : SegDir) : List FileName :=
  (collectAllSegments dir).filter fun name => (dir.read name).all (!isForeign log ·)

/-- No fenced segment that would be moved has a namesake in the archive. -/
def ArchiveFree (log : LogView) (dir : SegDir) : Prop :=
  ∀ name ∈ collectAllSegments dir, name ∉ admittedSegments log dir →
    sealedCandidate log name = true → name ∉ dir.archive

/-- The records of segments, attributed to their writers, in file order. -/
def segmentOps (recs : FileName → List (ℕ × Op F)) (names : List FileName) :
    List (InstanceId × ℕ × Op F) :=
  names.flatMap fun name => (recs name).map fun r => (instOf name, r.1, r.2)

/-- The records of one writer in the order it appended them. -/
def writerOps (recs : FileName → List (ℕ × Op F)) (names : List FileName) (inst : InstanceId) :
    List (ℕ × Op F) :=
  (names.filter (instOf · = inst)).flatMap recs

lemma segmentOps_filter (recs : FileName → List (ℕ × Op F)) (names : List FileName)
    (inst : InstanceId) :
    ((segmentOps recs names).filter (·.1 = inst)).map Prod.snd = writerOps recs names inst := by
  induction names with
  | nil => rfl
  | cons name names ih =>
    have hcons : segmentOps recs (name :: names) =
        ((recs name).map fun r => (instOf name, r.1, r.2)) ++ segmentOps recs names := rfl
    rw [hcons, List.filter_append, List.map_append, ih]
    by_cases h : instOf name = inst
    · have hall : ((recs name).map fun r => (instOf name, r.1, r.2)).filter
          (fun o => decide (o.1 = inst)) = (recs name).map fun r => (instOf name, r.1, r.2) :=
        List.filter_eq_self.mpr fun o ho => by
          obtain ⟨r, -, rfl⟩ := List.mem_map.mp ho
          simpa using h
      rw [hall]
      simp [writerOps, h]
    · have hnone : ((recs name).map fun r => (instOf name, r.1, r.2)).filter
          (fun o => decide (o.1 = inst)) = [] :=
        List.filter_eq_nil_iff.mpr fun o ho => by
          obtain ⟨r, -, rfl⟩ := List.mem_map.mp ho
          simpa using h
      rw [hnone]
      simp [writerOps, h]

/-- A step of the walk touches no file but the one it is at. -/
lemma Merge.step_read_of_ne (W : Wire F) (log : LogView) (skipped : FileName → Option SegmentInfo)
    {name name' : FileName} (hne : name' ≠ name) (m : Merge F) :
    (m.step W log skipped name).1.dir.read name' = m.dir.read name' := by
  unfold step
  split
  · rfl
  · split
    · rfl
    · split
      · split
        · unfold archiveForeignSegment
          split
          · rfl
          · rename_i dir heq
            split at heq
            · cases heq
            · cases heq
              exact SegDir.read_remove_of_ne m.dir hne
        · rfl
      · unfold replaySegment
        dsimp only
        split <;> exact SegDir.read_repair_of_ne m.dir _ _ hne

/-- What every step of the walk keeps, the walk keeps. -/
lemma Merge.loop_invariant (W : Wire F) (log : LogView) (skipped : FileName → Option SegmentInfo)
    {P : Merge F → Prop} (hstep : ∀ name m, P m → P (m.step W log skipped name).1)
    (names : List FileName) {m : Merge F} (h : P m) : P (m.loop W log skipped names).1 := by
  induction names generalizing m with
  | nil => exact h
  | cons name names ih =>
    have h' := hstep name m h
    rw [loop]
    split
    · rename_i heq
      rwa [heq] at h'
    · rename_i heq
      rw [heq] at h'
      exact ih h'

variable {name : FileName}

/-- The walk leaves a segment of its own lineage as it is if the reader does. -/
lemma Merge.loop_read_whole (W : Wire F) (log : LogView) (skipped : FileName → Option SegmentInfo)
    (hforeign : isForeign log file = false)
    (hwhole : ∀ head, (replaySegmentInventoried W name file 0 head).file = file)
    (names : List FileName) {m : Merge F} (hread : m.dir.read name = some file) :
    (m.loop W log skipped names).1.dir.read name = some file := by
  refine loop_invariant W log skipped (P := fun m => m.dir.read name = some file) ?_ names hread
  intro name' m hread
  by_cases hne : name = name'
  · subst hne
    unfold step
    split
    · exact hread
    · simp only [hread, hforeign, Bool.false_eq_true, if_false, replaySegment, hwhole]
      split <;> exact SegDir.read_repair_self file hread
  · rw [step_read_of_ne W log skipped hne, hread]

/-- The walk creates no file. -/
lemma Merge.loop_read_none (W : Wire F) (log : LogView) (skipped : FileName → Option SegmentInfo)
    (names : List FileName) {m : Merge F} (hread : m.dir.read name = none) :
    (m.loop W log skipped names).1.dir.read name = none := by
  refine loop_invariant W log skipped (P := fun m => m.dir.read name = none) ?_ names hread
  intro name' m hread
  by_cases hne : name = name'
  · subst hne
    unfold step
    split
    · exact hread
    · simp only [hread]
  · rw [step_read_of_ne W log skipped hne, hread]

/-- The walk touches only the segments it is given. -/
lemma Merge.loop_read_of_notMem (W : Wire F) (log : LogView) (skipped : FileName → Option SegmentInfo)
    {names : List FileName} (hname : name ∉ names) (m : Merge F) :
    (m.loop W log skipped names).1.dir.read name = m.dir.read name := by
  induction names generalizing m with
  | nil => rfl
  | cons name' names ih =>
    rw [List.mem_cons, not_or] at hname
    have hstep := m.step_read_of_ne W log skipped hname.1
    rw [loop]
    split
    · rename_i heq
      rwa [heq] at hstep
    · rename_i heq
      rw [heq] at hstep
      rw [ih hname.2, hstep]

/-- In a walk without error the reader took every segment that was not fenced, and the walk leaves
what the reader left of it. -/
lemma Merge.loop_read_file (W : Wire F) (log : LogView) (hforeign : isForeign log file = false)
    {names : List FileName} (hnodup : names.Nodup) (hname : name ∈ names) {m m' : Merge F}
    (hread : m.dir.read name = some file) (hloop : m.loop W log (fun _ => none) names = (m', none)) :
    ∃ head, (∃ r, (replaySegmentInventoried W name file 0 head).result = .ok r) ∧
      m'.dir.read name = some (replaySegmentInventoried W name file 0 head).file := by
  induction names generalizing m with
  | nil => simp at hname
  | cons name' names ih =>
    rw [List.nodup_cons] at hnodup
    rw [loop] at hloop
    split at hloop
    · cases hloop
    · rename_i m₁ heq
      by_cases hne : name = name'
      · subst hne
        have hrest := m₁.loop_read_of_notMem W log (fun _ => none) hnodup.1
        rw [hloop] at hrest
        simp only [step, hread, hforeign, Bool.false_eq_true, if_false, replaySegment] at heq
        split at heq
        · cases heq
        · rename_i hresult
          cases heq
          exact ⟨if writerPart name = m.currentInstance then m.chainHead else zeroHash,
            ⟨_, hresult⟩, hrest.trans (SegDir.read_repair_self _ hread)⟩
      · refine ih hnodup.2 ((List.mem_cons.mp hname).resolve_left hne) ?_ hloop
        have hstep := m.step_read_of_ne W log (fun _ => none) hne
        rw [heq] at hstep
        rw [hstep, hread]

/-- A replay without error is a walk without error. -/
lemma exists_loop_of_replayCertified (W : Wire F) {log : LogView} {dir : SegDir} {r : Replayed F}
    (h : (replayCertified W log none dir).result = .ok r) :
    ∃ m, (Merge.start dir []).loop W log (fun _ => none) (collectAllSegments dir) = (m, none) ∧
      (replayCertified W log none dir).dir = m.dir ∧ r = m.finish none := by
  have hskip : skippedEntry log dir none (collectAllSegments dir) = fun _ => none := rfl
  have hinv : (collectAllSegments dir).filterMap (fun _ => (none : Option SegmentInfo)) = [] := by
    simp
  simp only [replayCertified, hskip, hinv] at h ⊢
  generalize (Merge.start dir []).loop W log (fun _ => none) (collectAllSegments dir) = out at h ⊢
  obtain ⟨m, err⟩ := out
  cases err with
  | some e => cases h
  | none =>
    cases h
    exact ⟨m, rfl, rfl, rfl⟩

/-- A replay fails if the reader fails on the first segment. -/
lemma replayCertified_error (W : Wire F) {log : LogView} {dir : SegDir} {names : List FileName}
    (hlisted : collectAllSegments dir = name :: names) (hread : dir.read name = some file)
    (hforeign : isForeign log file = false)
    (hfails : ∀ head, ∃ e, (replaySegmentInventoried W name file 0 head).result = .error e)
    (r : Replayed F) : (replayCertified W log none dir).result ≠ .ok r := by
  intro h
  obtain ⟨m, hloop, -⟩ := exists_loop_of_replayCertified W h
  rw [hlisted, Merge.loop] at hloop
  obtain ⟨e, he⟩ := hfails (if writerPart name = (Merge.start dir [] : Merge F).currentInstance then
    (Merge.start dir [] : Merge F).chainHead else zeroHash)
  have hread' : (Merge.start dir [] : Merge F).dir.read name = some file := hread
  simp only [Merge.step, hread', hforeign, Bool.false_eq_true, if_false, Merge.replaySegment,
    he] at hloop
  cases hloop

/-- One segment of a walk that is not skipped. -/
lemma Merge.step_of_not_skipped (W : Wire F) {log : LogView}
    {skipped : FileName → Option SegmentInfo} {m : Merge F} (hskip : skipped name = none)
    (hread : m.dir.read name = some file)
    (hrs : isForeign log file = false → SegmentFile W file rs)
    (harchive : isForeign log file = true → sealedCandidate log name = true →
      name ∉ m.dir.archive) :
    ∃ m', m.step W log skipped name = (m', none) ∧
      m'.stamper = (if isForeign log file then m.stamper
        else m.stamper.pushAll (rs.map fun r => (instOf name, r.1, r.2))) ∧
      (∀ name' ≠ name, m'.dir.read name' = m.dir.read name') ∧
      (∀ name' ≠ name, name' ∈ m'.dir.archive → name' ∈ m.dir.archive) := by
  simp only [step, hskip, hread]
  cases hforeign : isForeign log file with
  | true =>
    cases hsealed : sealedCandidate log name with
    | true =>
      simp only [archiveForeignSegment, harchive hforeign hsealed, if_true, if_false]
      refine ⟨_, rfl, rfl, fun name' hne => SegDir.read_remove_of_ne m.dir hne, ?_⟩
      intro name' hne hmem
      exact (List.mem_cons.mp hmem).resolve_left hne
    | false => exact ⟨m, rfl, rfl, fun _ _ => rfl, fun _ _ h => h⟩
  | false =>
    obtain ⟨hdel, r, hres⟩ := replaySegment_of_segmentFile W name (hrs hforeign)
      (if writerPart name = m.currentInstance then m.chainHead else zeroHash)
    simp only [replaySegment, hres, hdel, Bool.false_eq_true, if_false]
    refine ⟨_, rfl, rfl, fun name' hne => SegDir.read_repair_of_ne m.dir _ _ hne, ?_⟩
    intro name' _ hmem
    simpa using hmem

/-- A walk collects the records of all admitted segments that are not skipped, in file order. -/
lemma Merge.loop_stamper (W : Wire F) {log : LogView} {skipped : FileName → Option SegmentInfo}
    {dir : SegDir} {recs : FileName → List (ℕ × Op F)} {names : List FileName}
    (hnodup : names.Nodup)
    (hrecs : ∀ name ∈ names, ∃ file, dir.read name = some file ∧
      (isForeign log file = false → SegmentFile W file (recs name)) ∧
      (isForeign log file = true → sealedCandidate log name = true → name ∉ dir.archive))
    {m : Merge F} (hread : ∀ name ∈ names, m.dir.read name = dir.read name)
    (harchive : ∀ name ∈ names, name ∈ m.dir.archive → name ∈ dir.archive) :
    ∃ m', m.loop W log skipped names = (m', none) ∧
      m'.stamper = m.stamper.pushAll (segmentOps recs
        ((names.filter fun name => (dir.read name).all (!isForeign log ·)).filter
          fun name => (skipped name).isNone)) := by
  induction names generalizing m with
  | nil => exact ⟨m, rfl, rfl⟩
  | cons name names ih =>
    obtain ⟨hnotMem, hnodup⟩ := List.nodup_cons.mp hnodup
    have hne : ∀ name' ∈ names, name' ≠ name := fun name' h heq => hnotMem (heq ▸ h)
    have hrest := (List.forall_mem_cons.mp hrecs).2
    obtain ⟨file, hfile, hrs, harch⟩ := hrecs name List.mem_cons_self
    cases hskip : skipped name with
    | some entry =>
      obtain ⟨m₁, hstep, hstamper, hdir⟩ : ∃ m₁, m.step W log skipped name = (m₁, none) ∧
          m₁.stamper = m.stamper ∧ m₁.dir = m.dir := by
        simp only [step, hskip]
        exact ⟨_, rfl, rfl, rfl⟩
      obtain ⟨m₂, hloop, hstamper₂⟩ := @ih hnodup hrest m₁
        (fun name' h => hdir ▸ hread name' (List.mem_cons_of_mem _ h))
        (fun name' h => hdir ▸ harchive name' (List.mem_cons_of_mem _ h))
      refine ⟨m₂, by simp only [loop, hstep, hloop], ?_⟩
      rw [hstamper₂, hstamper, List.filter_cons]
      split <;> simp [hskip]
    | none =>
      obtain ⟨m₁, hstep, hstamper, hread₁, harch₁⟩ := Merge.step_of_not_skipped W hskip
        ((hread name List.mem_cons_self).trans hfile) hrs
        (fun hf hs hmem => harch hf hs (harchive name List.mem_cons_self hmem))
      obtain ⟨m₂, hloop, hstamper₂⟩ := @ih hnodup hrest m₁
        (fun name' h => (hread₁ name' (hne name' h)).trans
          (hread name' (List.mem_cons_of_mem _ h)))
        (fun name' h hmem => harchive name' (List.mem_cons_of_mem _ h)
          (harch₁ name' (hne name' h) hmem))
      refine ⟨m₂, by simp only [loop, hstep, hloop], ?_⟩
      rw [hstamper₂, hstamper]
      cases hf : isForeign log file with
      | true => simp [hfile, hf]
      | false => simp [hfile, hf, hskip, segmentOps, Stamper.pushAll_append]

/-- The segments that replay reads: it skips those that the family certifies. -/
def visibleSegments (log : LogView) (family : Option CheckpointSet) (dir : SegDir) :
    List FileName :=
  (admittedSegments log dir).filter fun name =>
    (skippedEntry log dir family (collectAllSegments dir) name).isNone

@[simp] lemma visibleSegments_none (log : LogView) (dir : SegDir) :
    visibleSegments log none dir = admittedSegments log dir :=
  List.filter_eq_self.mpr fun _ _ => rfl

/-- Replay collects the records of all segments that it reads. -/
lemma replayCertified_collected (W : Wire F) (log : LogView) (family : Option CheckpointSet)
    (dir : SegDir) (recs : FileName → List (ℕ × Op F))
    (hrecs : ∀ name ∈ admittedSegments log dir, ∃ file, dir.read name = some file ∧
      SegmentFile W file (recs name))
    (harchive : ArchiveFree log dir) :
    ∃ m : Merge F, (replayCertified W log family dir).result = .ok (m.finish family) ∧
      m.stamper = Stamper.empty.pushAll (segmentOps recs (visibleSegments log family dir)) := by
  have hnames : ∀ name ∈ collectAllSegments dir, ∃ file, dir.read name = some file ∧
      (isForeign log file = false → SegmentFile W file (recs name)) ∧
      (isForeign log file = true → sealedCandidate log name = true → name ∉ dir.archive) := by
    intro name hmem
    obtain ⟨file, hfile⟩ := Option.isSome_iff_exists.mp (mem_collectAllSegments.mp hmem).1
    have hadm : name ∈ admittedSegments log dir ↔ isForeign log file = false := by
      simp [admittedSegments, hmem, hfile]
    refine ⟨file, hfile, fun hf => ?_, fun hf hs => ?_⟩
    · obtain ⟨file', hfile', hseg⟩ := hrecs name (hadm.mpr hf)
      rw [hfile] at hfile'
      cases hfile'
      exact hseg
    · refine harchive name hmem (fun h => ?_) hs
      rw [hadm, hf] at h
      cases h
  have hnodup : (collectAllSegments dir).Nodup :=
    (collectAllSegments_sorted dir).imp fun h => h.ne
  obtain ⟨m, hloop, hstamper⟩ := @Merge.loop_stamper F W log
    (skippedEntry log dir family (collectAllSegments dir)) dir recs (collectAllSegments dir) hnodup
    hnames (.start dir ((collectAllSegments dir).filterMap
      (skippedEntry log dir family (collectAllSegments dir)))) (fun _ _ => rfl) (fun _ _ h => h)
  exact ⟨m, by simp only [replayCertified, hloop], hstamper⟩

lemma Merge.finish_handed_perm {m : Merge F} {ops : List (InstanceId × ℕ × Op F)}
    (family : Option CheckpointSet) (h : m.stamper = Stamper.empty.pushAll ops) :
    (m.finish family).handed.Perm ops := by
  have hhanded : m.stamper.buf.map Stamped.handed = ops := by
    rw [h, Stamper.pushAll_handed]
    rfl
  rw [← hhanded]
  exact (List.perm_insertionSort mergeLE m.stamper.buf).map _

/-- Merge replay hands on every record once, in the order of effective timestamp, instance and sequence
number, and every writer's records in the order it appended them, whatever the clocks say. -/
theorem replayCertified_merge_order (W : Wire F) (log : LogView) (dir : SegDir)
    (recs : FileName → List (ℕ × Op F))
    (hrecs : ∀ name ∈ admittedSegments log dir, ∃ file, dir.read name = some file ∧
      SegmentFile W file (recs name))
    (hseqno : ∀ inst, ((writerOps recs (admittedSegments log dir) inst).map Prod.fst).Pairwise
      (· < ·))
    (harchive : ArchiveFree log dir) :
    ∃ r, ∃ stamped : List (Stamped F), (replayCertified W log none dir).result = .ok r ∧
      r.handed.Perm (segmentOps recs (admittedSegments log dir)) ∧
      stamped.map Stamped.handed = r.handed ∧ stamped.Pairwise mergeLE ∧
      (∀ inst, stamped.filter (·.inst = inst) =
        carryForward inst 0 (writerOps recs (admittedSegments log dir) inst)) ∧
      ∀ inst, (r.handed.filter (·.1 = inst)).map Prod.snd =
        writerOps recs (admittedSegments log dir) inst := by
  obtain ⟨m, hresult, hstamper⟩ := replayCertified_collected W log none dir recs hrecs harchive
  rw [visibleSegments_none] at hstamper
  have hfilter : ∀ inst, m.stamper.buf.filter (·.inst = inst) =
      carryForward inst 0 (writerOps recs (admittedSegments log dir) inst) := by
    intro inst
    rw [hstamper, Stamper.pushAll_filter, segmentOps_filter]
    simp [Stamper.empty]
  have hsorted : ∀ inst, (m.stamper.buf.insertionSort mergeLE).filter (·.inst = inst) =
      carryForward inst 0 (writerOps recs (admittedSegments log dir) inst) := by
    intro inst
    rw [Lists.filter_insertionSort, hfilter]
    exact (carryForward_pairwise inst 0 (hseqno inst)).insertionSort_eq
  refine ⟨m.finish none, m.stamper.buf.insertionSort mergeLE, hresult,
    Merge.finish_handed_perm none hstamper, rfl, List.pairwise_insertionSort _ _, hsorted,
    fun inst => ?_⟩
  have hcomm : (m.finish none).handed.filter (·.1 = inst) =
      ((m.stamper.buf.insertionSort mergeLE).filter (·.inst = inst)).map Stamped.handed := by
    rw [Merge.finish, List.filter_map]
    rfl
  rw [hcomm, hsorted, carryForward_handed, List.map_map]
  exact List.map_id _

/-- Two writers, one of them with a clock that runs backward. -/
def sampleRecords : FileName → List (Entry ℚ) := fun name =>
  if name = segmentPath 1 1 then
    [Reference.deletion ℚ 1 7 5 zeroHash, Reference.deletion ℚ 2 8 3 zeroHash]
  else if name = segmentPath 2 1 then [Reference.deletion ℚ 1 9 4 zeroHash]
  else []

/-- The segment file of a writer. -/
def sampleFile (name : FileName) : Bytes :=
  headerV3 1 zeroHash 0 ++ encodeAll (Reference.wire ℚ) (records (sampleRecords name))

/-- The segments directory of the two writers. -/
def sampleDir : SegDir :=
  (SegDir.empty.write (segmentPath 2 1) (sampleFile (segmentPath 2 1))).write (segmentPath 1 1)
    (sampleFile (segmentPath 1 1))

/-- The log of a third instance that replays the directory. -/
def sampleLog : LogView := ⟨3, 0, segmentPath 3 1, fun _ => false⟩

/-- The records of a segment of the two writers. -/
def sampleOps (name : FileName) : List (ℕ × Op ℚ) :=
  (sampleRecords name).map fun e => (e.record.seqno, e.op)

/-- The segments of the two writers have the records that were written. -/
lemma segmentFile_sampleFile (name : FileName) :
    SegmentFile (Reference.wire ℚ) (sampleFile name) (sampleOps name) := by
  have hvalid : ∀ e ∈ sampleRecords name, e.Valid (Reference.wire ℚ) := by
    intro e he
    unfold sampleRecords at he
    split at he
    · rcases List.mem_pair.mp he with rfl | rfl <;>
        exact Reference.deletion_valid ℚ (by decide) (by decide) (by decide) _
    · split at he
      · rw [List.mem_singleton.mp he]
        exact Reference.deletion_valid ℚ (by decide) (by decide) (by decide) _
      · simp at he
  exact (ChainedHeader.v3 (by decide) _ _).segmentFile_encodeAll hvalid

/-- Each of the two writers counts upward. -/
lemma pairwise_sampleOps (inst : InstanceId) :
    ((writerOps sampleOps [segmentPath 1 1, segmentPath 2 1] inst).map Prod.fst).Pairwise
      (· < ·) := by
  by_cases h1 : instOf (segmentPath 1 1) = inst
  · subst h1
    decide +kernel
  · by_cases h2 : instOf (segmentPath 2 1) = inst
    · subst h2
      decide +kernel
    · simp [writerOps, h1, h2]

/-- Replay of the two writers. -/
theorem replayCertified_merge_order_sample :
    admittedSegments sampleLog sampleDir = [segmentPath 1 1, segmentPath 2 1] ∧
    ∃ r, (replayCertified (Reference.wire ℚ) sampleLog none sampleDir).result = .ok r ∧
      r.handed.Perm (segmentOps sampleOps (admittedSegments sampleLog sampleDir)) := by
  have hadm : admittedSegments sampleLog sampleDir = [segmentPath 1 1, segmentPath 2 1] := by
    decide +kernel
  have hrecs : ∀ name ∈ admittedSegments sampleLog sampleDir, ∃ file,
      sampleDir.read name = some file ∧
        SegmentFile (Reference.wire ℚ) file (sampleOps name) := by
    intro name hname
    rw [hadm] at hname
    refine ⟨sampleFile name, ?_, segmentFile_sampleFile name⟩
    rcases List.mem_pair.mp hname with rfl | rfl <;> decide +kernel
  obtain ⟨r, -, hr, hperm, -⟩ := replayCertified_merge_order (Reference.wire ℚ) sampleLog sampleDir
    sampleOps hrecs (fun inst => hadm ▸ pairwise_sampleOps inst)
    (fun name _ _ _ => by simp [sampleDir, SegDir.empty])
  exact ⟨hadm, r, hr, hperm⟩

/-- The two writers beside a segment of another vector space that has a namesake in the archive. -/
def fencedDir : SegDir :=
  { sampleDir.write (segmentPath 4 1) (headerV3 1 zeroHash 9) with archive := [segmentPath 4 1] }

/-- The log of the third instance, for which the other segments are old. -/
def fencingLog : LogView := { sampleLog with older := fun _ => true }

/-- A replay that cannot move a segment to the archive hands nothing on. -/
theorem replayCertified_fails_on_namesake :
    ¬ ∀ (log : LogView) (dir : SegDir) (recs : FileName → List (ℕ × Op ℚ)),
      (∀ name ∈ admittedSegments log dir, ∃ file, dir.read name = some file ∧
        SegmentFile (Reference.wire ℚ) file (recs name)) →
      (∀ inst, ((writerOps recs (admittedSegments log dir) inst).map Prod.fst).Pairwise
        (· < ·)) →
      ∃ r, (replayCertified (Reference.wire ℚ) log none dir).result = .ok r ∧
        r.handed.Perm (segmentOps recs (admittedSegments log dir)) := by
  intro h
  have hadm : admittedSegments fencingLog fencedDir = [segmentPath 1 1, segmentPath 2 1] := by
    decide +kernel
  have hfails :
      (replayCertified (Reference.wire ℚ) fencingLog none fencedDir).result.isOk = false := by
    decide +kernel
  obtain ⟨r, hr, -⟩ := h fencingLog fencedDir sampleOps
    (by
      intro name hname
      rw [hadm] at hname
      refine ⟨sampleFile name, ?_, segmentFile_sampleFile name⟩
      rcases List.mem_pair.mp hname with rfl | rfl <;> decide +kernel)
    (fun inst => hadm ▸ pairwise_sampleOps inst)
  rw [hr] at hfails
  exact absurd hfails (by simp [Except.isOk, Except.toBool])

end ChittaField
