import ChittaField.Checkpoint.Manifest
import ChittaField.Log.Sealing
import ChittaField.Log.Skipping
import ChittaField.Store.Replay

/-!
# Pruning the log

After a save `pruneCertifiedWal` unlinks the segments that the family just committed covers.  It
removes no segment that is open, and none with a record that one of the two coverage vectors does
not reach.

The next start need not load that family, though: among the families of all instances it takes the
one with the largest sequence number.  `pruning_reconstructs_iff` says when a start behind the prune
applies what a start in front of it applies.
-/

namespace ChittaField

variable {F : Type}

/-! ## The prune -/

/-- What the file system does with requests to unlink a file: which files it removes, and behind
which of these it can sync the directory. -/
structure Unlink where
  removes : FileName → Bool
  syncs : FileName → Bool

/-- Unlink a segment; the flag tells whether that went well. -/
def auditedRemove (u : Unlink) (dir : SegDir) (name : FileName) : SegDir × Bool :=
  if u.removes name then (dir.remove name, u.syncs name) else (dir, false)

/-- The files have the recorded sizes; else the error. -/
def checkSizes (size : FileName → Option ℕ) (message : String) : List FileRef → Option FieldError
  | [] => none
  | file :: files =>
    match size file.name with
    | none => some (.io "not found")
    | some n => if n ≠ file.sizeBytes then some (.manifest message) else
      checkSizes size message files

namespace SnapshotFamily

/-- The segment of an entry, if the family covers it and its writer is done with it. -/
def releases (family : SnapshotFamily) (log : LogView) (dir : SegDir) (entry : SegmentInfo) :
    Option FileName :=
  (stripSegments entry.path).filter fun name =>
    sealedCandidate log name && coveredSegment dir entry (coverageVector family.covered)
      (coverageVector family.corticalCovered) log.writerPath

/-- Prune the segment of an entry. -/
def pruneSegment (family : SnapshotFamily) (log : LogView) (u : Unlink) (acc : SegDir × ℕ)
    (entry : SegmentInfo) : SegDir × ℕ :=
  match family.releases log acc.1 entry with
  | none => acc
  | some name =>
    let r := auditedRemove u acc.1 name
    (r.1, if r.2 then acc.2 + 1 else acc.2)

end SnapshotFamily

/-- Prune the segments that the log's own family covers. -/
def pruneCertifiedWal (log : LogView) (manifest : Option Manifest) (size : FileName → Option ℕ)
    (u : Unlink) (dir : SegDir) : Except FieldError (SegDir × ℕ) :=
  match manifest with
  | none => .error (.manifest "WAL pruning requires committed coverage")
  | some m =>
    match m.families.get? (instHex log.inst) with
    | none => .error (.manifest "WAL pruning requires writer snapshot family")
    | some family =>
      match checkSizes size "WAL pruning family failed validation"
        (family.snapshot :: family.sidecars) with
      | some e => .error e
      | none =>
        if family.vectorSpaceId ≠ some log.vectorSpaceId then .ok (dir, 0)
        else match family.cortical with
          | none => .ok (dir, 0)
          | some cortical =>
            match checkSizes size "WAL pruning cortical family failed validation" [cortical] with
            | some e => .error e
            | none => .ok (family.segments.foldl (family.pruneSegment log u) (dir, 0))

/-! ## What is pruned -/

/-- The prune removes a segment. -/
def SnapshotFamily.prunes (family : SnapshotFamily) (log : LogView) (u : Unlink) (dir : SegDir)
    (name : FileName) : Bool :=
  family.vectorSpaceId = some log.vectorSpaceId && family.cortical.isSome &&
    (u.removes name && family.segments.any fun entry => family.releases log dir entry = some name)

variable {name : FileName}

lemma SnapshotFamily.releases_congr (family : SnapshotFamily) (log : LogView) {dir dir' : SegDir}
    (h : dir'.read name = dir.read name) (entry : SegmentInfo) :
    family.releases log dir' entry = some name ↔ family.releases log dir entry = some name := by
  have hcovered : stripSegments entry.path = some name → ∀ full cortical,
      coveredSegment dir' entry full cortical log.writerPath =
        coveredSegment dir entry full cortical log.writerPath := by
    intro hstrip full cortical
    simp only [coveredSegment, hstrip, h]
  simp only [releases, Option.filter_eq_some_iff]
  exact and_congr_right fun hstrip => by rw [hcovered hstrip]

lemma SnapshotFamily.read_foldl_pruneSegment (family : SnapshotFamily) (log : LogView) (u : Unlink)
    (entries : List SegmentInfo) (acc : SegDir × ℕ) (name : FileName) :
    (entries.foldl (family.pruneSegment log u) acc).1.read name =
      if u.removes name && entries.any fun entry => family.releases log acc.1 entry = some name
      then none else acc.1.read name := by
  induction entries generalizing acc with
  | nil => simp
  | cons entry entries ih =>
    rw [List.foldl_cons, ih, List.any_cons]
    cases hreleases : family.releases log acc.1 entry with
    | none =>
      have hsame : family.pruneSegment log u acc entry = acc := by
        simp only [pruneSegment, hreleases]
      simp [hsame]
    | some name' =>
      have hdir : (family.pruneSegment log u acc entry).1 =
          if u.removes name' then acc.1.remove name' else acc.1 := by
        simp only [pruneSegment, hreleases, auditedRemove]
        split <;> rfl
      by_cases hne : name = name'
      · subst hne
        cases hremoves : u.removes name with
        | false => simp [hdir, hremoves]
        | true => simp [hdir, hremoves]
      · have hread : (family.pruneSegment log u acc entry).1.read name = acc.1.read name := by
          rw [hdir]
          split
          · exact SegDir.read_remove_of_ne _ hne
          · rfl
        have hany : (entries.any fun e => family.releases log
            (family.pruneSegment log u acc entry).1 e = some name) =
              entries.any fun e => family.releases log acc.1 e = some name := by
          congr 1
          funext e
          exact decide_eq_decide.mpr (family.releases_congr log hread e)
        simp [hread, hany, Ne.symm hne]

lemma SnapshotFamily.archive_foldl_pruneSegment (family : SnapshotFamily) (log : LogView)
    (u : Unlink) (entries : List SegmentInfo) (acc : SegDir × ℕ) :
    (entries.foldl (family.pruneSegment log u) acc).1.archive = acc.1.archive := by
  induction entries generalizing acc with
  | nil => rfl
  | cons entry entries ih =>
    rw [List.foldl_cons, ih]
    unfold pruneSegment
    split
    · rfl
    · unfold auditedRemove
      split <;> rfl

/-- A directory without the segments that are gone. -/
structure Without (gone : FileName → Bool) (dir dir' : SegDir) : Prop where
  read : ∀ name, dir'.read name = if gone name then none else dir.read name
  archive : dir'.archive = dir.archive

variable {family : SnapshotFamily}

/-- The prune leaves the directory without the segments that it removes. -/
lemma without_of_prune {log : LogView} {m : Manifest} {size : FileName → Option ℕ} {u : Unlink}
    {dir dir' : SegDir} {deleted : ℕ}
    (h : pruneCertifiedWal log (some m) size u dir = .ok (dir', deleted))
    (hfamily : m.families.get? (instHex log.inst) = some family) :
    Without (family.prunes log u dir) dir dir' := by
  have hnone : (∀ name, family.prunes log u dir name = false) →
      Without (family.prunes log u dir) dir dir := fun hno => ⟨fun name => by simp [hno name], rfl⟩
  simp only [pruneCertifiedWal, hfamily] at h
  split at h
  · cases h
  split at h
  · rename_i hlineage
    cases h
    exact hnone fun name => by simp [SnapshotFamily.prunes, hlineage]
  rename_i hlineage
  split at h
  · rename_i hcortical
    cases h
    exact hnone fun name => by simp [SnapshotFamily.prunes, hcortical]
  rename_i cortical hcortical
  split at h
  · cases h
  have hdir : (family.segments.foldl (family.pruneSegment log u) (dir, 0)).1 = dir' :=
    congrArg Prod.fst (Except.ok.inj h)
  have hlineage : family.vectorSpaceId = some log.vectorSpaceId := not_not.mp hlineage
  refine ⟨fun name => ?_, ?_⟩
  · rw [← hdir, SnapshotFamily.read_foldl_pruneSegment]
    simp [SnapshotFamily.prunes, hlineage, hcortical]
  · rw [← hdir, SnapshotFamily.archive_foldl_pruneSegment]

/-! ## The guard -/

/-- Both coverage vectors of a family dominate a segment: it is complete records, and each of them is
covered. -/
structure Dominated (W : Wire F) (log : LogView) (family : SnapshotFamily) (dir : SegDir)
    (name : FileName) : Prop where
  not_open : name ≠ log.writerPath
  whole : ∃ file version first rest, dir.read name = some file ∧
    readHeader file = .header version first rest ∧ Frames W version rest (segmentFrames W file)
  covered : ∃ full cortical, coverageVector family.covered (instOf name) = some full ∧
    coverageVector family.corticalCovered (instOf name) = some cortical ∧
      ∀ r ∈ heldRecords W dir name, r.1 ≤ full ∧ r.1 ≤ cortical

/-- The writer in the name of a segment is the instance that it is attributed to. -/
lemma instOf_of_segmentIdentity {writer : InstanceId} {first : ℕ}
    (h : segmentIdentity name = some (writer, first)) : instOf name = writer := by
  unfold segmentIdentity at h
  split at h
  case isFalse => cases h
  obtain ⟨⟨w, number⟩, hparts, h⟩ := Option.bind_eq_some_iff.mp h
  obtain ⟨stem, hstem, hsplit⟩ := Option.bind_eq_some_iff.mp hparts
  obtain ⟨rfl, hw⟩ := splitOnce_eq_some hsplit
  obtain ⟨writer', hwriter, heq⟩ := Option.map_eq_some_iff.mp h
  have hname : name = w ++ '_' :: (number ++ name.drop (name.length - 4)) := by
    have hstem : name.take (name.length - 4) = w ++ '_' :: number := by
      unfold stripSeg at hstem
      split at hstem
      · exact Option.some.inj hstem
      · cases hstem
    have hcat : (w ++ '_' :: number) ++ name.drop (name.length - 4) = name := by
      rw [← hstem, List.take_append_drop]
    simpa using hcat.symm
  rw [instOf, writerPart, hname, splitOnce_append hw]
  simp only [Option.map_some, Option.bind_some, hwriter, Option.getD_some]
  exact congrArg Prod.fst heq

lemma eq_relativePath_of_stripSegments {path name : FileName}
    (h : stripSegments path = some name) : path = relativePath name := by
  have hcond : List.take 9 path = "segments/".toList ∧ List.drop 9 path = name := by
    by_cases htake : List.take 9 path = "segments/".toList
    · rw [stripSegments, if_pos htake, Option.some.injEq] at h
      exact ⟨htake, h⟩
    · rw [stripSegments, if_neg htake] at h
      exact absurd h (by simp)
  have hcat := List.take_append_drop 9 path
  rw [hcond.1, hcond.2] at hcat
  exact hcat.symm

/-- What is known of a segment that a family releases. -/
lemma SnapshotFamily.releases_eq_some {log : LogView} {dir : SegDir} {entry : SegmentInfo}
    (h : family.releases log dir entry = some name) :
    entry.path = relativePath name ∧ name ≠ log.writerPath ∧
      (∃ file, dir.read name = some file ∧ file.length = entry.sizeBytes) ∧
      ∃ full cortical, coverageVector family.covered (instOf name) = some full ∧
        coverageVector family.corticalCovered (instOf name) = some cortical ∧
          entry.lastSeqno ≤ min full cortical := by
  obtain ⟨hstrip, hcond⟩ := Option.filter_eq_some_iff.mp h
  have hpath := eq_relativePath_of_stripSegments hstrip
  rw [Bool.and_eq_true] at hcond
  have hcovered := hcond.2
  unfold coveredSegment at hcovered
  rw [hstrip] at hcovered
  simp only at hcovered
  split at hcovered
  · cases hcovered
  rename_i writer first hid
  split at hcovered
  · cases hcovered
  split at hcovered
  case h_2 => cases hcovered
  rename_i full cortical hfull hcortical
  rw [decide_eq_true_eq] at hcovered
  obtain ⟨hopen, hlast, hsize⟩ := hcovered
  obtain ⟨file, hfile, hlen⟩ := (Option.any_eq_true _ _).mp hsize
  obtain rfl := instOf_of_segmentIdentity hid
  exact ⟨hpath, hopen, ⟨file, hfile, of_decide_eq_true hlen⟩, full, cortical, hfull, hcortical,
    hlast⟩

variable {W : Wire F}

/-- The prune removes only segments that both coverage vectors dominate. -/
lemma SnapshotFamily.dominated_of_prunes {log : LogView} {s : Sealing} (hs : s.Reachable W log)
    (hmade : ∀ entry ∈ family.segments, entry ∈ s.made) {u : Unlink}
    (h : family.prunes log u s.dir name = true) : Dominated W log family s.dir name := by
  simp only [prunes, Bool.and_eq_true, List.any_eq_true, decide_eq_true_eq] at h
  obtain ⟨-, -, entry, hentry, hreleases⟩ := h
  obtain ⟨hpath, hopen, ⟨file, hfile, hlen⟩, full, cortical, hfull, hcortical, hlast⟩ :=
    releases_eq_some hreleases
  obtain ⟨dir₀, hacc⟩ := (hs.attests (hmade entry hentry) hpath hfile hlen).accounted
  obtain ⟨version, first, rest, hheader, hframes⟩ := hacc.frames
  refine ⟨hopen, ⟨file, version, first, rest, hfile, hheader, hframes⟩, full, cortical, hfull,
    hcortical, fun r hr => ?_⟩
  have hle : r.1 ≤ entry.lastSeqno := by
    rw [heldRecords, hfile, Option.getD_some] at hr
    obtain ⟨p, hp, rfl⟩ := List.mem_map.mp hr
    rw [hacc.last]
    exact le_getLast_of_pairwise hacc.increasing (List.mem_map_of_mem hp) _
  exact ⟨hle.trans (hlast.trans (min_le_left _ _)), hle.trans (hlast.trans (min_le_right _ _))⟩

/-! ## What a start applies -/

/-- The certificate that a start skips segments on: the loaded family, if the cortical snapshot
belongs to it. -/
def LoadedSnapshots.certificate (s : LoadedSnapshots) : Option CheckpointSet :=
  s.family.filter fun _ => s.certifiedCortical

/-- The directory when a start replays it: the log of the start has created its segment. -/
def startedDir (view : LogView) (dir : SegDir) : SegDir :=
  dir.write view.writerPath (headerV3 1 zeroHash view.vectorSpaceId)

/-- The records that a start applies, in order. -/
def LoadedSnapshots.applied (W : Wire F) (s : LoadedSnapshots) (view : LogView) (dir : SegDir) :
    Except FieldError (List (InstanceId × ℕ × Op F)) :=
  (s.replayFiltered W view s.certificate (startedDir view dir)).map (·.applied)

/-- The maps after a start. -/
def LoadedSnapshots.started [F32 F] (W : Wire F) (s : LoadedSnapshots) (view : LogView)
    (ctx : ApplyCtx F) (dir : SegDir) : Except FieldError (ApplyCtx F) :=
  (replayCertified W view s.certificate (startedDir view dir)).result.map fun r =>
    replayWal s ctx r.handed

variable {view : LogView} {s : LoadedSnapshots}

/-- A start comes to the same maps if it applies the same records. -/
lemma LoadedSnapshots.started_eq_of_applied [F32 F] {W : Wire F} {dir dir' : SegDir}
    (h : s.applied W view dir' = s.applied W view dir) (ctx : ApplyCtx F) :
    s.started W view ctx dir' = s.started W view ctx dir := by
  have hstarted : ∀ dir, s.started W view ctx dir = (s.applied W view dir).map fun ops =>
      ((ops.map (·.2.2)).foldl Replaying.step ⟨ctx, [], []⟩).finish := by
    intro dir
    unfold started applied replayFiltered
    cases (replayCertified W view s.certificate (startedDir view dir)).result <;> rfl
  rw [hstarted, hstarted, h]

/-- Every segment that passes the lineage fence can be read. -/
def Readable (W : Wire F) (view : LogView) (dir : SegDir) : Prop :=
  ∀ name ∈ admittedSegments view dir, ∃ file rs, dir.read name = some file ∧ SegmentFile W file rs

/-- The sequence numbers of every writer increase. -/
def Increasing (W : Wire F) (view : LogView) (dir : SegDir) : Prop :=
  ∀ inst, ((writerOps (heldRecords W dir) (admittedSegments view dir) inst).map Prod.fst).Pairwise
    (· < ·)

/-- The incremental reader finds the records. -/
lemma Records.follow_eq {version : ℕ} {bs : Bytes} {rs : List (ℕ × Op F)}
    (h : Records W version bs rs) : (follow W version bs).2.map recordOf = rs := by
  induction h with
  | done h => rw [ChittaField.follow_eq, (readFrame_eof_iff _).mpr h, List.map_nil]
  | torn h => rw [ChittaField.follow_eq, h, List.map_nil]
  | tornCrc h hcrc =>
    rw [ChittaField.follow_eq, h]
    simp [hcrc]
  | record h hcrc hop _ ih =>
    rw [ChittaField.follow_eq, h]
    simp [hcrc, (decodeOp_eq_ok.mp hop).1, ih, recordOf]

lemma SegmentFile.heldRecords_eq {dir : SegDir} {file : Bytes} {rs : List (ℕ × Op F)}
    (h : SegmentFile W file rs) (hfile : dir.read name = some file) :
    heldRecords W dir name = rs := by
  rw [heldRecords, hfile, Option.getD_some]
  rcases h with ⟨hshort, rfl⟩ | ⟨version, first, rest, hheader, hrecords⟩
  · simp [segmentFrames, hshort]
  · rw [segmentFrames, hheader]
    exact hrecords.follow_eq

/-- One record stands in front of another in merge order. -/
def Precedes (ops : List (InstanceId × ℕ × Op F)) (o o' : InstanceId × ℕ × Op F) : Prop :=
  Lists.Before mergeLE Stamped.handed (Stamper.empty.pushAll ops).buf o o'

variable {recs : FileName → List (ℕ × Op F)}

/-- A start applies the records of the segments that it reads, in merge order. -/
lemma LoadedSnapshots.applied_eq {dir : SegDir}
    (hrecs : ∀ name ∈ admittedSegments view (startedDir view dir), ∃ file,
      (startedDir view dir).read name = some file ∧ SegmentFile W file (recs name))
    (harchive : ArchiveFree view (startedDir view dir)) :
    s.applied W view dir = .ok ((mergeOrder (segmentOps recs
      (visibleSegments view s.certificate (startedDir view dir)))).filter
        fun o => s.passes o.1 o.2.1 o.2.2) := by
  obtain ⟨m, hresult, hstamper⟩ :=
    replayCertified_collected W view s.certificate (startedDir view dir) recs hrecs harchive
  unfold applied replayFiltered
  rw [hresult]
  simp only [Except.map, Merge.finish, hstamper, mergeOrder]

/-! ### Without the segments that are gone -/

/-- The segments that a start reads when some are gone. -/
def remainingSegments (view : LogView) (family : Option CheckpointSet) (gone : FileName → Bool)
    (dir : SegDir) : List FileName :=
  ((admittedSegments view dir).filter fun name => !gone name).filter fun name =>
    (skippedEntry view dir family ((collectAllSegments dir).filter fun name => !gone name)
      name).isNone

namespace Without

variable {gone : FileName → Bool} {dir dir' : SegDir}

lemma read_of_not_gone (h : Without gone dir dir') (hname : gone name = false) :
    dir'.read name = dir.read name := by
  rw [h.read, hname, if_neg Bool.false_ne_true]

lemma collect (h : Without gone dir dir') :
    collectAllSegments dir' = (collectAllSegments dir).filter fun name => !gone name := by
  refine collectAllSegments_eq ((collectAllSegments_sorted dir).filter _) fun name => ?_
  rw [List.mem_filter, mem_collectAllSegments, h.read]
  cases gone name <;> simp

lemma admitted (h : Without gone dir dir') (view : LogView) :
    admittedSegments view dir' = (admittedSegments view dir).filter fun name => !gone name := by
  rw [admittedSegments, admittedSegments, h.collect, List.filter_filter, List.filter_filter]
  refine List.filter_congr fun name _ => ?_
  cases hgone : gone name with
  | true => simp
  | false => simp [h.read_of_not_gone hgone]

lemma visible (h : Without gone dir dir') (view : LogView) (family : Option CheckpointSet) :
    visibleSegments view family dir' = remainingSegments view family gone dir := by
  rw [visibleSegments, remainingSegments, h.admitted, h.collect]
  refine List.filter_congr fun name _ => ?_
  cases family with
  | none => rfl
  | some cp =>
    have heligible : ∀ n ∈ (collectAllSegments dir).filter fun name => !gone name,
        cp.eligible view dir' n = cp.eligible view dir n := by
      intro n hn
      have hgone : gone n = false := by simpa using (List.mem_filter.mp hn).2
      unfold CheckpointSet.eligible
      cases hentry : cp.entryFor n with
      | none => rfl
      | some e =>
        have hpath := (CheckpointSet.entryFor_eq_some hentry).2
        simp only [Option.any_some, coveredSegment, hpath, stripSegments_relativePath,
          h.read_of_not_gone hgone]
    have hall : (((collectAllSegments dir).filter fun name => !gone name).all fun n =>
        writerPart n ≠ writerPart name ∨ cp.eligible view dir' n) =
          (((collectAllSegments dir).filter fun name => !gone name).all fun n =>
            writerPart n ≠ writerPart name ∨ cp.eligible view dir n) := by
      rw [Bool.eq_iff_iff, List.all_eq_true, List.all_eq_true]
      exact forall₂_congr fun n hn => by rw [heligible n hn]
    simp only [skippedEntry, hall]

end Without

variable {gone : FileName → Bool}

/-- A start reads no segment that it would not read with those that are gone. -/
lemma remainingSegments_sub {family : Option CheckpointSet} {dir : SegDir}
    (h : name ∈ remainingSegments view family gone dir) :
    name ∈ visibleSegments view family dir ∧ gone name = false := by
  rw [remainingSegments, List.mem_filter, List.mem_filter] at h
  obtain ⟨⟨hadmitted, hgone⟩, hskip⟩ := h
  refine ⟨List.mem_filter.mpr ⟨hadmitted, ?_⟩, by simpa using hgone⟩
  cases family with
  | none => rfl
  | some cp =>
    rw [Option.isNone_iff_eq_none] at hskip ⊢
    by_contra hsome
    obtain ⟨e, he⟩ := Option.ne_none_iff_exists'.mp hsome
    obtain ⟨hlineage, hentry, hall⟩ := eligible_of_skippedEntry he
    have hcond : cp.vectorSpaceId = some view.vectorSpaceId ∧
        (((collectAllSegments dir).filter fun name => !gone name).all fun n =>
          writerPart n ≠ writerPart name ∨ cp.eligible view dir n) = true := by
      refine ⟨hlineage, List.all_eq_true.mpr fun n hn => ?_⟩
      by_cases hn' : writerPart n = writerPart name
      · simp [hall n (List.mem_filter.mp hn).1 hn']
      · simp [hn']
    simp only [skippedEntry] at hskip
    rw [if_pos hcond, hentry] at hskip
    cases hskip

/-! ## A start behind the prune -/

/-- A start does not need what is gone: no record that it would apply stands in a segment that it
does not read any more, and of those that it still reads the merge order is the same without it. -/
structure Unneeded (W : Wire F) (s : LoadedSnapshots) (view : LogView) (gone : FileName → Bool)
    (dir : SegDir) : Prop where
  held : ∀ name ∈ visibleSegments view s.certificate dir,
    name ∉ remainingSegments view s.certificate gone dir →
      ∀ r ∈ heldRecords W dir name, s.passes (instOf name) r.1 r.2 = false
  order : ∀ o ∈ segmentOps (heldRecords W dir) (remainingSegments view s.certificate gone dir),
    ∀ o' ∈ segmentOps (heldRecords W dir) (remainingSegments view s.certificate gone dir),
      s.passes o.1 o.2.1 o.2.2 = true → s.passes o'.1 o'.2.1 o'.2.2 = true →
        (Precedes (segmentOps (heldRecords W dir)
            (remainingSegments view s.certificate gone dir)) o o' ↔
          Precedes (segmentOps (heldRecords W dir)
            (visibleSegments view s.certificate dir)) o o')

/-- Increasing sequence numbers tell the records of a writer apart. -/
lemma nodup_keys_segmentOps {names : List FileName}
    (h : ∀ inst, ((writerOps recs names inst).map Prod.fst).Pairwise (· < ·)) :
    ((segmentOps recs names).map fun o => (o.1, o.2.1)).Nodup := by
  refine Lists.nodup_of_filter_fst fun inst => ?_
  have hfst : (((segmentOps recs names).map fun o => (o.1, o.2.1)).filter (·.1 = inst)).map
      Prod.snd = (writerOps recs names inst).map Prod.fst := by
    rw [← segmentOps_filter, List.filter_map, List.map_map, List.map_map]
    rfl
  rw [hfst]
  exact (h inst).imp fun hlt => hlt.ne

section

variable {ops : List (InstanceId × ℕ × Op F)} {p : InstanceId × ℕ × Op F → Bool}

lemma filter_handed_pushAll (ops : List (InstanceId × ℕ × Op F))
    (p : InstanceId × ℕ × Op F → Bool) :
    ((Stamper.empty.pushAll ops).buf.filter fun a => p a.handed).map Stamped.handed =
      ops.filter p := by
  have hmap := Stamper.pushAll_handed Stamper.empty ops
  rw [Stamper.empty, List.map_nil, List.nil_append] at hmap
  conv_rhs => rw [← hmap, List.filter_map]
  rfl

/-- Two records that stand in front of each other are one. -/
lemma eq_of_before (hops : (ops.map fun o => (o.1, o.2.1)).Nodup)
    {o o' : InstanceId × ℕ × Op F}
    (h : Lists.Before mergeLE Stamped.handed
      ((Stamper.empty.pushAll ops).buf.filter fun a => p a.handed) o o')
    (h' : Lists.Before mergeLE Stamped.handed
      ((Stamper.empty.pushAll ops).buf.filter fun a => p a.handed) o' o) : o = o' := by
  obtain ⟨a, ha, b, hb, rfl, rfl, hab⟩ := h
  obtain ⟨b', hb', a', ha', hbb, haa, hba⟩ := h'
  have hnodup : (((Stamper.empty.pushAll ops).buf.filter fun a => p a.handed).map
      fun a => (a.inst, a.seqno)).Nodup := by
    have hkeys : ((Stamper.empty.pushAll ops).buf.filter fun a => p a.handed).map
        (fun a => (a.inst, a.seqno)) = (ops.filter p).map fun o => (o.1, o.2.1) := by
      rw [← filter_handed_pushAll, List.map_map]
      rfl
    rw [hkeys]
    exact hops.sublist (List.filter_sublist.map _)
  have hkey : ∀ {c d : Stamped F}, c.handed = d.handed → (c.inst, c.seqno) = (d.inst, d.seqno) :=
    fun h => congrArg (fun o => (o.1, o.2.1)) h
  obtain rfl := List.inj_on_of_nodup_map hnodup ha' ha (hkey haa)
  obtain rfl := List.inj_on_of_nodup_map hnodup hb' hb (hkey hbb)
  have heq : a'.key = b'.key := le_antisymm hab hba
  have hseqno : (a'.inst, a'.seqno) = (b'.inst, b'.seqno) :=
    congrArg (fun k => ofLex (ofLex k).2) heq
  rw [List.inj_on_of_nodup_map hnodup ha' hb' hseqno]

end

/-- Merge order behind a filter is the same for more records just if these are none that pass, and
the merge order of the others does not change. -/
lemma filter_mergeOrder_eq_iff {ops ops' : List (InstanceId × ℕ × Op F)}
    (hops : (ops.map fun o => (o.1, o.2.1)).Nodup) (hops' : (ops'.map fun o => (o.1, o.2.1)).Nodup)
    (p : InstanceId × ℕ × Op F → Bool) :
    (mergeOrder ops').filter p = (mergeOrder ops).filter p ↔
      (∀ o, p o = true → (o ∈ ops' ↔ o ∈ ops)) ∧
        ∀ o ∈ ops', ∀ o' ∈ ops', p o = true → p o' = true →
          (Precedes ops' o o' ↔ Precedes ops o o') := by
  have hfilter : ∀ ops : List (InstanceId × ℕ × Op F), (mergeOrder ops).filter p =
      (((Stamper.empty.pushAll ops).buf.filter fun a => p a.handed).insertionSort mergeLE).map
        Stamped.handed := by
    intro ops
    rw [mergeOrder, List.filter_map, ← Lists.filter_insertionSort]
    rfl
  have hnodup : ∀ {ops : List (InstanceId × ℕ × Op F)}, (ops.map fun o => (o.1, o.2.1)).Nodup →
      (((Stamper.empty.pushAll ops).buf.filter fun a => p a.handed).map Stamped.handed).Nodup := by
    intro ops h
    rw [filter_handed_pushAll]
    exact h.of_map.filter p
  rw [hfilter, hfilter, Lists.map_insertionSort_eq_iff (hnodup hops') (hnodup hops)
    (fun _ _ => eq_of_before hops') fun _ _ => eq_of_before hops]
  simp only [filter_handed_pushAll, List.mem_filter]
  constructor
  · rintro ⟨hmem, horder⟩
    refine ⟨fun o hpass => ?_, fun o ho o' ho' hpass hpass' => ?_⟩
    · have := hmem o
      rwa [and_iff_left hpass, and_iff_left hpass] at this
    · have := horder o ⟨ho, hpass⟩ o' ⟨ho', hpass'⟩
      rwa [Lists.before_filter hpass hpass', Lists.before_filter hpass hpass'] at this
  · rintro ⟨hmem, horder⟩
    refine ⟨fun o => and_congr_left (hmem o), fun o ho o' ho' => ?_⟩
    rw [Lists.before_filter ho.2 ho'.2, Lists.before_filter ho.2 ho'.2]
    exact horder o ho.1 o' ho'.1 ho.2 ho'.2

/-- The start finds the directory without what was pruned. -/
lemma Without.started {dir dir' : SegDir} (h : Without gone dir dir')
    (hview : gone view.writerPath = false) :
    Without gone (startedDir view dir) (startedDir view dir') := by
  refine ⟨fun name => ?_, h.archive⟩
  by_cases hne : name = view.writerPath
  · subst hne
    simp [startedDir, hview]
  · simp only [startedDir, SegDir.read_write_of_ne _ _ hne, h.read]

/-- A record stands in one segment only. -/
lemma eq_of_mem_of_nodup {names : List FileName}
    (h : ((segmentOps recs names).map fun o => (o.1, o.2.1)).Nodup) {name name' : FileName}
    (hname : name ∈ names) (hname' : name' ∈ names) (hinst : instOf name = instOf name')
    {r : ℕ × Op F} (hr : r ∈ recs name) (hr' : r ∈ recs name') : name = name' := by
  by_contra hne
  have hops : (segmentOps recs names).Nodup := h.of_map
  rw [segmentOps, List.nodup_flatMap] at hops
  have hsymm : Std.Symm (Function.onFun List.Disjoint fun name =>
      (recs name).map fun r => (instOf name, r.1, r.2)) := ⟨fun _ _ h => h.symm⟩
  refine hops.2.forall hname hname' hne (List.mem_map_of_mem hr) ?_
  rw [hinst]
  exact List.mem_map_of_mem hr'

/-- What a start would apply is the same without what is gone just if it does not need it. -/
lemma unneeded_iff {dir : SegDir} (hincreasing : Increasing W view dir) :
    ((mergeOrder (segmentOps (heldRecords W dir)
        (remainingSegments view s.certificate gone dir))).filter fun o => s.passes o.1 o.2.1 o.2.2) =
      ((mergeOrder (segmentOps (heldRecords W dir)
        (visibleSegments view s.certificate dir))).filter fun o => s.passes o.1 o.2.1 o.2.2) ↔
      Unneeded W s view gone dir := by
  have hvisible : ((segmentOps (heldRecords W dir)
      (visibleSegments view s.certificate dir)).map fun o => (o.1, o.2.1)).Nodup := by
    refine nodup_keys_segmentOps fun inst => (hincreasing inst).sublist (List.Sublist.map _ ?_)
    exact (List.filter_sublist.filter _).flatMap _
  have hremaining : ((segmentOps (heldRecords W dir)
      (remainingSegments view s.certificate gone dir)).map fun o => (o.1, o.2.1)).Nodup := by
    refine nodup_keys_segmentOps fun inst => (hincreasing inst).sublist (List.Sublist.map _ ?_)
    exact ((List.filter_sublist.trans List.filter_sublist).filter _).flatMap _
  rw [filter_mergeOrder_eq_iff hvisible hremaining]
  constructor
  · rintro ⟨hmem, horder⟩
    refine ⟨fun name hname hnot r hr => ?_, horder⟩
    by_contra hpass
    have hstill := (hmem (instOf name, r.1, r.2) (Bool.of_not_eq_false hpass)).mpr
      (List.mem_flatMap.mpr ⟨name, hname, List.mem_map_of_mem hr⟩)
    obtain ⟨name', hname', hr'⟩ := List.mem_flatMap.mp hstill
    obtain ⟨r', hheld, heq⟩ := List.mem_map.mp hr'
    obtain ⟨hinst, rfl⟩ : instOf name' = instOf name ∧ r' = r := by
      rw [Prod.ext_iff] at heq
      exact heq
    have hsame := eq_of_mem_of_nodup hvisible hname (remainingSegments_sub hname').1 hinst.symm
      hr hheld
    exact hnot (hsame ▸ hname')
  · intro h
    refine ⟨fun o hpass => ⟨fun ho => ?_, fun ho => ?_⟩, h.order⟩
    · obtain ⟨name, hname, hr⟩ := List.mem_flatMap.mp ho
      exact List.mem_flatMap.mpr ⟨name, (remainingSegments_sub hname).1, hr⟩
    · obtain ⟨name, hname, hr⟩ := List.mem_flatMap.mp ho
      obtain ⟨r, hheld, rfl⟩ := List.mem_map.mp hr
      by_cases hstill : name ∈ remainingSegments view s.certificate gone dir
      · exact List.mem_flatMap.mpr ⟨name, hstill, hr⟩
      · exact absurd hpass (by simp [h.held name hname hstill r hheld])

/-- The prune removes no segment but such that both coverage vectors of the committed family
dominate.  A start behind it applies what a start in front of it would apply, just if it does not
need what is gone; then it comes to the same maps. -/
theorem pruning_reconstructs_iff [F32 F] {W : Wire F} {log : LogView} {st : Sealing}
    (hst : st.Reachable W log) {m : Manifest} {size : FileName → Option ℕ} {u : Unlink}
    {dir' : SegDir} {deleted : ℕ}
    (hprune : pruneCertifiedWal log (some m) size u st.dir = .ok (dir', deleted))
    {family : SnapshotFamily} (hfamily : m.families.get? (instHex log.inst) = some family)
    (hmade : ∀ entry ∈ family.segments, entry ∈ st.made) (s : LoadedSnapshots) {view : LogView}
    (hview : st.dir.read view.writerPath = none)
    (hread : Readable W view (startedDir view st.dir))
    (hincreasing : Increasing W view (startedDir view st.dir))
    (harchive : ArchiveFree view (startedDir view st.dir)) :
    (∀ name, dir'.read name ≠ st.dir.read name → Dominated W log family st.dir name) ∧
      (s.applied W view dir' = s.applied W view st.dir ↔
        Unneeded W s view (family.prunes log u st.dir) (startedDir view st.dir)) ∧
      (Unneeded W s view (family.prunes log u st.dir) (startedDir view st.dir) →
        ∀ ctx, s.started W view ctx dir' = s.started W view ctx st.dir) := by
  have hwithout := without_of_prune hprune hfamily
  have hgone : family.prunes log u st.dir view.writerPath = false := by
    by_contra h
    obtain ⟨file, -, -, -, hfile, -⟩ :=
      (SnapshotFamily.dominated_of_prunes (W := W) hst hmade (Bool.of_not_eq_false h)).whole
    exact absurd (hview.symm.trans hfile) (by simp)
  generalize hD : startedDir view st.dir = D at hread hincreasing harchive
  have hwithout' : Without (family.prunes log u st.dir) D (startedDir view dir') :=
    hD ▸ hwithout.started hgone
  generalize hgone' : family.prunes log u st.dir = gone at hwithout hwithout'
  -- the records of the segments in front of the prune
  have hrecs : ∀ name ∈ admittedSegments view D, ∃ file, D.read name = some file ∧
      SegmentFile W file (heldRecords W D name) := by
    intro name hname
    obtain ⟨file, rs, hfile, hrs⟩ := hread name hname
    exact ⟨file, hfile, (hrs.heldRecords_eq hfile).symm ▸ hrs⟩
  have hrecs' : ∀ name ∈ admittedSegments view (startedDir view dir'), ∃ file,
      (startedDir view dir').read name = some file ∧ SegmentFile W file (heldRecords W D name) := by
    intro name hname
    rw [hwithout'.admitted, List.mem_filter] at hname
    obtain ⟨file, hfile, hsegment⟩ := hrecs name hname.1
    exact ⟨file, (hwithout'.read_of_not_gone (by simpa using hname.2)).trans hfile, hsegment⟩
  have harchive' : ArchiveFree view (startedDir view dir') := by
    intro name hname hadmitted hsealed
    rw [hwithout'.collect, List.mem_filter] at hname
    rw [hwithout'.admitted, List.mem_filter, not_and] at hadmitted
    rw [hwithout'.archive]
    exact harchive name hname.1 (fun h => hadmitted h hname.2) hsealed
  have hbefore := LoadedSnapshots.applied_eq (s := s) (hD ▸ hrecs) (hD ▸ harchive)
  have hbehind := LoadedSnapshots.applied_eq (s := s) hrecs' harchive'
  rw [hD] at hbefore
  rw [hwithout'.visible] at hbehind
  have hiff : s.applied W view dir' = s.applied W view st.dir ↔ Unneeded W s view gone D := by
    rw [hbehind, hbefore, Except.ok.injEq]
    exact unneeded_iff hincreasing
  refine ⟨fun name hne => ?_, hiff, fun h => LoadedSnapshots.started_eq_of_applied (hiff.mpr h)⟩
  refine SnapshotFamily.dominated_of_prunes hst hmade (u := u) ?_
  by_contra h
  rw [hgone'] at h
  exact hne (hwithout.read_of_not_gone (Bool.of_not_eq_true h))

/-! ## A deletion that another instance has not seen -/

/-- The log of instance `1`, which is at its second segment. -/
def prunerLog : LogView := ⟨1, 0, segmentPath 1 2, fun _ => false⟩

/-- The first segment of instance `1`: it deletes memory `7`. -/
def deletionFile : Bytes :=
  headerV3 1 zeroHash 0 ++
    encodeAll (Reference.wire ℚ) (records [Reference.deletion ℚ 1 7 5 zeroHash])

/-- The certificate of the first segment. -/
def deletionEntry : SegmentInfo := ⟨relativePath (segmentPath 1 1), 1, 1, 122⟩

/-- The segments of instance `1`, with the certificate of the first. -/
def deletionSealing : Sealing where
  dir := (SegDir.empty.write (segmentPath 1 1) deletionFile).write (segmentPath 1 2)
    (headerV3 2 zeroHash 0)
  used := [segmentPath 1 2, segmentPath 1 1]
  made := [deletionEntry]

lemma deletionSealing_reachable : deletionSealing.Reachable (Reference.wire ℚ) prunerLog := by
  have hfirst : Sealing.Step (Reference.wire ℚ) prunerLog .start
      ⟨SegDir.empty.write (segmentPath 1 1) deletionFile, [segmentPath 1 1], []⟩ :=
    .create deletionFile List.not_mem_nil
  have hsecond : Sealing.Step (Reference.wire ℚ) prunerLog
      ⟨SegDir.empty.write (segmentPath 1 1) deletionFile, [segmentPath 1 1], []⟩
      ⟨deletionSealing.dir, deletionSealing.used, []⟩ :=
    .create (headerV3 2 zeroHash 0) (by decide +kernel)
  have hscan : scanSealedSegment (Reference.wire ℚ) deletionSealing.dir (segmentPath 1 1)
      (segmentPath 1 2) prunerLog.vectorSpaceId = some deletionEntry := by decide +kernel
  have hthird : Sealing.Step (Reference.wire ℚ) prunerLog
      ⟨deletionSealing.dir, deletionSealing.used, []⟩ deletionSealing := .scan hscan
  exact ((Relation.ReflTransGen.single hfirst).tail hsecond).tail hthird

/-- A family without sidecars, whose snapshots cover one instance. -/
def coveringFamily (inst : InstanceId) (seqno : ℕ) (segments : List SegmentInfo) :
    SnapshotFamily where
  snapshotSeqno := seqno
  covered := [(instHex inst, seqno)]
  corticalCovered := [(instHex inst, seqno)]
  segments := segments
  vectorSpaceId := some 0
  snapshot := ⟨instHex inst ++ ".snapshot".toList, 0⟩
  sidecars := []
  cortical := some ⟨instHex inst ++ ".cortex".toList, 0⟩

/-- Instance `2` has saved at its sequence number `5`, and then instance `1` at its number `1`. -/
def twoFamilies : Manifest where
  generation := 2
  lastSeqno := 1
  segments := [deletionEntry]
  checkpoints := some (coveringFamily 1 1 [deletionEntry])
  families := (OrderedMap.empty.insert (instHex 2) (coveringFamily 2 5 [])).insert (instHex 1)
    (coveringFamily 1 1 [deletionEntry])

/-- The snapshots of a family, all loaded. -/
def loadedFamily (family : SnapshotFamily) : LoadedSnapshots :=
  ⟨family.snapshotSeqno, family.snapshotSeqno, some family.toCheckpointSet, true⟩

/-- Files that are as large as the families say, and an unlink that goes well. -/
def allEmpty : FileName → Option ℕ := fun _ => some 0

@[inherit_doc allEmpty]
def unlinked : Unlink := ⟨fun _ => true, fun _ => true⟩

lemma twoFamilies_get : twoFamilies.families.get? (instHex prunerLog.inst) =
    some (coveringFamily 1 1 [deletionEntry]) := OrderedMap.get?_insert_self

lemma prune_deletion : pruneCertifiedWal prunerLog (some twoFamilies) allEmpty unlinked
    deletionSealing.dir = .ok (deletionSealing.dir.remove (segmentPath 1 1), 1) := by
  have hreleases : (coveringFamily 1 1 [deletionEntry]).releases prunerLog deletionSealing.dir
      deletionEntry = some (segmentPath 1 1) := by decide +kernel
  have hone : pruneCertifiedWal prunerLog (some twoFamilies) allEmpty unlinked
      deletionSealing.dir = .ok ((coveringFamily 1 1 [deletionEntry]).pruneSegment prunerLog unlinked
        (deletionSealing.dir, 0) deletionEntry) := by
    have hsizes : ∀ message file, file.sizeBytes = 0 → checkSizes allEmpty message [file] = none := by
      intro message file h
      simp [checkSizes, allEmpty, h]
    simp only [pruneCertifiedWal, twoFamilies_get]
    simp [coveringFamily, hsizes, prunerLog]
  rw [hone]
  simp only [SnapshotFamily.pruneSegment, hreleases]
  rfl

/-- The next start takes the family of instance `2`, which has not seen the deletion.  In front of
the prune it replays the deletion; behind it memory `7` is alive again. -/
theorem pruned_deletion_lost :
    pruneCertifiedWal prunerLog (some twoFamilies) allEmpty unlinked deletionSealing.dir =
        .ok (deletionSealing.dir.remove (segmentPath 1 1), 1) ∧
      twoFamilies.validatedSnapshot allEmpty = some (coveringFamily 2 5 []).snapshot.name ∧
      (((loadedFamily (coveringFamily 2 5 [])).started (Reference.wire ℚ) sampleLog
        (applyAll .empty [sampleCreation 4]) deletionSealing.dir).toOption.bind
          (·.states 7)).map (·.deleted) = some true ∧
      (((loadedFamily (coveringFamily 2 5 [])).started (Reference.wire ℚ) sampleLog
        (applyAll .empty [sampleCreation 4])
          (deletionSealing.dir.remove (segmentPath 1 1))).toOption.bind
            (·.states 7)).map (·.deleted) = some false :=
  ⟨prune_deletion, by decide +kernel, by decide +kernel, by decide +kernel⟩

/-- A start that takes the family of instance `1` does not need the segment. -/
theorem pruned_deletion_reconstructed :
    (loadedFamily (coveringFamily 1 1 [deletionEntry])).applied (Reference.wire ℚ) sampleLog
        (deletionSealing.dir.remove (segmentPath 1 1)) =
      (loadedFamily (coveringFamily 1 1 [deletionEntry])).applied (Reference.wire ℚ) sampleLog
        deletionSealing.dir := by
  have hlisted : admittedSegments sampleLog (startedDir sampleLog deletionSealing.dir) =
      [segmentPath 1 1, segmentPath 1 2, segmentPath 3 1] := by decide +kernel
  have hvalid : ∀ e ∈ [Reference.deletion ℚ 1 7 5 zeroHash], e.Valid (Reference.wire ℚ) := by
    intro e he
    rw [List.mem_singleton.mp he]
    exact Reference.deletion_valid ℚ (by decide) (by decide) (by decide) _
  have hread : Readable (Reference.wire ℚ) sampleLog (startedDir sampleLog deletionSealing.dir) := by
    intro name hname
    rw [hlisted] at hname
    rcases List.mem_cons.mp hname with rfl | hname
    · exact ⟨deletionFile, _, by decide +kernel,
        (ChainedHeader.v3 (by decide) _ _).segmentFile_encodeAll hvalid⟩
    · have hempty : ∀ n < 256 ^ 8, SegmentFile (Reference.wire ℚ) (headerV3 n zeroHash 0) [] := by
        intro n hn
        have := (ChainedHeader.v3 hn zeroHash 0).segmentFile
          (.done (by simp) : Records (Reference.wire ℚ) 3 [] [])
        rwa [List.append_nil] at this
      rcases List.mem_pair.mp hname with rfl | rfl
      · exact ⟨headerV3 2 zeroHash 0, [], by decide +kernel, hempty 2 (by decide)⟩
      · exact ⟨headerV3 1 zeroHash 0, [], by decide +kernel, hempty 1 (by decide)⟩
  have hincreasing : Increasing (Reference.wire ℚ) sampleLog
      (startedDir sampleLog deletionSealing.dir) := by
    intro inst
    rw [hlisted]
    by_cases h1 : instOf (segmentPath 1 1) = inst
    · subst h1
      decide +kernel
    · by_cases h3 : instOf (segmentPath 3 1) = inst
      · subst h3
        decide +kernel
      · have h1' : instOf (segmentPath 1 2) ≠ inst := h1
        simp [writerOps, h1, h1', h3]
  have hnone : ∀ o ∈ segmentOps (heldRecords (Reference.wire ℚ)
      (startedDir sampleLog deletionSealing.dir)) (remainingSegments sampleLog
        (loadedFamily (coveringFamily 1 1 [deletionEntry])).certificate
        ((coveringFamily 1 1 [deletionEntry]).prunes prunerLog unlinked deletionSealing.dir)
        (startedDir sampleLog deletionSealing.dir)),
      (loadedFamily (coveringFamily 1 1 [deletionEntry])).passes o.1 o.2.1 o.2.2 = false := by
    decide +kernel
  refine (pruning_reconstructs_iff deletionSealing_reachable prune_deletion twoFamilies_get
    (fun entry h => h) _ (by decide +kernel) hread hincreasing
    (fun _ _ _ _ => List.not_mem_nil)).2.1.mpr ⟨by decide +kernel, fun o ho _ _ hpass => ?_⟩
  exact absurd hpass (by simp [hnone o ho])

end ChittaField
