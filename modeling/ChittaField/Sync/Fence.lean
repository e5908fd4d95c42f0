import ChittaField.Lib.Replayed
import ChittaField.Sync.Foreign

/-!
# The lineage fence

Startup replay does not admit a segment that is stamped with another vector space
(`admittedSegments`).  The reader that follows the segments of peers does not look at the stamp.

`sync_fenced_iff` says when the operations that syncs hand on are those of admitted segments.
-/

namespace ChittaField

variable {F : Type}

/-! ## A sync -/

/-- Collect what the peers appended, and hand it on to be applied. -/
def syncForeign (W : Wire F) (foreignSegs : Except FieldError (List FileName))
    (read : FileName → Except FieldError Bytes) (s : SyncState F) :
    SyncState F × Except FieldError (List (InstanceId × Op F)) :=
  match syncForeignCollect W foreignSegs read s with
  | (s, .error e) => (s, .error e)
  | (s, .ok _) => ((syncForeignApply s).1, .ok (syncForeignApply s).2)

/-- Reading a segment file of a directory. -/
def SegDir.readSegment (dir : SegDir) (name : FileName) : Except FieldError Bytes :=
  (dir.read name).elim (.error (.io "not found")) .ok

/-- A sync with the peers whose segments are in a directory. -/
def syncDir (W : Wire F) (log : LogView) (dir : SegDir) (s : SyncState F) :
    SyncState F × Except FieldError (List (InstanceId × Op F)) :=
  syncForeign W (.ok (collectForeignSegments dir log.inst)) dir.readSegment s

/-- What a segment adds to a collect. -/
def collectedOps (W : Wire F) (seen : FileName → Option ℕ) (read : FileName → Except FieldError Bytes)
    (name : FileName) : List (InstanceId × Op F) :=
  match readOn W seen read name with
  | .error _ => []
  | .ok (_, rs) => rs.map fun r => (instOf name, r.2)

/-- A collect is an error when a read fails; else it collects what each segment adds. -/
lemma collectLoop_spec (W : Wire F) (read : FileName → Except FieldError Bytes)
    {seen : FileName → Option ℕ} {segs : List FileName} (hnodup : segs.Nodup) {c : Collecting F}
    (hseen : ∀ name ∈ segs, c.seen name = seen name) :
    ((collectLoop W read segs c).2 = none ↔ ∀ name ∈ segs, ∃ r, readOn W seen read name = .ok r) ∧
      ((collectLoop W read segs c).2 = none →
        (collectLoop W read segs c).1.ops = c.ops ++ segs.flatMap (collectedOps W seen read)) := by
  induction segs generalizing c with
  | nil => exact ⟨⟨fun _ _ h => absurd h List.not_mem_nil, fun _ => rfl⟩, fun _ => (List.append_nil _).symm⟩
  | cons name segs ih =>
    obtain ⟨hnotin, hnodup⟩ := List.nodup_cons.mp hnodup
    have hsame : readOn W c.seen read name = readOn W seen read name := by
      simp only [readOn, hseen name List.mem_cons_self]
    rw [List.forall_mem_cons]
    cases hr : readOn W seen read name with
    | error e =>
      have hloop : collectLoop W read (name :: segs) c = (c, some e) := by
        simp only [collectLoop, hsame, hr]
      rw [hloop]
      exact ⟨iff_of_false (by simp) fun h => by simp at h, fun h => by simp at h⟩
    | ok r =>
      obtain ⟨hnone, hops⟩ := ih hnodup
        (c := { seen := Function.update c.seen name (some r.1)
                ops := c.ops ++ r.2.map fun r => (instOf name, r.2)
                freshCoverage := r.2.foldl (fun c r => raiseCoverage c (instOf name) r.1)
                  c.freshCoverage })
        (fun n hn => (Function.update_of_ne (ne_of_mem_of_not_mem hn hnotin) _ _).trans
          (hseen n (List.mem_cons_of_mem _ hn)))
      have hadds : collectedOps W seen read name = r.2.map fun r => (instOf name, r.2) := by
        simp only [collectedOps, hr]
      simp only [collectLoop, hsame, hr]
      refine ⟨hnone.trans (and_iff_right ⟨r, rfl⟩).symm, fun h => ?_⟩
      rw [hops h, List.flatMap_cons, hadds, List.append_assoc]

/-! ## What a segment adds -/

/-- There is a whole record at the beginning of some bytes. -/
def HasRecord (W : Wire F) (version : ℕ) (bs : Bytes) : Prop :=
  ∃ f rest op, readFrame version bs = .frame f rest ∧ f.computedCrc W version = f.storedCrc ∧
    W.fromSlice f.payload = .ok op

/-- The reader takes nothing where there is no whole record. -/
lemma follow_eq_nil_iff (W : Wire F) (version : ℕ) (bs : Bytes) :
    (follow W version bs).2 = [] ↔ ¬ HasRecord W version bs := by
  rw [follow_eq, HasRecord]
  cases hread : readFrame version bs with
  | eof => simp
  | torn => simp
  | frame f rest =>
    by_cases hcrc : f.computedCrc W version = f.storedCrc
    · cases hop : W.fromSlice f.payload with
      | error e => simp [hcrc, hop]
      | ok op => simp [hcrc, hop]
    · simp [hcrc]

/-- Where the reader of a V3 segment starts. -/
def readStart (seen : Option ℕ) : ℕ := if seen.getD 0 = 0 then v3HeaderSize else seen.getD 0

/-- A stamp is read behind the magic of V3. -/
lemma magic_of_isForeign {log : LogView} {file : Bytes} (h : isForeign log file = true) :
    ∃ bs, readExact 8 file = some (segmentMagicV3, bs) := by
  unfold isForeign segmentVectorSpaceId at h
  split at h
  · exact absurd h nofun
  · rename_i magic bs hread
    split at h
    · exact absurd h nofun
    · rename_i hmagic
      exact ⟨bs, by rw [hread, not_not.mp hmagic]⟩

/-- A foreign segment adds something when it has a whole record where the reader starts. -/
lemma collectedOps_foreign (W : Wire F) {log : LogView} {seen : FileName → Option ℕ} {dir : SegDir}
    {name : FileName} {file : Bytes} (hfile : dir.read name = some file)
    (hforeign : isForeign log file = true) :
    collectedOps W seen dir.readSegment name = [] ↔
      ¬ HasRecord W 3 (file.drop (readStart (seen name))) := by
  obtain ⟨bs, hmagic⟩ := magic_of_isForeign hforeign
  have hversion : segmentVersion segmentMagicV3 = some 3 := by decide
  have hread : dir.readSegment name = .ok file := by rw [SegDir.readSegment, hfile]; rfl
  rw [← follow_eq_nil_iff, readStart]
  by_cases hoff : (seen name).getD 0 = 0
  · simp only [collectedOps, readOn, hread, replayFromOffset, hmagic, hoff, if_true, hversion,
      List.map_eq_nil_iff]
    rfl
  · simp only [collectedOps, readOn, hread, replayFromOffset, hmagic, hoff, if_false, hversion,
      List.map_eq_nil_iff, Option.getD_some]

/-- A segment is read from its start, and is none. -/
def Unreadable (seen : FileName → Option ℕ) (dir : SegDir) (name : FileName) : Prop :=
  (seen name).getD 0 = 0 ∧ ∃ file, dir.read name = some file ∧ BadMagic file

/-- A read of a segment that is there fails only so. -/
lemma readOn_error_iff (W : Wire F) {seen : FileName → Option ℕ} {dir : SegDir} {name : FileName}
    (h : (dir.read name).isSome) :
    (∃ e, readOn W seen dir.readSegment name = .error e) ↔ Unreadable seen dir name := by
  obtain ⟨file, hfile⟩ := Option.isSome_iff_exists.mp h
  have hread : dir.readSegment name = .ok file := by rw [SegDir.readSegment, hfile]; rfl
  simp only [readOn, hread, Unreadable, hfile, Option.some.injEq, exists_eq_left', BadMagic,
    replayFromOffset]
  cases hmagic : readExact 8 file with
  | none => simp
  | some p =>
    obtain ⟨magic, bs⟩ := p
    by_cases hoff : (seen name).getD 0 = 0
    · cases hversion : segmentVersion magic <;> simp [hoff, hversion]
    · simp [hoff]

/-! ## The fence -/

/-- The operations that a sync hands on are those that were pending, and those of the peers' segments
that replay admits. -/
def Fenced (W : Wire F) (log : LogView) (s : SyncState F) (dir : SegDir) : Prop :=
  ∀ ops, (syncDir W log dir s).2 = .ok ops → ops = s.pendingForeign.ops ++
    ((collectForeignSegments dir log.inst).filter ((admittedSegments log dir).contains ·)).flatMap
      (collectedOps W s.seenOffsets dir.readSegment)

/-- No segment of a peer with another stamp has a whole record where the reader starts; or one of the
peers' segments is none. -/
def Unstamped (W : Wire F) (log : LogView) (s : SyncState F) (dir : SegDir) : Prop :=
  (∃ name ∈ collectForeignSegments dir log.inst, Unreadable s.seenOffsets dir name) ∨
    ∀ name ∈ collectForeignSegments dir log.inst, ∀ file, dir.read name = some file →
      isForeign log file = true → ¬ HasRecord W 3 (file.drop (readStart (s.seenOffsets name)))

lemma mem_collectForeignSegments {dir : SegDir} {inst : InstanceId} {name : FileName}
    (h : name ∈ collectForeignSegments dir inst) :
    name ∈ collectAllSegments dir ∧ (dir.read name).isSome := by
  have hall := List.mem_of_mem_filter h
  exact ⟨hall, (mem_collectAllSegments.mp hall).1⟩

/-- What a sync hands on. -/
lemma syncDir_ops (W : Wire F) (log : LogView) (s : SyncState F) (dir : SegDir) :
    (∃ name ∈ collectForeignSegments dir log.inst, Unreadable s.seenOffsets dir name) ∧
        (∃ e, (syncDir W log dir s).2 = .error e) ∨
      (¬ ∃ name ∈ collectForeignSegments dir log.inst, Unreadable s.seenOffsets dir name) ∧
        (syncDir W log dir s).2 = .ok (s.pendingForeign.ops ++
          (collectForeignSegments dir log.inst).flatMap
            (collectedOps W s.seenOffsets dir.readSegment)) := by
  have hnodup : (collectForeignSegments dir log.inst).Nodup :=
    ((collectAllSegments_sorted dir).imp fun h => h.ne).filter _
  have hthere : ∀ name ∈ collectForeignSegments dir log.inst, (dir.read name).isSome :=
    fun name hname => (mem_collectForeignSegments hname).2
  have hreads : (∀ name ∈ collectForeignSegments dir log.inst,
        ∃ r, readOn W s.seenOffsets dir.readSegment name = .ok r) ↔
      ¬∃ name ∈ collectForeignSegments dir log.inst, Unreadable s.seenOffsets dir name := by
    rw [not_exists]
    refine forall_congr' fun name => (forall_congr' fun hname => ?_).trans not_and.symm
    rw [← readOn_error_iff W (hthere name hname)]
    cases readOn W s.seenOffsets dir.readSegment name <;> simp
  obtain ⟨hnone, hops⟩ := collectLoop_spec W dir.readSegment hnodup
    (c := ⟨s.seenOffsets, [], fun _ => none⟩) fun _ _ => rfl
  rw [hreads] at hnone
  cases hloop : collectLoop W dir.readSegment (collectForeignSegments dir log.inst)
    ⟨s.seenOffsets, [], fun _ => none⟩ with
  | mk c' err =>
    rw [hloop] at hnone hops
    cases err with
    | some e =>
      refine Or.inl ⟨not_not.mp fun h => absurd (hnone.mpr h) (by simp), e, ?_⟩
      simp only [syncDir, syncForeign, syncForeignCollect, hloop]
    | none =>
      refine Or.inr ⟨hnone.mp rfl, ?_⟩
      simp only [syncDir, syncForeign, syncForeignCollect, hloop, syncForeignApply]
      rw [← List.nil_append (List.flatMap _ _), ← hops rfl]
      split
      · rename_i hempty
        rw [List.isEmpty_iff.mp hempty]
      · rfl

/-- One sync. -/
lemma fenced_iff (W : Wire F) (log : LogView) (s : SyncState F) (dir : SegDir) :
    Fenced W log s dir ↔ Unstamped W log s dir := by
  rcases syncDir_ops W log s dir with ⟨hbad, e, herror⟩ | ⟨hbad, hok⟩
  · refine ⟨fun _ => Or.inl hbad, fun _ ops hops => ?_⟩
    rw [herror] at hops
    exact absurd hops nofun
  · have hsplit : Fenced W log s dir ↔
        ∀ name ∈ collectForeignSegments dir log.inst, (admittedSegments log dir).contains name =
          false → collectedOps W s.seenOffsets dir.readSegment name = [] := by
      rw [← Lists.flatMap_eq_flatMap_filter_iff, Fenced, hok]
      simp only [Except.ok.injEq, forall_eq', List.append_right_inj]
    rw [hsplit, Unstamped, or_iff_right hbad]
    refine forall₂_congr fun name hname => ?_
    obtain ⟨hlisted, hthere⟩ := mem_collectForeignSegments hname
    obtain ⟨file, hfile⟩ := Option.isSome_iff_exists.mp hthere
    have hadmitted : name ∈ admittedSegments log dir ↔ isForeign log file = false := by
      rw [admittedSegments, List.mem_filter, hfile]
      simp [hlisted]
    simp only [List.contains_eq_mem, decide_eq_false_iff_not, hadmitted, Bool.not_eq_false, hfile,
      Option.some.injEq, forall_eq']
    exact forall_congr' fun hforeign => collectedOps_foreign W hfile hforeign

/-! ## Runs -/

/-- Along any run of syncs, whatever the peers do to their segments in between, every sync hands on
the operations of the segments that replay admits if and only if no segment with another stamp has a
whole record to read. -/
theorem sync_fenced_iff (W : Wire F) (log : LogView) (s : SyncState F) (dirs : List SegDir) :
    Replayed.All (fun s dir => ((syncDir W log dir s).1, ([] : List Unit))) (Fenced W log) s dirs ↔
      Replayed.All (fun s dir => ((syncDir W log dir s).1, ([] : List Unit))) (Unstamped W log) s
        dirs :=
  Replayed.all_congr (fenced_iff W log)

/-- The segment of a peer that has appended a deletion. -/
def appendedSegments : SegDir :=
  SegDir.empty.write (segmentPath 1 1) ((twoPeers.stream (segmentPath 1 1)).view 122)

/-- A log of another vector space than the segments of the two peers. -/
def otherLog : LogView := { sampleLog with vectorSpaceId := 7 }

/-- Replay admits no segment of the two peers, and a sync hands on the deletion of one. -/
theorem foreign_vectors_applied :
    ¬ ∀ (log : LogView) (s : SyncState ℚ) (dirs : List SegDir), Replayed.All
      (fun s dir => ((syncDir (Reference.wire ℚ) log dir s).1, ([] : List Unit)))
      (Fenced (Reference.wire ℚ) log) s dirs := by
  intro hfenced
  have hsync : Fenced (Reference.wire ℚ) otherLog openedWorld.sync appendedSegments :=
    (hfenced otherLog openedWorld.sync [appendedSegments]).1
  have hops := (syncDir_ops (Reference.wire ℚ) otherLog openedWorld.sync appendedSegments).resolve_left
    fun h => ?_
  · have hfirst := congrArg (List.map Prod.fst) (hsync _ hops.2)
    exact absurd hfirst (by decide +kernel)
  · obtain ⟨⟨name, hname, hzero, -⟩, -⟩ := h
    exact absurd hzero (show (56 : ℕ) ≠ 0 by decide)

end ChittaField
