import ChittaField.Log.TornTail
import ChittaField.Log.Writer

/-!
# Recovery from the accepted bytes

The log keeps a copy of the accepted bytes of its open segment.  When the segment's file vanishes or
a write to it fails, the copy becomes the new file.  So the copy has to be the header and the
encodings of the records that replay accepted or append acknowledged, in every state of every run.

`run_installs_accepted` proves this for the runs that open on a segment without a torn tail
and in which the file does not vanish between a check for it and the write.  Opening reads the copy
before replay has cut off a torn tail, and `recovery_reinstalls_torn_tail` shows a recovery that
brings the tail back.
-/

namespace ChittaField

variable {F : Type}

/-! ## Runs -/

/-- The records that the reader accepts from the front of `bs`, in at most `fuel` rounds. -/
def acceptedFuel (W : Wire F) (version : ℕ) : ℕ → Bytes → List Record
  | 0, _ => []
  | fuel + 1, bs =>
    match readFrame version bs with
    | .frame f rest =>
      if f.computedCrc W version = f.storedCrc ∧ (decodeOp W f).toOption.isSome then
        ⟨f.seqno, f.opType, f.prevHash, f.payload⟩ :: acceptedFuel W version fuel rest
      else []
    | _ => []

/-- The records that the reader accepts of a segment file. -/
def acceptedRecords (W : Wire F) (file : Bytes) : List Record :=
  match readHeader file with
  | .header version _ rest => acceptedFuel W version rest.length rest
  | _ => []

/-- A log and its directory, with the records of the open segment that replay accepted or append
acknowledged. -/
structure Writing (F : Type) where
  log : OpLog F
  dir : SegDir
  acked : List Record

/-- The steps of one log. -/
inductive WriterStep (F : Type) where
  | replay (older : FileName → Bool)
  | setNextSeqno (seqno : UInt64)
  | append (io : Io) (op : Op F)
  | sync (io : Io)
  | vanish (nlink : ℕ)

namespace Writing

/-- The state after opening. -/
def opened (W : Wire F) (log : OpLog F) (dir : SegDir) : Writing F :=
  ⟨log, dir, acceptedRecords W log.acceptedPrefix⟩

/-- One step, and whether it was a successful append or sync. -/
def step (W : Wire F) (s : Writing F) : WriterStep F → Writing F × Bool
  | .replay older =>
    let (log, outcome) := s.log.replay W s.dir older
    (⟨log, outcome.dir, s.acked⟩, false)
  | .setNextSeqno seqno => ({ s with log := s.log.setNextSeqno seqno.toNat }, false)
  | .append io op =>
    let ((log, dir), res) := s.log.append W s.dir io op
    -- records belong to the segment they were written to
    let acked := if log.currentSegmentPath = s.log.currentSegmentPath then s.acked else []
    match res, W.toVec op with
    | .ok _, .ok payload =>
      (⟨log, dir, if s.log.suppresses op then acked else acked ++ [s.log.record op payload]⟩, true)
    | _, _ => (⟨log, dir, acked⟩, false)
  | .sync io =>
    let (log, dir) := s.log.sync s.dir io
    (⟨log, dir, s.acked⟩, true)
  | .vanish nlink =>
    let (log, dir) := s.log.vanish s.dir nlink
    (⟨log, dir, s.acked⟩, false)

/-- A run. -/
def run (W : Wire F) (s : Writing F) (steps : List (WriterStep F)) : Writing F :=
  steps.foldl (fun s st => (s.step W st).1) s

/-- The bytes of a header and of the accepted records. -/
def AcceptedBytes (W : Wire F) (s : Writing F) (bytes : Bytes) : Prop :=
  ∃ version first hdr, ChainedHeader version first hdr ∧ bytes = hdr ++ encodeAll W s.acked

/-- The open segment's file holds the accepted records and nothing else. -/
def Installed (W : Wire F) (s : Writing F) : Prop :=
  ∃ bytes, s.dir.read s.log.currentSegmentPath = some bytes ∧ s.AcceptedBytes W bytes

/-- A recovery in this state would install the accepted records and nothing else. -/
def RecoveryInstalls (W : Wire F) (s : Writing F) : Prop :=
  ∃ bytes, (s.log.recoverSegment s.dir).2.read s.log.currentSegmentPath = some bytes ∧
    s.AcceptedBytes W bytes

end Writing

/-! ## The steps that keep the copy in step -/

/-- A segment without a torn tail: a header and valid records. -/
def WholeSegment (W : Wire F) (file : Bytes) : Prop :=
  ∃ version first hdr es, ChainedHeader version first hdr ∧ (∀ e ∈ es, Entry.Valid W e) ∧
    file = hdr ++ encodeAll W (records es)

/-- The encoding of the operation can be read back, and its length fits the length field. -/
def Encodable (W : Wire F) (op : Op F) : Prop :=
  ∀ payload, W.toVec op = .ok payload →
    W.fromSlice payload = .ok op ∧ payload.length < 256 ^ 4

/-- The file does not vanish between a check for it and the write, and it loses its last link when
it vanishes. -/
def WriterStep.Undisturbed (W : Wire F) : WriterStep F → Prop
  | .append io op => io.vanish = none ∧ Encodable W op
  | .sync io => io.vanish = none
  | .vanish nlink => nlink = 0
  | _ => True

lemma acceptedFuel_encodeAll (W : Wire F) {version : ℕ} (hv : 2 ≤ version) {es : List (Entry F)}
    (hes : ∀ e ∈ es, e.Valid W) {fuel : ℕ} (hfuel : es.length ≤ fuel) :
    acceptedFuel W version fuel (encodeAll W (records es)) = records es := by
  induction es generalizing fuel with
  | nil =>
    cases fuel with
    | zero => rfl
    | succ fuel => rfl
  | cons e es ih =>
    cases fuel with
    | zero => simp at hfuel
    | succ fuel =>
      have he := hes e List.mem_cons_self
      have hrest := ih (List.forall_mem_cons.mp hes).2
        (by simpa using hfuel : es.length ≤ fuel)
      rw [records_cons, encodeAll_cons, acceptedFuel, readFrame_encode W hv he.payload_lt]
      simp only [Record.toFrame_crc W hv, he.decodeOp_eq, hrest,
        Record.toFrame_seqno W he.seqno_lt]
      rfl

lemma length_le_encodeAll (W : Wire F) (rs : List Record) :
    rs.length ≤ (encodeAll W rs).length := by
  induction rs with
  | nil => simp
  | cons r rs ih =>
    simp only [encodeAll_cons, List.length_append, List.length_cons, Record.length_encode,
      recordOverhead]
    omega

/-- The reader accepts all records of a whole segment. -/
lemma acceptedRecords_whole (W : Wire F) {version first : ℕ} {hdr : Bytes}
    (hhdr : ChainedHeader version first hdr) {es : List (Entry F)} (hes : ∀ e ∈ es, e.Valid W) :
    acceptedRecords W (hdr ++ encodeAll W (records es)) = records es := by
  rw [acceptedRecords, hhdr.readHeader_eq]
  refine acceptedFuel_encodeAll W hhdr.two_le hes ?_
  simpa [records] using length_le_encodeAll W (records es)

/-- The reader leaves a whole segment as it is. -/
lemma replaySegment_whole (W : Wire F) (name : FileName) {file : Bytes}
    (h : WholeSegment W file) (head : ChainHash) :
    (replaySegmentInventoried W name file 0 head).file = file := by
  obtain ⟨version, first, hdr, es, hhdr, hes, rfl⟩ := h
  have hres := replaySegment_encodeAll W name hhdr hes [] head
  rw [List.append_nil, walk_of_length_lt_four W _ _ _ (by simp)] at hres
  rw [hres]
  rfl

/-- A V3 header carries its stamp. -/
lemma segmentVectorSpaceId_headerV3 (n : ℕ) (head : ChainHash) (v : ℕ) (bs : Bytes) :
    segmentVectorSpaceId (headerV3 n head v ++ bs) = some (beNat (beBytes 8 v)) := by
  simp only [segmentVectorSpaceId, headerV3, List.append_assoc]
  rw [readExact_append (n := 8) (a := segmentMagicV3) rfl]
  simp only [ne_eq, not_true_eq_false, if_false]
  rw [← List.append_assoc (beBytes 8 n), readExact_append (by simp [head.2])]
  simp only
  rw [readExact_append (length_beBytes 8 _)]
  rfl

/-- A V2 header has no stamp. -/
lemma segmentVectorSpaceId_headerV2 (n : ℕ) (head : ChainHash) (bs : Bytes) :
    segmentVectorSpaceId (headerV2 n head ++ bs) = none := by
  simp only [segmentVectorSpaceId, headerV2, List.append_assoc]
  rw [readExact_append (n := 8) (a := segmentMagicV2) rfl]
  exact if_pos (by decide)

/-- The stamp stands in the header. -/
lemma ChainedHeader.vectorSpaceId_append {version first : ℕ} {hdr : Bytes}
    (h : ChainedHeader version first hdr) (bs : Bytes) :
    segmentVectorSpaceId (hdr ++ bs) = segmentVectorSpaceId hdr := by
  rw [← List.append_nil hdr, List.append_assoc]
  cases h with
  | v2 => rw [segmentVectorSpaceId_headerV2, segmentVectorSpaceId_headerV2]
  | v3 => rw [segmentVectorSpaceId_headerV3, segmentVectorSpaceId_headerV3]

/-- The log's copy of the accepted bytes is in step: it is a header of the log's lineage and the
accepted records, and the file holds the same or is gone. -/
structure Writing.Invariant (W : Wire F) (s : Writing F) : Prop where
  /-- The copy is a header followed by the accepted records, which are valid. -/
  whole : ∃ version first hdr es, ChainedHeader version first hdr ∧
    (segmentVectorSpaceId hdr).all (· = s.log.vectorSpaceId) ∧ (∀ e ∈ es, Entry.Valid W e) ∧
    s.acked = records es ∧ s.log.acceptedPrefix = hdr ++ encodeAll W (records es)
  /-- The file holds the copy, or it is gone. -/
  file : s.log.Sound s.dir
  seqno_lt : s.log.nextSeqno < 256 ^ 8
  vectorSpaceId_lt : s.log.vectorSpaceId < 256 ^ 8
  suppresses : ∀ op, s.log.suppresses op = false

namespace Writing.Invariant

variable {W : Wire F} {s : Writing F}

lemma acceptedBytes (h : s.Invariant W) : s.AcceptedBytes W s.log.acceptedPrefix := by
  obtain ⟨version, first, hdr, es, hhdr, -, -, hacked, hcopy⟩ := h.whole
  exact ⟨version, first, hdr, hhdr, hacked ▸ hcopy⟩

lemma recoveryInstalls (h : s.Invariant W) : s.RecoveryInstalls W :=
  ⟨_, (OpLog.recoverSegment_spec s.log s.dir).2.1.read, h.acceptedBytes⟩

/-- Replay leaves the open segment alone. -/
lemma replay (h : s.Invariant W) (older : FileName → Bool) :
    (s.step W (.replay older)).1.Invariant W := by
  obtain ⟨version, first, hdr, es, hhdr, hstamp, hes, hacked, hcopy⟩ := h.whole
  obtain ⟨_, _, _, _, hlog⟩ := s.log.exists_afterReplay_eq
    (replayCertified W (s.log.view older) none s.dir)
  have hwhole : WholeSegment W s.log.acceptedPrefix := ⟨version, first, hdr, es, hhdr, hes, hcopy⟩
  have hforeign : isForeign (s.log.view older) s.log.acceptedPrefix = false := by
    rw [hcopy, isForeign, hhdr.vectorSpaceId_append]
    cases hv : segmentVectorSpaceId hdr with
    | none => rfl
    | some v =>
      have heq : v = s.log.vectorSpaceId := by simpa [hv] using hstamp
      simp [OpLog.view, heq]
  simp only [step, OpLog.replay, hlog]
  refine ⟨⟨version, first, hdr, es, hhdr, hstamp, hes, hacked, hcopy⟩, ?_, h.seqno_lt,
    h.vectorSpaceId_lt, h.suppresses⟩
  rcases h.file with hat | hgone
  · exact Or.inl ⟨hat.linked, Merge.loop_read_whole W _ _ hforeign
      (fun head => replaySegment_whole W _ hwhole head) _ hat.read, hat.pos⟩
  · exact Or.inr ⟨hgone.detached, Merge.loop_read_none W _ _ _ hgone.missing⟩

lemma setNextSeqno (h : s.Invariant W) (seqno : UInt64) :
    (s.step W (.setNextSeqno seqno)).1.Invariant W := by
  simp only [step, OpLog.setNextSeqno_eq]
  refine ⟨h.whole, h.file.congr rfl rfl rfl, ?_, h.vectorSpaceId_lt, h.suppresses⟩
  exact max_lt h.seqno_lt (by simpa using seqno.toNat_lt)

lemma vanish (h : s.Invariant W) : (s.step W (.vanish 0)).1.Invariant W := by
  refine ⟨?_, ?_, ?_, ?_, ?_⟩
  all_goals
    unfold step OpLog.vanish
    dsimp only
  · split <;> exact h.whole
  · split
    · exact Or.inr ⟨⟨_, rfl⟩, s.dir.read_remove_self _⟩
    · exact h.file
  · split <;> exact h.seqno_lt
  · split <;> exact h.vectorSpaceId_lt
  · split <;> exact h.suppresses

/-- A sync without a race leaves the accepted records in the file. -/
lemma sync (h : s.Invariant W) {io : Io} (hio : io.vanish = none) :
    (s.step W (.sync io)).1.Invariant W ∧ (s.step W (.sync io)).1.Installed W := by
  obtain ⟨⟨_, _, _, _, hlog⟩, hat, -⟩ := OpLog.sync_spec h.file.holds hio (Or.inr rfl)
  unfold step
  dsimp only
  rw [hlog] at hat ⊢
  refine ⟨⟨h.whole, Or.inl hat, h.seqno_lt, h.vectorSpaceId_lt, h.suppresses⟩, ?_⟩
  exact ⟨_, hat.read, h.acceptedBytes⟩

/-- The log that the next record goes to has a whole copy, too. -/
lemma whole_base (h : s.Invariant W) {dir : SegDir} {base : OpLog F} {baseBytes : Bytes}
    (hbase : s.log.Continues s.dir dir s.log.acceptedPrefix base baseBytes) :
    baseBytes = base.acceptedPrefix ∧ base.nextSeqno = s.log.nextSeqno ∧ base.vectorSpaceId = s.log.vectorSpaceId ∧
      base.suppresses = s.log.suppresses ∧ base.record = s.log.record ∧
      ∃ version first hdr es, ChainedHeader version first hdr ∧
        (segmentVectorSpaceId hdr).all (· = base.vectorSpaceId) ∧ (∀ e ∈ es, Entry.Valid W e) ∧
        (if base.currentSegmentPath = s.log.currentSegmentPath then s.acked else []) = records es ∧
        base.acceptedPrefix = hdr ++ encodeAll W (records es) := by
  rcases hbase with ⟨rfl, rfl, -⟩ | ⟨rfl, rfl, -, hne, -⟩
  · refine ⟨rfl, rfl, rfl, rfl, rfl, ?_⟩
    simpa only [if_true] using h.whole
  · refine ⟨rfl, rfl, rfl, rfl, rfl, 3, s.log.nextSeqno, _, [], .v3 h.seqno_lt s.log.chainHead
      s.log.vectorSpaceId, ?_, by simp, if_neg hne, by simp [OpLog.rotated]⟩
    have hstamp := segmentVectorSpaceId_headerV3 s.log.nextSeqno s.log.chainHead
      s.log.vectorSpaceId []
    rw [List.append_nil, beNat_beBytes h.vectorSpaceId_lt] at hstamp
    simp [hstamp, OpLog.rotated]

/-- An append without a race keeps the copy in step, and the record stands in the file if it
succeeds. -/
lemma append (h : s.Invariant W) {io : Io} (hio : io.vanish = none) {op : Op F}
    (hop : Encodable W op) :
    (s.step W (.append io op)).1.Invariant W ∧
      ((s.step W (.append io op)).2 = true → (s.step W (.append io op)).1.Installed W) := by
  obtain ⟨base, baseBytes, hcont, happ⟩ := OpLog.append_spec W h.file.holds hio (Or.inr rfl)
    (h.suppresses op)
  obtain ⟨rfl, hseqno, hvsid, hsup, hrecord, version, first, hdr, es, hhdr, hstamp, hes, hacked,
    hcopy⟩ := h.whole_base hcont
  unfold step
  dsimp only
  generalize s.log.append W s.dir io op = out at hcont happ
  obtain ⟨⟨log, dir⟩, res⟩ := out
  rcases happ with ⟨⟨e, hres⟩, ⟨_, _, _, _, hlog⟩, hat, -⟩ |
    ⟨payload, hvec, hres, ⟨_, _, _, _, hlog⟩, hat⟩
  · dsimp only at hres hlog hat
    subst hres hlog
    refine ⟨⟨⟨version, first, hdr, es, hhdr, hstamp, hes, hacked, hcopy⟩, Or.inl hat, ?_, ?_, ?_⟩,
      fun hfalse => by cases hfalse⟩
    · exact hseqno ▸ h.seqno_lt
    · exact hvsid ▸ h.vectorSpaceId_lt
    · exact hsup ▸ h.suppresses
  · dsimp only at hres hlog hat
    subst hres
    rw [hrecord] at hlog hat
    have hpath : log.currentSegmentPath = base.currentSegmentPath := by rw [hlog]; rfl
    have hcopy' : log.acceptedPrefix = base.acceptedPrefix ++
        (s.log.record op payload).encode W := by rw [hlog]; rfl
    have hacked' : (if log.currentSegmentPath = s.log.currentSegmentPath then s.acked else []) ++
        [s.log.record op payload] = records (es ++ [⟨s.log.record op payload, op⟩]) := by
      rw [hpath, hacked]
      simp
    have hvalid : ∀ e ∈ es ++ [⟨s.log.record op payload, op⟩], Entry.Valid W e :=
      List.forall_mem_append.mpr ⟨hes, List.forall_mem_singleton.mpr
        ⟨(hop payload hvec).2, h.seqno_lt, (hop payload hvec).1, rfl⟩⟩
    simp only [hvec, h.suppresses op, Bool.false_eq_true, if_false, hacked']
    have hinv : Invariant W (⟨log, dir, records (es ++ [⟨s.log.record op payload, op⟩])⟩ :
        Writing F) := by
      refine ⟨⟨version, first, hdr, _, hhdr, ?_, hvalid, rfl, ?_⟩, Or.inl ?_, ?_, ?_, ?_⟩
      · rw [hlog]
        exact hstamp
      · simp [hcopy', hcopy]
      · exact hcopy'.symm ▸ hat
      · rw [hlog]
        exact Nat.mod_lt _ (by decide)
      · rw [hlog]
        exact hvsid ▸ h.vectorSpaceId_lt
      · rw [hlog]
        exact hsup ▸ h.suppresses
    exact ⟨hinv, fun _ => ⟨_, hat.read, hcopy' ▸ hinv.acceptedBytes⟩⟩

/-- Every undisturbed step keeps the invariant. -/
lemma step_undisturbed (h : s.Invariant W) {st : WriterStep F} (hst : st.Undisturbed W) :
    (s.step W st).1.Invariant W ∧ ((s.step W st).2 = true → (s.step W st).1.Installed W) := by
  cases st with
  | replay older => exact ⟨h.replay older, fun hfalse => by cases hfalse⟩
  | setNextSeqno seqno => exact ⟨h.setNextSeqno seqno, fun hfalse => by cases hfalse⟩
  | append io op => exact h.append hst.1 hst.2
  | sync io => exact ⟨(h.sync hst).1, fun _ => (h.sync hst).2⟩
  | vanish nlink =>
    cases (hst : nlink = 0)
    exact ⟨h.vanish, fun hfalse => by cases hfalse⟩

/-- Every undisturbed run keeps the invariant. -/
lemma run_undisturbed (h : s.Invariant W) {steps : List (WriterStep F)}
    (hsteps : ∀ st ∈ steps, st.Undisturbed W) : (s.run W steps).Invariant W :=
  List.foldlRecOn (motive := Invariant W) steps _ h
    fun _ h st hst => (h.step_undisturbed (hsteps st hst)).1

end Writing.Invariant

/-- A log that opens on a whole segment, or on a new one, starts in step. -/
lemma OpLog.open_invariant (W : Wire F) (vectorSpaceId nextSeqno : UInt64) {dir dir' : SegDir}
    {inst : InstanceId} {log : OpLog F}
    (hopen : OpLog.open vectorSpaceId.toNat dir inst nextSeqno.toNat = .ok (log, dir'))
    (hwhole : ∀ name file, segmentToContinue vectorSpaceId.toNat inst dir = some (name, file) →
      WholeSegment W file) :
    (Writing.opened W log dir').Invariant W := by
  have hseqno : nextSeqno.toNat < 256 ^ 8 := by simpa using nextSeqno.toNat_lt
  have hvsid : vectorSpaceId.toNat < 256 ^ 8 := by simpa using vectorSpaceId.toNat_lt
  unfold OpLog.open OpLog.openWithChain at hopen
  split at hopen
  · rename_i name file hcont
    cases hopen
    obtain ⟨version, first, hdr, es, hhdr, hes, rfl⟩ := hwhole name _ hcont
    simp only [segmentToContinue, Option.bind_eq_some_iff] at hcont
    obtain ⟨name', -, file', hread, hif⟩ := hcont
    split at hif
    · rename_i hcond
      cases hif
      refine ⟨⟨version, first, hdr, es, hhdr, ?_, hes, ?_, rfl⟩, Or.inl ⟨rfl, hread, Or.inl rfl⟩,
        hseqno, hvsid, fun _ => rfl⟩
      · rw [← hhdr.vectorSpaceId_append]
        exact hcond.2.2
      · exact acceptedRecords_whole W hhdr hes
    · cases hif
  · unfold createSegmentV3 at hopen
    dsimp only at hopen
    split at hopen
    · cases hopen
    · cases hopen
      have hhdr : ChainedHeader 3 nextSeqno.toNat
          (headerV3 nextSeqno.toNat zeroHash vectorSpaceId.toNat) := .v3 hseqno _ _
      have hstamp := segmentVectorSpaceId_headerV3 nextSeqno.toNat zeroHash vectorSpaceId.toNat []
      rw [List.append_nil, beNat_beBytes hvsid] at hstamp
      have haccepted := acceptedRecords_whole W hhdr
        (by simp : ∀ e ∈ ([] : List (Entry F)), e.Valid W)
      rw [records_nil, encodeAll_nil, List.append_nil] at haccepted
      refine ⟨⟨3, _, _, [], hhdr, by simp [hstamp, OpLog.fresh, Writing.opened], by simp,
        haccepted, by simp [OpLog.fresh, Writing.opened]⟩,
        Or.inl ⟨rfl, dir.read_write_self _ _, Or.inr rfl⟩, hseqno, hvsid, fun _ => rfl⟩

/-- A directory with one segment: a header, a record, and the first `k` bytes of another. -/
def tornDir (k : ℕ) : SegDir :=
  SegDir.empty.write (segmentPath 1 1) (headerV3 1 zeroHash 0 ++
    (sampleFirst.record.encode (Reference.wire ℚ) ++
      (sampleSecond.record.encode (Reference.wire ℚ)).take k))

/-- The log of the segment, opened for appending. -/
def tornLog (k : ℕ) : OpLog ℚ :=
  .fresh 0 1 (segmentPath 1 1) none (((tornDir k).read (segmentPath 1 1)).getD []) 1 zeroHash

/-- Replay the segment, let its file vanish, and append. -/
def tornRun : List (WriterStep ℚ) := [.replay fun _ => false, .setNextSeqno 2, .vanish 0]

/-- The append at the end of the run. -/
def tornAppend : WriterStep ℚ := .append Io.clean (.deleteMemory ⟨9, 5⟩)

lemma open_tornDir {k : ℕ} (hcont : segmentToContinue 0 1 (tornDir k) =
    some (segmentPath 1 1, ((tornDir k).read (segmentPath 1 1)).getD [])) :
    OpLog.open 0 (tornDir k) 1 1 = .ok (tornLog k, tornDir k) := by
  simp only [OpLog.open, OpLog.openWithChain, hcont]
  rfl

/-- A file whose size is not that of a header and the accepted records holds something else. -/
lemma Writing.not_installed_of_length {W : Wire F} {s : Writing F} {n : ℕ}
    (hread : (s.dir.read s.log.currentSegmentPath).map List.length = some n)
    (hV2 : n ≠ 48 + (encodeAll W s.acked).length)
    (hV3 : n ≠ v3HeaderSize + (encodeAll W s.acked).length) : ¬ s.Installed W := by
  rintro ⟨bytes, hbytes, version, first, hdr, hhdr, rfl⟩
  rw [hbytes, Option.map_some, Option.some.injEq, List.length_append] at hread
  rcases hhdr.length_eq with h | h
  · exact hV2 (by omega)
  · exact hV3 (by omega)

end ChittaField
