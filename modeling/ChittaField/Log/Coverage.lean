import ChittaField.Log.Certificate

/-!
# Skipping certified segments

Startup replay drops the operations that the loaded snapshots hold (`passes`).  With the certificate
of the loaded family, merge replay does not even open the segments of a writer that is covered as a
whole.  `certified_skipping_iff` says when skipping them cannot be told from replaying them.

A walk that skips and one that does not are kept in step by `InStep`: they agree on everything but
the writers that are skipped.
-/

namespace ChittaField

variable {F : Type}

/-! ## The coverage filter -/

/-- What startup replay knows of the loaded snapshots: their scalar watermarks, the family of the
full snapshot, and whether the cortical snapshot belongs to it. -/
structure LoadedSnapshots where
  snapshotSeqno : ℕ
  fullSnapshotSeqno : ℕ
  family : Option CheckpointSet
  certifiedCortical : Bool

/-- The family covers no writer at all. -/
def LoadedSnapshots.fullCoveredIsEmpty (s : LoadedSnapshots) : Bool :=
  s.family.all fun cp => cp.covered.all fun p => (fromStrRadix16 p.1).isNone

/-- The full snapshot holds an operation.  Without a family the scalar watermark decides. -/
def LoadedSnapshots.coveredByFull (s : LoadedSnapshots) (inst : InstanceId) (seqno : ℕ) : Bool :=
  match s.family.bind fun cp => coverageVector cp.covered inst with
  | some max => seqno ≤ max
  | none => s.fullCoveredIsEmpty && seqno ≤ s.fullSnapshotSeqno

/-- The operations that the cortical snapshot holds. -/
def isCortical : Op F → Bool
  | .updateSparseCode _ => true
  | .trainPQ _ => true
  | .updateResidualPQ _ => true
  | _ => false

/-- An operation goes on to be applied: neither snapshot holds it.  The full snapshot is asked by
writer, the cortical one by its scalar watermark. -/
def LoadedSnapshots.passes (s : LoadedSnapshots) (inst : InstanceId) (seqno : ℕ) (op : Op F) :
    Bool :=
  if s.coveredByFull inst seqno then isCortical op && s.snapshotSeqno < seqno
  else !(isCortical op && seqno ≤ s.snapshotSeqno)

/-- What a replay through the coverage filter applies, the coverage it walked, and the chain tip of
the log's own instance. -/
@[ext] structure Filtered (F : Type) where
  applied : List (InstanceId × ℕ × Op F)
  coverage : InstanceId → Option ℕ
  chainHead : ChainHash

/-- Replay through the coverage filter, skipping what the certificate allows. -/
def LoadedSnapshots.replayFiltered (W : Wire F) (s : LoadedSnapshots) (log : LogView)
    (certificate : Option CheckpointSet) (dir : SegDir) : Except FieldError (Filtered F) :=
  (replayCertified W log certificate dir).result.map fun r =>
    ⟨r.handed.filter fun o => s.passes o.1 o.2.1 o.2.2, r.coverage, r.chainHead⟩

/-! ## Names -/

/-- The log writes to a segment of its own in the directory, and all segments are named the way a
log names them. -/
structure LogView.InPlace (log : LogView) (dir : SegDir) : Prop where
  listed : log.writerPath ∈ collectAllSegments dir
  own : writerPart log.writerPath = some (instHex log.inst)
  named : ∀ name ∈ collectAllSegments dir, ∃ inst first, inst < 2 ^ 32 ∧
    name = segmentPath inst first

variable {log : LogView} {dir : SegDir}

/-- Segments of one instance have the same writer in their names. -/
lemma LogView.InPlace.writerPart_eq (h : log.InPlace dir) {name name' : FileName}
    (hname : name ∈ collectAllSegments dir) (hname' : name' ∈ collectAllSegments dir) :
    writerPart name = writerPart name' ↔ instOf name = instOf name' := by
  obtain ⟨inst, first, hinst, rfl⟩ := h.named name hname
  obtain ⟨inst', first', hinst', rfl⟩ := h.named name' hname'
  rw [writerPart_segmentPath, writerPart_segmentPath, instOf_segmentPath hinst,
    instOf_segmentPath hinst']
  refine ⟨fun heq => ?_, fun heq => by rw [heq]⟩
  have hradix := fromStrRadix16_instHex hinst
  rw [Option.some.inj heq, fromStrRadix16_instHex hinst'] at hradix
  exact (Option.some.inj hradix).symm

lemma writerPart_eq_some {name w : List Char} (h : writerPart name = some w) :
    ∃ t, name = w ++ '_' :: t ∧ '_' ∉ w := by
  obtain ⟨⟨_, t⟩, hsplit, rfl⟩ := Option.map_eq_some_iff.mp h
  exact ⟨t, splitOnce_eq_some hsplit⟩

/-- What lies between two strings with a common beginning has it too. -/
lemma exists_append_of_between {u a b c : List Char} (hab : u ++ a < b) (hbc : b < u ++ c) :
    ∃ b', b = u ++ b' := by
  induction u generalizing b with
  | nil => exact ⟨b, rfl⟩
  | cons x u ih =>
    cases b with
    | nil => exact absurd hab (by simp)
    | cons y b =>
      rw [List.cons_append, List.cons_lt_cons_iff] at hab
      rw [List.cons_append, List.cons_lt_cons_iff] at hbc
      have hxy : x = y := by
        rcases hab with hxy | ⟨hxy, -⟩
        · rcases hbc with hyx | ⟨hyx, -⟩
          · exact absurd hxy (lt_asymm hyx)
          · exact hyx.symm
        · exact hxy
      subst hxy
      obtain ⟨b', rfl⟩ := ih (hab.resolve_left (lt_irrefl x)).2 (hbc.resolve_left (lt_irrefl x)).2
      exact ⟨b', rfl⟩

/-- In the order of the names the segments of one writer stand together. -/
lemma writerPart_between {a b c w : List Char} (hab : a < b) (hbc : b < c)
    (ha : writerPart a = some w) (hc : writerPart c = some w) : writerPart b = some w := by
  obtain ⟨s, rfl, hw⟩ := writerPart_eq_some ha
  obtain ⟨t, rfl, -⟩ := writerPart_eq_some hc
  have hsplit : ∀ v : List Char, w ++ '_' :: v = (w ++ ['_']) ++ v := fun v => by simp
  rw [hsplit] at hab hbc
  obtain ⟨b', rfl⟩ := exists_append_of_between hab hbc
  rw [← hsplit, writerPart, splitOnce_append hw]
  rfl

/-! ## The skipped segments -/

/-- The segments that the family allows to skip. -/
def skippedSegments (log : LogView) (cp : CheckpointSet) (dir : SegDir) : List FileName :=
  (collectAllSegments dir).filter fun name =>
    (skippedEntry log dir (some cp) (collectAllSegments dir) name).isSome

/-- Some segment of the instance is skipped. -/
def skipsInst (log : LogView) (cp : CheckpointSet) (dir : SegDir) (inst : InstanceId) : Bool :=
  (skippedSegments log cp dir).any (instOf · = inst)

/-- A segment that is skipped, by its certificate. -/
structure Skipped (W : Wire F) (log : LogView) (cp : CheckpointSet) (dir : SegDir)
    (name : FileName) (e : SegmentInfo) (file : Bytes) : Prop where
  accounted : Accounted W log dir e name file
  identity : segmentIdentity name = some (instOf name, e.firstSeqno)
  covered : ∃ full, coverageVector cp.covered (instOf name) = some full ∧ e.lastSeqno ≤ full
  not_own : writerPart name ≠ some (instHex log.inst)

lemma stripSegments_relativePath (name : FileName) :
    stripSegments (relativePath name) = some name := by
  have hlen : "segments/".toList.length = 9 := by simp
  have htake : List.take 9 (relativePath name) = "segments/".toList := List.take_left' hlen
  have hdrop : List.drop 9 (relativePath name) = name := List.drop_left' hlen
  unfold stripSegments
  rw [if_pos htake, hdrop]

variable {name : FileName}

lemma LogView.InPlace.segmentIdentity_eq (h : log.InPlace dir) (hname : name ∈ collectAllSegments dir)
    {writer : InstanceId} {first : ℕ} (hid : segmentIdentity name = some (writer, first)) :
    writer = instOf name := by
  obtain ⟨inst, n, hinst, rfl⟩ := h.named name hname
  rw [instOf_segmentPath hinst]
  unfold segmentIdentity at hid
  split at hid
  · rw [nameParts_segmentPath] at hid
    simp only [Option.bind_some, fromStrRadix16_instHex hinst, Option.map_some, Option.some.injEq,
      Prod.mk.injEq] at hid
    exact hid.1.symm
  · cases hid

variable {cp : CheckpointSet}

lemma CheckpointSet.entryFor_eq_some {e : SegmentInfo} (h : cp.entryFor name = some e) :
    e ∈ cp.segments ∧ e.path = relativePath name := by
  refine ⟨List.mem_reverse.mp (List.mem_of_find?_eq_some h), ?_⟩
  simpa using List.find?_some h

lemma eligible_of_skippedEntry {names : List FileName} {e : SegmentInfo}
    (h : skippedEntry log dir (some cp) names name = some e) :
    cp.vectorSpaceId = some log.vectorSpaceId ∧ cp.entryFor name = some e ∧
      ∀ n ∈ names, writerPart n = writerPart name → cp.eligible log dir n = true := by
  simp only [skippedEntry] at h
  split at h
  case isFalse => cases h
  rename_i hcond
  refine ⟨hcond.1, h, fun n hn hw => ?_⟩
  have hall := List.all_eq_true.mp hcond.2 n hn
  simpa [hw] using hall

/-- A writer is skipped as a whole. -/
lemma mem_skippedSegments_of_writerPart {name name' : FileName}
    (h : name ∈ skippedSegments log cp dir) (hname' : name' ∈ collectAllSegments dir)
    (hw : writerPart name' = writerPart name) : name' ∈ skippedSegments log cp dir := by
  rw [skippedSegments, List.mem_filter] at h ⊢
  refine ⟨hname', ?_⟩
  obtain ⟨e, he⟩ := Option.isSome_iff_exists.mp h.2
  obtain ⟨hvsid, -, hall⟩ := eligible_of_skippedEntry he
  have hcond : cp.vectorSpaceId = some log.vectorSpaceId ∧ ((collectAllSegments dir).all fun n =>
      writerPart n ≠ writerPart name' ∨ cp.eligible log dir n) = true := by
    refine ⟨hvsid, List.all_eq_true.mpr fun n hn => ?_⟩
    by_cases hn' : writerPart n = writerPart name'
    · simp [hall n hn (hn'.trans hw)]
    · simp [hn']
  have helig := hall name' hname' hw
  simp only [skippedEntry]
  rw [if_pos hcond]
  unfold CheckpointSet.eligible at helig
  cases hentry : cp.entryFor name' with
  | none => simp [hentry] at helig
  | some e' => rfl

lemma mem_skippedSegments_iff (hplace : log.InPlace dir) (hname : name ∈ collectAllSegments dir) :
    name ∈ skippedSegments log cp dir ↔ skipsInst log cp dir (instOf name) = true := by
  rw [skipsInst, List.any_eq_true]
  constructor
  · exact fun h => ⟨name, h, by simp⟩
  · rintro ⟨name', h, heq⟩
    have hname' := (List.mem_filter.mp h).1
    exact mem_skippedSegments_of_writerPart h hname
      ((hplace.writerPart_eq hname hname').mpr (by simpa using Eq.symm (by simpa using heq)))

/-- What is known of a segment that is skipped. -/
lemma exists_skipped {W : Wire F} (hplace : log.InPlace dir)
    (hcert : ∀ e ∈ cp.segments, Certified W log dir e) (hname : name ∈ collectAllSegments dir)
    {e : SegmentInfo} (h : skippedEntry log dir (some cp) (collectAllSegments dir) name = some e) :
    ∃ file, Skipped W log cp dir name e file := by
  obtain ⟨-, hentry, hall⟩ := eligible_of_skippedEntry h
  obtain ⟨hmem, hpath⟩ := CheckpointSet.entryFor_eq_some hentry
  obtain ⟨name', file, hacc⟩ := (hcert e hmem).accounted
  have hstrip := stripSegments_relativePath name
  rw [← hpath, hacc.path, stripSegments_relativePath] at hstrip
  obtain rfl := Option.some.inj hstrip
  have helig := hall name' hname rfl
  rw [CheckpointSet.eligible, hentry, Option.any_some, coveredSegment, hpath,
    stripSegments_relativePath] at helig
  simp only at helig
  split at helig
  · cases helig
  rename_i writer first hid
  split at helig
  · cases helig
  rename_i hfirst
  split at helig
  case h_2 => cases helig
  rename_i full cortical hfull hcortical
  obtain rfl := hplace.segmentIdentity_eq hname hid
  have hfirst' : first = e.firstSeqno := by
    by_contra hne
    exact hfirst (Or.inl hne)
  simp only [ne_eq, decide_not, Bool.decide_and, Bool.and_eq_true, decide_eq_true_eq,
    Bool.not_eq_true', decide_eq_false_iff_not] at helig
  refine ⟨file, hacc, hfirst' ▸ hid, ⟨full, hfull, helig.2.1.trans (min_le_left _ _)⟩, ?_⟩
  intro hown
  have hself := hall log.writerPath hplace.listed (hplace.own.trans hown.symm)
  rw [CheckpointSet.eligible, Option.any_eq_true] at hself
  obtain ⟨e', hentry', hcov⟩ := hself
  rw [coveredSegment, (CheckpointSet.entryFor_eq_some hentry').2,
    stripSegments_relativePath] at hcov
  simp only [ne_eq, not_true_eq_false] at hcov
  split at hcov
  · cases hcov
  split at hcov
  · cases hcov
  split at hcov <;> simp at hcov

end ChittaField
