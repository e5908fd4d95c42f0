import ChittaField.Log.Follow

/-!
# Certificates of sealed segments

A certificate says what a segment file holds: its first and its last sequence number, and its size.
It is made by a scan of the file, or by the replay that decoded it to the end.  Either way the file
is a header and complete records in increasing order, and the certificate tells the last of them
(`Certified.accounted`).
-/

namespace ChittaField

variable {F : Type}

/-! ## The scan -/

/-- The sequence numbers increase behind `last`, or from `first` on if there is no last one. -/
def scanValid (first : ℕ) : Option ℕ → List ℕ → Bool
  | _, [] => true
  | last, seqno :: seqnos =>
    (match last with
      | some last => last < seqno
      | none => first ≤ seqno) && scanValid first (some seqno) seqnos

/-- Scan a segment that its writer is done with.  A torn record, another lineage and an unknown
header are refused. -/
def scanSealedSegment (W : Wire F) (dir : SegDir) (name writerPath : FileName)
    (vectorSpaceId : ℕ) : Option SegmentInfo :=
  if name = writerPath then none
  else
    match segmentIdentity name, dir.read name with
    | some (_, firstSeqno), some file =>
      match readExact 8 file with
      | none => none
      | some (header, _) =>
        if header ≠ segmentMagic ∧ header ≠ segmentMagicV2 ∧ header ≠ segmentMagicV3 then none
        else if header = segmentMagicV3 ∧ segmentVectorSpaceId file ≠ some vectorSpaceId then none
        else
          match replayFromOffset W name file 0 with
          | .error _ => none
          | .ok (endOffset, rs) =>
            if scanValid firstSeqno none (rs.map Prod.fst) ∧ endOffset = file.length then
              ((rs.map Prod.fst).getLast?.or
                (if firstSeqno = 0 then none else some (firstSeqno - 1))).map fun lastSeqno =>
                  ⟨relativePath name, firstSeqno, lastSeqno, endOffset⟩
            else none
    | _, _ => none

lemma scanValid_pairwise {first : ℕ} {last : Option ℕ} {ns : List ℕ}
    (h : scanValid first last ns = true) : (last.toList ++ ns).Pairwise (· < ·) := by
  induction ns generalizing last with
  | nil => cases last <;> simp
  | cons n ns ih =>
    unfold scanValid at h
    rw [Bool.and_eq_true] at h
    have hn : (n :: ns).Pairwise (· < ·) := ih h.2
    cases last with
    | none => exact hn
    | some l =>
      have hl : l < n := by simpa using h.1
      exact List.pairwise_cons.mpr ⟨List.forall_mem_cons.mpr
        ⟨hl, fun m hm => hl.trans ((List.pairwise_cons.mp hn).1 m hm)⟩, hn⟩

/-! ## What a certificate says -/

/-- The certificate was made from the segment as it is: by a scan for this lineage, or by a replay
that found it in this lineage. -/
inductive Certified (W : Wire F) (log : LogView) (dir : SegDir) (e : SegmentInfo) : Prop
  | scanned {name writerPath : FileName}
    (h : scanSealedSegment W dir name writerPath log.vectorSpaceId = some e)
  | replayed {name : FileName} {file : Bytes} {head next : ChainHash}
    (hfile : dir.read name = some file) (hown : isForeign log file = false)
    (h : (replaySegmentInventoried W name file 0 head).result = .ok (next, some e))

/-- The records of a segment file. -/
def segmentFrames (W : Wire F) (file : Bytes) : List (Frame × Op F) :=
  match readHeader file with
  | .header version _ rest => (follow W version rest).2
  | _ => []

/-- The certificate accounts for the segment: the file is a header and records in increasing order,
of which the certificate tells the last. -/
structure Accounted (W : Wire F) (log : LogView) (dir : SegDir) (e : SegmentInfo)
    (name : FileName) (file : Bytes) : Prop where
  path : e.path = relativePath name
  read : dir.read name = some file
  own : isForeign log file = false
  frames : ∃ version first rest, readHeader file = .header version first rest ∧
    Frames W version rest (segmentFrames W file)
  increasing : (seqnos (segmentFrames W file)).Pairwise (· < ·)
  last : e.lastSeqno = (seqnos (segmentFrames W file)).getLast?.getD (e.firstSeqno - 1)

lemma segmentFrames_eq {W : Wire F} {file rest : Bytes} {version first : ℕ}
    (h : readHeader file = .header version first rest) {fs : List (Frame × Op F)}
    (hfs : Frames W version rest fs) : segmentFrames W file = fs := by
  rw [segmentFrames, h]
  simp only [hfs.follow_eq]

lemma readExact_drop {file : Bytes} {n : ℕ} (h : n + 8 ≤ file.length) :
    readExact 8 (file.drop n) = some ((file.drop n).take 8, file.drop (n + 8)) := by
  rw [readExact, if_pos (by rw [List.length_drop]; omega), List.drop_drop]

lemma exists_readHash_drop {file : Bytes} {n : ℕ} (h : n + 32 ≤ file.length) :
    ∃ k, readHash (file.drop n) = some (k, file.drop (n + 32)) := by
  rw [readHash, dif_pos (by rw [List.length_drop]; omega), List.drop_drop]
  exact ⟨_, rfl⟩

/-- A file that is long enough has a header. -/
lemma exists_readHeader {file magic bs : Bytes} {version : ℕ}
    (hmagic : readExact 8 file = some (magic, bs)) (hversion : segmentVersion magic = some version)
    (hlen : headerSize version ≤ file.length) :
    ∃ first, readHeader file = .header version first (file.drop (headerSize version)) := by
  have hbs : bs = file.drop 8 := by
    unfold readExact at hmagic
    split at hmagic
    · cases hmagic
      rfl
    · cases hmagic
  refine ⟨beNat (bs.take 8), ?_⟩
  subst hbs
  have hcases : version = 1 ∨ version = 2 ∨ version = 3 := by
    unfold segmentVersion at hversion
    split_ifs at hversion <;> simp_all
  have h8 : 16 ≤ file.length → readExact 8 (file.drop 8) = some ((file.drop 8).take 8, file.drop 16) :=
    fun h => readExact_drop h
  have hhash : 48 ≤ file.length → ∃ k, readHash (file.drop 16) = some (k, file.drop 48) :=
    fun h => exists_readHash_drop h
  rcases hcases with rfl | rfl | rfl
  · have h16 : 16 ≤ file.length := hlen
    simp [readHeader, hmagic, hversion, h8 h16, headerSize]
  · have h48 : 48 ≤ file.length := hlen
    obtain ⟨k, hk⟩ := hhash h48
    simp [readHeader, hmagic, hversion, h8 (by omega), hk, headerSize]
  · have h56 : 56 ≤ file.length := hlen
    have hvsid : readExact 8 (file.drop 48) = some ((file.drop 48).take 8, file.drop 56) :=
      readExact_drop h56
    obtain ⟨k, hk⟩ := hhash (by omega)
    simp [readHeader, hmagic, hversion, h8 (by omega), hk, hvsid, headerSize, v3HeaderSize]

lemma readHeader_rest_le {file rest : Bytes} {version first : ℕ}
    (h : readHeader file = .header version first rest) : rest.length ≤ file.length := by
  unfold readHeader at h
  split at h
  · cases h
  rename_i h₁
  have := readExact_rest_le h₁
  split at h
  · cases h
  split at h
  · cases h
  rename_i h₂
  have := readExact_rest_le h₂
  split at h
  · split at h
    · cases h
    rename_i h₃
    have := readHash_rest_le h₃
    split at h
    · split at h
      · cases h
      rename_i h₄
      have := readExact_rest_le h₄
      cases h
      omega
    · cases h
      omega
  · cases h
    omega

lemma Certified.of_scan {W : Wire F} {log : LogView} {dir : SegDir} {e : SegmentInfo}
    {name writerPath : FileName}
    (h : scanSealedSegment W dir name writerPath log.vectorSpaceId = some e) :
    ∃ file, Accounted W log dir e name file ∧ e.sizeBytes = file.length := by
  unfold scanSealedSegment at h
  split at h
  · cases h
  split at h
  case h_2 => cases h
  rename_i firstSeqno file hidentity hread
  split at h
  · cases h
  rename_i header bs hmagic
  split at h
  · cases h
  split at h
  · cases h
  rename_i hknown hlineage
  split at h
  · cases h
  rename_i endOffset rs hreplay
  split at h
  case isFalse => cases h
  rename_i hvalid
  obtain ⟨hvalid, rfl⟩ := hvalid
  obtain ⟨lastSeqno, hlast, rfl⟩ := Option.map_eq_some_iff.mp h
  -- the reader took the header and all records
  simp only [replayFromOffset, hmagic, if_true] at hreplay
  split at hreplay
  · cases hreplay
  rename_i version hversion
  simp only [Except.ok.injEq, Prod.mk.injEq] at hreplay
  obtain ⟨hend, rfl⟩ := hreplay
  obtain ⟨hle, hall⟩ := follow_le W version (file.drop (headerSize version))
  rw [List.length_drop] at hle hall
  have hsize : headerSize version ≤ file.length := by omega
  obtain ⟨first, hheader⟩ := exists_readHeader hmagic hversion hsize
  have hframes := hall (by omega)
  have heq := segmentFrames_eq hheader hframes
  have hseqnos : ((follow W version (file.drop (headerSize version))).2.map recordOf).map Prod.fst =
      seqnos (segmentFrames W file) := by
    rw [heq, List.map_map]
    rfl
  rw [hseqnos] at hvalid hlast
  refine ⟨file, ⟨rfl, hread, ?_, ⟨version, first, _, hheader, heq ▸ hframes⟩,
    scanValid_pairwise hvalid, ?_⟩, rfl⟩
  · by_cases hv3 : header = segmentMagicV3
    · have hvsid : segmentVectorSpaceId file = some log.vectorSpaceId := by
        by_contra hne
        exact hlineage ⟨hv3, hne⟩
      simp [isForeign, hvsid]
    · simp [isForeign, segmentVectorSpaceId, hmagic, hv3]
  · cases hl : (seqnos (segmentFrames W file)).getLast? with
    | some l =>
      rw [hl] at hlast
      exact (Option.some.inj hlast).symm
    | none =>
      rw [hl, Option.none_or] at hlast
      split at hlast
      · cases hlast
      · exact (Option.some.inj hlast).symm

lemma Certified.of_replay {W : Wire F} {log : LogView} {dir : SegDir} {e : SegmentInfo}
    {name : FileName} {file : Bytes} {head next : ChainHash} (hfile : dir.read name = some file)
    (hown : isForeign log file = false)
    (h : (replaySegmentInventoried W name file 0 head).result = .ok (next, some e)) :
    Accounted W log dir e name file ∧ e.sizeBytes = file.length := by
  unfold replaySegmentInventoried at h
  split at h
  · cases h
  · cases h
  rename_i version first rest hheader
  have hrest := readHeader_rest_le hheader
  cases hwalk : walk W version 0 file.length rest
      (.start head (file.length - rest.length)) with
  | mk st' wend =>
    rw [hwalk] at h
    cases wend with
    | torn k => cases h
    | failed err => cases h
    | complete =>
      simp only [SegmentReplay.ofWalk, Except.ok.injEq, Prod.mk.injEq] at h
      obtain ⟨-, hcert⟩ := h
      unfold Walk.certificate at hcert
      split at hcert
      case isFalse => cases hcert
      rename_i hcond
      obtain ⟨-, hordered, -, hend⟩ := hcond
      obtain ⟨lastSeqno, hlast, rfl⟩ := Option.map_eq_some_iff.mp hcert
      obtain ⟨fs, hfs, -, hinc, hlast'⟩ := frames_of_walk W hwalk hrest
        (by simp only [Walk.start]; omega) hend
      have heq := segmentFrames_eq hheader hfs
      have hinc' := (hinc hordered).2
      simp only [Walk.start, Option.toList_none, List.nil_append] at hinc' hlast'
      refine ⟨⟨rfl, hfile, hown, ⟨version, first, rest, hheader, heq ▸ hfs⟩, heq ▸ hinc', ?_⟩, rfl⟩
      rw [heq, ← hlast']
      cases hl : st'.last with
      | some l =>
        rw [hl] at hlast
        exact (Option.some.inj hlast).symm
      | none =>
        rw [hl, Option.none_or] at hlast
        split at hlast
        · cases hlast
        · exact (Option.some.inj hlast).symm

/-- A certificate accounts for its segment. -/
lemma Certified.accounted {W : Wire F} {log : LogView} {dir : SegDir} {e : SegmentInfo}
    (h : Certified W log dir e) : ∃ name file, Accounted W log dir e name file := by
  cases h with
  | scanned h => exact ⟨_, (Certified.of_scan h).imp fun _ => And.left⟩
  | replayed hfile hown h => exact ⟨_, _, (Certified.of_replay hfile hown h).1⟩

end ChittaField
