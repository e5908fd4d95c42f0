import ChittaField.Log.Follow
import ChittaField.Log.Layout

/-!
# Appending behind a repaired segment

A crash can cut the open segment anywhere.  The log is then opened again on the same segment,
replay repairs it, and new records are appended behind what is left.
`reopen_delivers_iff` says when the next replay delivers the records that were complete before the
cut, followed by the new ones.

The repair removes the beginning of a record only if it holds a complete length field.  One to three
bytes stay in the file, and the new records land behind them, where the reader no longer finds them.
-/

namespace ChittaField

variable {F : Type}

/-! ## Reopening -/

/-- The next sequence number after a replay. -/
def Replayed.nextSeqno (r : Replayed F) : ℕ := (r.handed.map (·.2.1)).foldl max 0 + 1

/-- Open the log, replay it, and append new operations. -/
def reopenAppend (W : Wire F) (vectorSpaceId : ℕ) (inst : InstanceId) (nextSeqno : ℕ)
    (older : FileName → Bool) (dir : SegDir) (ops : List (Op F)) :
    Except FieldError (OpLog F × SegDir) := do
  let (log, dir) ← OpLog.open vectorSpaceId dir inst nextSeqno
  let (log, outcome) := log.replay W dir older
  let r ← outcome.result
  (log.setNextSeqno r.nextSeqno).appendAll W ops outcome.dir

/-- Open the log, replay it, append new operations, and replay again. -/
def reopenAppendReplay (W : Wire F) (vectorSpaceId : ℕ) (inst : InstanceId) (nextSeqno : ℕ)
    (older : FileName → Bool) (dir : SegDir) (ops : List (Op F)) :
    Except FieldError (List (InstanceId × ℕ × Op F)) := do
  let (log, dir) ← reopenAppend W vectorSpaceId inst nextSeqno older dir ops
  let r ← (log.replay W dir older).2.result
  return r.handed

/-- A segment that the log of one instance appended records to, cut off at some byte behind its
header. -/
structure CutSegment (W : Wire F) where
  vectorSpaceId : UInt64
  inst : InstanceId
  inst_lt : inst < 2 ^ 32
  firstSeqno : ℕ
  firstSeqno_lt : firstSeqno < 10 ^ 12
  head : ChainHash
  entries : List (Entry F)
  valid : ∀ e ∈ entries, e.Valid W
  seqnos : (entries.map (·.record.seqno)).Pairwise (· < ·)
  cut : ℕ
  header_le : v3HeaderSize ≤ cut

variable {nextSeqno : ℕ}

namespace CutSegment

variable {W : Wire F} (c : CutSegment W)

/-- The name of the segment. -/
def name : FileName := segmentPath c.inst c.firstSeqno

/-- The header of the segment. -/
def header : Bytes := headerV3 c.firstSeqno c.head c.vectorSpaceId.toNat

/-- The bytes that the cut leaves. -/
def file : Bytes := (c.header ++ encodeAll W (records c.entries)).take c.cut

/-- The directory after the cut. -/
def dir : SegDir := SegDir.empty.write c.name c.file

/-- The entries whose records are complete. -/
def complete : List (Entry F) := (cutEntries W (c.cut - v3HeaderSize) c.entries).1

/-- The bytes of the record that was cut. -/
def tail : Bytes := (cutEntries W (c.cut - v3HeaderSize) c.entries).2

/-- The segment as replay finds it. -/
def piece : Piece F := ⟨c.name, c.file, c.complete, []⟩

lemma file_eq : c.file = c.header ++ (encodeAll W (records c.complete) ++ c.tail) := by
  have hlen : c.header.length = v3HeaderSize := length_headerV3 _ _ _
  rw [file, List.take_append, List.take_of_length_le (by rw [hlen]; exact c.header_le), hlen,
    take_encodeAll]
  rfl

lemma chainedHeader : ChainedHeader 3 c.firstSeqno c.header :=
  .v3 (by have := c.firstSeqno_lt; omega) _ _

lemma stamp : segmentVectorSpaceId c.header = some c.vectorSpaceId.toNat := by
  have h := segmentVectorSpaceId_headerV3 c.firstSeqno c.head c.vectorSpaceId.toNat []
  rwa [List.append_nil, beNat_beBytes (by simpa using c.vectorSpaceId.toNat_lt)] at h

lemma complete_valid : ∀ e ∈ c.complete, e.Valid W := fun e he =>
  c.valid e ((cutEntries_isInitial W _ _).subset he)

lemma complete_seqnos : (c.complete.map (·.record.seqno)).Pairwise (· < ·) :=
  c.seqnos.sublist ((cutEntries_isInitial W _ _).sublist.map _)

lemma tail_short_or_torn : c.tail.length < 4 ∨ readFrame 3 c.tail = .torn :=
  cutEntries_tail W (by decide) _ c.valid

lemma piece_cut : c.piece.Cut W c.vectorSpaceId.toNat c.header c.tail :=
  ⟨⟨3, c.firstSeqno, c.chainedHeader, c.tail_short_or_torn⟩, by simp [c.stamp], c.complete_valid,
    c.file_eq, rfl⟩

lemma listed : collectAllSegments c.dir = [c.name] := by
  refine collectAllSegments_eq (List.pairwise_singleton _ _) fun name => ?_
  have hvalid : isValidSegmentName c.name = true :=
    isValidSegmentName_segmentPath _ c.firstSeqno_lt
  rw [List.mem_singleton]
  constructor
  · rintro rfl
    simp [dir, hvalid]
  · rintro ⟨hsome, -⟩
    by_contra hne
    rw [dir, SegDir.read_write_of_ne _ _ hne] at hsome
    simp [SegDir.read, SegDir.empty] at hsome

lemma listed_instance : collectInstanceSegments c.dir c.inst = [c.name] := by
  have hpre : (instHex c.inst ++ ['_']).isPrefixOf c.name = true := by
    rw [List.isPrefixOf_iff_prefix]
    exact ⟨seqnoDec c.firstSeqno ++ ".seg".toList, by simp [name, segmentPath]⟩
  rw [collectInstanceSegments, c.listed]
  simp [hpre]

/-- The log continues the segment if it is not full. -/
lemma segmentToContinue_eq : segmentToContinue c.vectorSpaceId.toNat c.inst c.dir =
    if c.file.length < maxSegmentSize then some (c.name, c.file) else none := by
  have hread : c.dir.read c.name = some c.file := SegDir.read_write_self _ _ _
  have hchained : isChainedSegment c.file = true := by
    rw [isChainedSegment, c.file_eq, header, headerV3, List.append_assoc, List.append_assoc,
      List.append_assoc, readExact_append (n := 8) (a := segmentMagicV3) rfl]
    simp
  have hstamp : (segmentVectorSpaceId c.file).all (· = c.vectorSpaceId.toNat) = true := by
    rw [c.file_eq, c.chainedHeader.vectorSpaceId_append, c.stamp]
    simp
  simp [segmentToContinue, c.listed_instance, hread, hchained, hstamp]

/-- The segment that is started where the cut one is full. -/
def started (nextSeqno : ℕ) : Piece F :=
  .start c.inst c.vectorSpaceId.toNat nextSeqno zeroHash []

/-- The segments after the opening: the cut one, and if it is full, a new one behind it or in front of
it. -/
def opened (nextSeqno : ℕ) : Pieces F :=
  if c.file.length < maxSegmentSize then ⟨[], c.piece, []⟩
  else if c.firstSeqno < nextSeqno then ⟨[c.piece], c.started nextSeqno, []⟩
  else ⟨[], c.started nextSeqno, [c.piece]⟩

lemma opened_of_lt (hsize : c.file.length < maxSegmentSize) :
    c.opened nextSeqno = ⟨[], c.piece, []⟩ := if_pos hsize

lemma opened_of_full (hfull : maxSegmentSize ≤ c.file.length) :
    (c.opened nextSeqno).cur = c.started nextSeqno ∧
      (∀ p, p ∈ (c.opened nextSeqno).others ↔ p = c.piece) := by
  rw [opened, if_neg (not_lt.mpr hfull)]
  split_ifs <;> simp [Pieces.others]

lemma started_cut (hseqno : nextSeqno < 10 ^ 12) : (c.started nextSeqno).Cut W
    c.vectorSpaceId.toNat (headerV3 nextSeqno zeroHash c.vectorSpaceId.toNat) [] := by
  have hvsid : c.vectorSpaceId.toNat < 256 ^ 8 := by simpa using c.vectorSpaceId.toNat_lt
  have hstamp := segmentVectorSpaceId_headerV3 nextSeqno zeroHash c.vectorSpaceId.toNat []
  rw [List.append_nil, beNat_beBytes hvsid] at hstamp
  exact ⟨⟨3, nextSeqno, .v3 (by omega) _ _, Or.inl (by simp)⟩, by simp [hstamp],
    by simp [started, Piece.start], by simp [started, Piece.start], rfl⟩

lemma opened_cuts (hseqno : nextSeqno < 10 ^ 12) : ∀ p ∈ (c.opened nextSeqno).all,
    ∃ hdr tail, p.Cut W c.vectorSpaceId.toNat hdr tail := by
  intro p hp
  by_cases hsize : c.file.length < maxSegmentSize
  · rw [c.opened_of_lt hsize] at hp
    rw [List.mem_singleton.mp hp]
    exact ⟨_, _, c.piece_cut⟩
  · obtain ⟨hcur, hothers⟩ := @opened_of_full F nextSeqno W c (not_lt.mp hsize)
    rw [Pieces.mem_all, hothers, hcur] at hp
    rcases hp with rfl | rfl
    · exact ⟨_, _, c.piece_cut⟩
    · exact ⟨_, _, c.started_cut hseqno⟩

lemma opened_recs : (c.opened nextSeqno).all.flatMap Piece.recs =
    c.complete.map fun e => (e.record.seqno, e.op) := by
  unfold opened
  split_ifs <;> simp [Pieces.all, Piece.recs, piece, started, Piece.start]

/-- The log just opened on the cut segment, or on a new one beside it. -/
structure Opened (nextSeqno : ℕ) (log : OpLog F) (dir : SegDir) : Prop where
  /-- The layout, once the sequence numbers go on behind the first one of the cut segment. -/
  layout : Layout W (log.setNextSeqno c.firstSeqno) dir (c.opened nextSeqno)
  next : log.nextSeqno = nextSeqno
  inst_eq : log.instanceId = c.inst
  lineage : log.vectorSpaceId = c.vectorSpaceId.toNat
  pos : log.currentSegment.pos = none ∨
    ((c.opened nextSeqno).cur.repaired W).old = (c.opened nextSeqno).cur.old
  roomy : log.currentSegmentSize < maxSegmentSize

lemma open_continued (nextSeqno : ℕ) (hsize : c.file.length < maxSegmentSize) :
    ∃ log dir, OpLog.open c.vectorSpaceId.toNat c.dir c.inst nextSeqno = .ok (log, dir) ∧
      c.Opened nextSeqno log dir := by
  refine ⟨.fresh c.vectorSpaceId.toNat c.inst c.name none c.file nextSeqno zeroHash, c.dir, ?_, ?_⟩
  · simp [OpLog.open, OpLog.openWithChain, c.segmentToContinue_eq, hsize]
  · have hread : c.dir.read c.name = some c.file := SegDir.read_write_self _ _ _
    have hbytes : c.piece.bytes W = c.file := by simp [Piece.bytes, piece]
    refine ⟨?_, rfl, rfl, rfl, Or.inl rfl, hsize⟩
    rw [OpLog.setNextSeqno_eq, c.opened_of_lt hsize]
    refine ⟨by rw [c.listed]; rfl, by simp [Pieces.others], ⟨rfl, ?_, Or.inl rfl⟩, rfl, ?_,
      fun _ => rfl⟩
    · rw [hbytes]
      exact hread
    · intro p hp
      rw [List.mem_singleton.mp hp]
      exact ⟨c.firstSeqno, le_max_right _ _, rfl, fun hfull => absurd hsize (not_lt.mpr hfull)⟩

/-- The names of the segments after a new one was started. -/
lemma listed_started (hne : nextSeqno ≠ c.firstSeqno) (hseqno : nextSeqno < 10 ^ 12)
    (hfull : maxSegmentSize ≤ c.file.length) (bytes : Bytes) :
    collectAllSegments (c.dir.write (segmentPath c.inst nextSeqno) bytes) =
      (c.opened nextSeqno).all.map (·.name) := by
  obtain ⟨hcur, hothers⟩ := @opened_of_full F nextSeqno W c hfull
  refine collectAllSegments_eq ?_ fun name => ?_
  · rw [opened, if_neg (not_lt.mpr hfull)]
    split_ifs with hlt
    · exact List.pairwise_pair.mpr (segmentPath_lt _ hlt hseqno)
    · exact List.pairwise_pair.mpr (segmentPath_lt _ (by omega) c.firstSeqno_lt)
  · have hlisted := congrArg (name ∈ ·) c.listed
    simp only [mem_collectAllSegments, List.mem_singleton, eq_iff_iff] at hlisted
    have hvalid := isValidSegmentName_segmentPath c.inst hseqno
    simp only [List.mem_map, Pieces.mem_all, hothers, hcur, or_and_right, exists_or, exists_eq_left]
    by_cases hnew : name = segmentPath c.inst nextSeqno
    · subst hnew
      simp [hvalid, started, Piece.start]
    · rw [SegDir.read_write_of_ne _ _ hnew, hlisted]
      simp [started, Piece.start, piece, hnew, @eq_comm _ _ name]

lemma open_started (hne : nextSeqno ≠ c.firstSeqno) (hseqno : nextSeqno < 10 ^ 12)
    (hfull : maxSegmentSize ≤ c.file.length) :
    ∃ log dir, OpLog.open c.vectorSpaceId.toNat c.dir c.inst nextSeqno = .ok (log, dir) ∧
      c.Opened nextSeqno log dir := by
  obtain ⟨hcur, hothers⟩ := @opened_of_full F nextSeqno W c hfull
  have hname : c.name ≠ segmentPath c.inst nextSeqno := by
    rcases Nat.lt_or_gt_of_ne hne with hlt | hlt
    · exact (segmentPath_lt _ hlt c.firstSeqno_lt).ne'
    · exact (segmentPath_lt _ hlt hseqno).ne
  have hread : c.dir.read c.name = some c.file := SegDir.read_write_self _ _ _
  have hfree : c.dir.read (segmentPath c.inst nextSeqno) = none := by
    rw [dir, SegDir.read_write_of_ne _ _ hname.symm]
    rfl
  have hroomy : (headerV3 nextSeqno zeroHash c.vectorSpaceId.toNat).length < maxSegmentSize := by
    simp [v3HeaderSize, maxSegmentSize]
  refine ⟨.fresh c.vectorSpaceId.toNat c.inst (segmentPath c.inst nextSeqno)
      (some (headerV3 nextSeqno zeroHash c.vectorSpaceId.toNat).length)
      (headerV3 nextSeqno zeroHash c.vectorSpaceId.toNat) nextSeqno zeroHash,
    c.dir.write (segmentPath c.inst nextSeqno)
      (headerV3 nextSeqno zeroHash c.vectorSpaceId.toNat), ?_, ?_, rfl, rfl, rfl, Or.inr ?_, hroomy⟩
  · simp [OpLog.open, OpLog.openWithChain, c.segmentToContinue_eq, not_lt.mpr hfull,
      createSegmentV3, hfree, Except.map]
  · rw [OpLog.setNextSeqno_eq]
    refine ⟨c.listed_started hne hseqno hfull _, fun p hp => ?_, ⟨rfl, ?_, Or.inr ?_⟩, ?_, ?_,
      fun _ => rfl⟩
    · rw [(hothers p).mp hp]
      simpa [Piece.bytes, piece] using (SegDir.read_write_of_ne _ _ hname).trans hread
    · simp [hcur, OpLog.fresh, Piece.bytes, started, Piece.start]
    · simp [hcur, OpLog.fresh, Piece.bytes, started, Piece.start]
    · rw [hcur]
      rfl
    · intro p hp
      rw [Pieces.mem_all, hothers, hcur] at hp
      rcases hp with rfl | rfl
      · exact ⟨c.firstSeqno, le_max_right _ _, rfl, fun hsize => absurd hsize (not_le.mpr hroomy)⟩
      · exact ⟨nextSeqno, le_max_left _ _, rfl, fun hsize => absurd hsize (not_le.mpr hroomy)⟩
  · rw [hcur, Piece.repaired, (c.started_cut hseqno).file, (c.started_cut hseqno).old]
    simp

/-- A full segment with the name of the new one blocks the opening. -/
lemma open_blocked (nextSeqno : ℕ) (heq : nextSeqno = c.firstSeqno)
    (hfull : maxSegmentSize ≤ c.file.length) :
    ∃ e, OpLog.open (F := F) c.vectorSpaceId.toNat c.dir c.inst nextSeqno = .error e := by
  have hread : c.dir.read (segmentPath c.inst nextSeqno) = some c.file := by
    rw [heq]
    exact SegDir.read_write_self _ _ _
  simp [OpLog.open, OpLog.openWithChain, c.segmentToContinue_eq, not_lt.mpr hfull,
    createSegmentV3, hread, Except.map]

end CutSegment

/-! ## What the next replay delivers -/

/-- The sequence numbers leave room for the new operations below `10 ^ 12`. -/
def CutSegment.Room {W : Wire F} (c : CutSegment W) (nextSeqno count : ℕ) : Prop :=
  nextSeqno + 1 + count ≤ 10 ^ 12 ∧ ∀ e ∈ c.entries, e.record.seqno + 1 + count ≤ 10 ^ 12

/-- The sequence numbers go on behind the first one of the segment: the log is opened there, or a record
that is complete is. -/
def CutSegment.Continues {W : Wire F} (c : CutSegment W) (nextSeqno : ℕ) : Prop :=
  c.firstSeqno ≤ nextSeqno ∨ ∃ e ∈ c.complete, c.firstSeqno ≤ e.record.seqno

/-- The log after reopening and appending: the new entries stand in order behind the repaired
segments. -/
structure CutSegment.Resumed {W : Wire F} (c : CutSegment W) (nextSeqno : ℕ) (ps' : Pieces F)
    (ops : List (Op F)) (es : List (Entry F)) (log : OpLog F) (dir : SegDir) : Prop where
  layout : Layout W log dir ps'
  grown : Grown c.inst c.vectorSpaceId.toNat ((c.opened nextSeqno).repaired W) es ps'
  valid : ∀ e ∈ es, e.Valid W
  ops_eq : es.map (·.op) = ops
  seqnos : ((c.complete ++ es).map (·.record.seqno)).Pairwise (· < ·)
  inst_eq : log.instanceId = c.inst
  lineage : log.vectorSpaceId = c.vectorSpaceId.toNat
  /-- The first new record goes to the open segment. -/
  first : ops ≠ [] → ∃ e es', es = e :: es' ∧
    Grown c.inst c.vectorSpaceId.toNat (((c.opened nextSeqno).repaired W).push e) es' ps'

variable {ops : List (Op F)} {log : OpLog F} {dir : SegDir}

variable {W : Wire F}

lemma CutSegment.Opened.resumed {c : CutSegment W} (h : c.Opened nextSeqno log dir)
    (hopen : OpLog.open c.vectorSpaceId.toNat c.dir c.inst nextSeqno = .ok (log, dir))
    (hnext : c.Continues nextSeqno) (hops : ∀ op ∈ ops, Storable W op)
    (hroom : c.Room nextSeqno ops.length) (older : FileName → Bool) : ∃ log' dir' ps' es,
      reopenAppend W c.vectorSpaceId.toNat c.inst nextSeqno older c.dir ops = .ok (log', dir') ∧
        c.Resumed nextSeqno ps' ops es log' dir' := by
  have hseqno : nextSeqno < 10 ^ 12 := by
    have := hroom.1
    omega
  have hrecs : ((c.opened nextSeqno).all.flatMap Piece.recs).map Prod.fst =
      c.complete.map (·.record.seqno) := by
    rw [c.opened_recs, List.map_map]
    rfl
  have hpairwise : (((c.opened nextSeqno).all.flatMap Piece.recs).map Prod.fst).Pairwise (· < ·) := by
    rw [hrecs]
    exact c.complete_seqnos
  -- Replay does not ask for the next sequence number.
  have hlayout₀ := h.layout
  rw [OpLog.setNextSeqno_eq] at hlayout₀
  have hinst : log.instanceId < 2 ^ 32 := h.inst_eq ▸ c.inst_lt
  have hcuts : ∀ p ∈ (c.opened nextSeqno).all, ∃ hdr tail, p.Cut W log.vectorSpaceId hdr tail := by
    rw [h.lineage]
    exact c.opened_cuts hseqno
  obtain ⟨r, hresult, hhanded⟩ := hlayout₀.replay_handed
    (fun p hp => by obtain ⟨hdr, tail, hp⟩ := hcuts p hp; exact hp.reads) hinst hpairwise older
  have hlayout := (hlayout₀.replay hcuts h.pos hpairwise hinst older).setNextSeqno r.nextSeqno
  have hseqnos : r.handed.map (·.2.1) = c.complete.map (·.record.seqno) := by
    rw [← hrecs, ← hhanded, List.map_map]
    rfl
  have hlt : ∀ e ∈ c.complete, e.record.seqno < r.nextSeqno := fun e he =>
    Nat.lt_succ_of_le (Lists.le_foldl_max (Or.inl (hseqnos ▸ List.mem_map_of_mem he)))
  have hmax : max (max log.nextSeqno c.firstSeqno) r.nextSeqno = max log.nextSeqno r.nextSeqno := by
    rw [h.next]
    rcases hnext with hle | ⟨e, he, hle⟩
    · rw [max_eq_left hle]
    · rw [max_assoc, max_eq_right (hle.trans (hlt e he).le)]
  have hlog : ((({ log with nextSeqno := max log.nextSeqno c.firstSeqno } : OpLog F).replay W dir
      older).1).setNextSeqno r.nextSeqno = (log.replay W dir older).1.setNextSeqno r.nextSeqno := by
    have hview : ({ log with nextSeqno := max log.nextSeqno c.firstSeqno } : OpLog F).view older =
        log.view older := rfl
    simp only [OpLog.setNextSeqno_eq, OpLog.replay, hview, OpLog.afterReplay]
    split <;> simp only [hmax]
  rw [hlog] at hlayout
  obtain ⟨_, _, _, _, hreplayed⟩ := log.exists_afterReplay_eq
    (replayCertified W (log.view older) none dir)
  have hreplayed' : (log.replay W dir older).1 = _ := hreplayed
  rw [hreplayed', OpLog.setNextSeqno_eq] at hlayout
  have hcount : max log.nextSeqno r.nextSeqno + ops.length ≤ 10 ^ 12 := by
    have hr : r.nextSeqno + ops.length ≤ 10 ^ 12 := by
      have hle := Lists.foldl_max_le (l := r.handed.map (·.2.1)) (b := 0) (n := 10 ^ 12 - 1 - ops.length)
        (fun a ha => by
          rw [hseqnos] at ha
          obtain ⟨e, he, rfl⟩ := List.mem_map.mp ha
          have := hroom.2 e ((cutEntries_isInitial W _ _).subset he)
          omega) (Nat.zero_le _)
      have := hroom.1
      simp only [Replayed.nextSeqno]
      omega
    have := hroom.1
    have := h.next
    rcases max_choice log.nextSeqno r.nextSeqno with hm | hm <;> rw [hm] <;> omega
  obtain ⟨log', dir', ps', es, happ, hlayout', hinst', hlineage, hgrown, hvalid, hops', hrange, hfirst⟩ :=
    hlayout.appendAll hops hcount
  have hinst₀ : log.instanceId = c.inst := h.inst_eq
  have hlineage₀ : log.vectorSpaceId = c.vectorSpaceId.toNat := h.lineage
  simp only [hinst₀, hlineage₀] at hinst' hlineage hgrown hfirst
  refine ⟨log', dir', ps', es, ?_, hlayout', hgrown, hvalid, hops', ?_, hinst', hlineage,
    hfirst h.roomy⟩
  · have hreplay : (log.replay W dir older).2.result = .ok r := hresult
    simp only [reopenAppend, hopen, bind, Except.bind, hreplay, hreplayed', OpLog.setNextSeqno_eq]
    exact happ
  · rw [List.map_append, hrange, List.pairwise_append]
    refine ⟨c.complete_seqnos, List.pairwise_lt_range', fun a ha b hb => ?_⟩
    obtain ⟨e, he, rfl⟩ := List.mem_map.mp ha
    exact (hlt e he).trans_le ((le_max_right _ _).trans (List.mem_range'_1.mp hb).1)

/-- The reopened log delivers the complete records and the new operations. -/
def CutSegment.Delivers {W : Wire F} (c : CutSegment W) (nextSeqno : ℕ) (older : FileName → Bool)
    (ops : List (Op F)) : Prop :=
  ∃ handed, reopenAppendReplay W c.vectorSpaceId.toNat c.inst nextSeqno older c.dir ops =
      .ok handed ∧
    handed.map (·.2.2) = c.complete.map (·.op) ++ ops

/-- No clock is ahead of that of the first new operation. -/
def CutSegment.Latest {W : Wire F} (c : CutSegment W) (ops : List (Op F)) : Prop :=
  ∀ first ∈ ops.head?, ∀ op ∈ c.complete.map (·.op) ++ ops, effectiveTs 0 op ≤ effectiveTs 0 first

/-- Nothing stands between the complete records and the new ones, and new ones in a segment in front of
the cut one do not come before it. -/
def CutSegment.Clear {W : Wire F} (c : CutSegment W) (nextSeqno : ℕ) (ops : List (Op F)) : Prop :=
  if c.file.length < maxSegmentSize then c.tail = [] ∨ 4 ≤ c.tail.length ∨ ops = []
  else c.firstSeqno < nextSeqno ∨ nextSeqno ≠ c.firstSeqno ∧ c.Latest ops

variable {es : List (Entry F)} {ps' : Pieces F}

/-- The segments can be read after the new operations have been appended. -/
lemma CutSegment.Resumed.reads {c : CutSegment W} (h : c.Resumed nextSeqno ps' ops es log dir)
    (hseqno : nextSeqno < 10 ^ 12) (hclear : c.Clear nextSeqno ops) :
    ∀ p ∈ ps'.all, p.Reads W log.vectorSpaceId := by
  have hvsid : c.vectorSpaceId.toNat < 256 ^ 8 := by simpa using c.vectorSpaceId.toNat_lt
  have hcut : ∀ p ∈ ((c.opened nextSeqno).repaired W).all, p.Reads W c.vectorSpaceId.toNat := by
    rw [Pieces.repaired_all]
    intro p hp
    obtain ⟨q, hq, rfl⟩ := List.mem_map.mp hp
    obtain ⟨hdr, tail, hq⟩ := c.opened_cuts hseqno q hq
    exact hq.repaired.reads
  rw [h.lineage]
  by_cases hne : ops = []
  · -- nothing was appended
    have hes : es = [] := List.map_eq_nil_iff.mp (h.ops_eq.trans hne)
    have hgrown := h.grown
    rw [hes] at hgrown
    cases hgrown
    exact hcut
  · -- the open segment is whole, so it can be continued
    have hwhole : ((c.opened nextSeqno).repaired W).cur.Whole W c.vectorSpaceId.toNat := by
      by_cases hsize : c.file.length < maxSegmentSize
      · rw [Clear, if_pos hsize] at hclear
        have hcut := c.piece_cut.repaired
        rw [show (if c.tail.length < 4 then c.tail else []) = [] by
          rcases hclear with htail | htail | hnil
          · simp [htail]
          · simp [htail]
          · exact absurd hnil hne] at hcut
        rw [c.opened_of_lt hsize]
        exact hcut.whole
      · have hcut : ((c.started nextSeqno).repaired W).Cut W c.vectorSpaceId.toNat
            (headerV3 nextSeqno zeroHash c.vectorSpaceId.toNat) [] := by
          simpa using (c.started_cut hseqno).repaired
        rw [Pieces.repaired, (c.opened_of_full (not_lt.mp hsize)).1]
        exact hcut.whole
    obtain ⟨hothers, hcur⟩ := @Grown.forall_pieces F c.inst c.vectorSpaceId.toNat _ ps' es
      (fun p => p.Reads W c.vectorSpaceId.toNat) (fun p => p.Whole W c.vectorSpaceId.toNat)
      (fun e => e.Valid W) h.grown h.valid (fun p hp => hp.reads) (fun p e hp he => hp.push he)
      (fun n head e hn he => .start hn hvsid head (by simpa using he))
      (fun p hp => hcut p (Pieces.mem_all.mpr (Or.inl hp))) hwhole
    intro p hp
    rcases Pieces.mem_all.mp hp with hp | rfl
    · exact hothers p hp
    · exact hcur.reads

/-- The records in the segments are the complete ones and the new ones. -/
lemma CutSegment.Resumed.perm_recs {c : CutSegment W} (h : c.Resumed nextSeqno ps' ops es log dir) :
    ((c.complete ++ es).map fun e => (e.record.seqno, e.op)).Perm (ps'.all.flatMap Piece.recs) := by
  have hperm := h.grown.perm_recs
  rw [Pieces.repaired_recs, c.opened_recs, ← List.map_append] at hperm
  exact hperm.symm

/-- The records stand in their order if no segment stands behind the open one. -/
lemma CutSegment.Resumed.recs_eq {c : CutSegment W} (h : c.Resumed nextSeqno ps' ops es log dir)
    (hbehind : (c.opened nextSeqno).behind = []) :
    ps'.all.flatMap Piece.recs = (c.complete ++ es).map fun e => (e.record.seqno, e.op) := by
  rw [h.grown.flatMap_recs (by rw [Pieces.repaired, hbehind]; rfl), Pieces.repaired_recs,
    c.opened_recs, List.map_append]

/-- A new segment in front of the cut one begins with the first new record. -/
lemma CutSegment.Resumed.recs_cons {c : CutSegment W} (h : c.Resumed nextSeqno ps' ops es log dir)
    (hne : ops ≠ []) (hfull : maxSegmentSize ≤ c.file.length) (hlt : nextSeqno < c.firstSeqno) :
    ∃ (e : Entry F) (rest : List (ℕ × Op F)), e.op ∈ ops.head? ∧
      ps'.all.flatMap Piece.recs = (e.record.seqno, e.op) :: rest := by
  obtain ⟨e, es', rfl, hgrown⟩ := h.first hne
  have hopened : c.opened nextSeqno = ⟨[], c.started nextSeqno, [c.piece]⟩ := by
    rw [opened, if_neg (not_lt.mpr hfull), if_neg hlt.le.not_gt]
  obtain ⟨new, rest, hall⟩ := hgrown.head _ _ (by rw [hopened]; rfl)
  refine ⟨e, new.map (fun e => (e.record.seqno, e.op)) ++ rest.flatMap Piece.recs,
    by rw [← h.ops_eq]; rfl, ?_⟩
  rw [hall]
  rfl

lemma CutSegment.Opened.delivers {c : CutSegment W} (h : c.Opened nextSeqno log dir)
    (hopen : OpLog.open c.vectorSpaceId.toNat c.dir c.inst nextSeqno = .ok (log, dir))
    (hnext : c.Continues nextSeqno) (hops : ∀ op ∈ ops, Storable W op)
    (hroom : c.Room nextSeqno ops.length) (hclear : c.Clear nextSeqno ops) (older : FileName → Bool) :
    c.Delivers nextSeqno older ops := by
  obtain ⟨log', dir', ps', es, happ, hres⟩ := h.resumed hopen hnext hops hroom older
  have hseqno : nextSeqno < 10 ^ 12 := by
    have := hroom.1
    omega
  have hreads := hres.reads hseqno hclear
  have hinst : log'.instanceId < 2 ^ 32 := hres.inst_eq ▸ c.inst_lt
  have hseqnos : (((c.complete ++ es).map fun e => (e.record.seqno, e.op)).map Prod.fst).Pairwise
      (· < ·) := by
    rw [List.map_map]
    exact hres.seqnos
  obtain ⟨r, hresult, hhanded⟩ : ∃ r, (log'.replay W dir' older).2.result = .ok r ∧
      r.handed.map Prod.snd = (c.complete ++ es).map fun e => (e.record.seqno, e.op) := by
    by_cases hbehind : (c.opened nextSeqno).behind = []
    · have hrecs := hres.recs_eq hbehind
      rw [← hrecs] at hseqnos ⊢
      exact hres.layout.replay_handed hreads hinst hseqnos older
    · -- the new segment stands in front of the cut one
      have hfull : maxSegmentSize ≤ c.file.length := by
        by_contra hsize
        exact hbehind (by rw [c.opened_of_lt (not_le.mp hsize)])
      have hlt : ¬c.firstSeqno < nextSeqno := fun hlt =>
        hbehind (by rw [CutSegment.opened, if_neg (not_lt.mpr hfull), if_pos hlt])
      rw [CutSegment.Clear, if_neg (not_lt.mpr hfull)] at hclear
      obtain ⟨hne, hlatest⟩ := hclear.resolve_left hlt
      by_cases hnil : ops = []
      · have hes : es = [] := List.map_eq_nil_iff.mp (hres.ops_eq.trans hnil)
        have hgrown := hres.grown
        subst hes
        cases hgrown
        have hrecs := Pieces.repaired_recs W (c.opened nextSeqno)
        rw [c.opened_recs] at hrecs
        rw [List.append_nil, ← hrecs] at hseqnos ⊢
        exact hres.layout.replay_handed hreads hinst hseqnos older
      · obtain ⟨e, rest, hhead, hrecs⟩ := hres.recs_cons hnil hfull (by omega)
        refine replay_pieces_latest (log'.view older) hres.layout.listed
          (fun _ hp => hres.layout.read hp) hreads hinst
          (fun p hp => (hres.layout.named p hp).imp fun _ hn => hn.2.1) hrecs ?_ hres.perm_recs hseqnos
        intro r hr
        have hmem := hres.perm_recs.mem_iff.mpr (hrecs ▸ List.mem_cons_of_mem _ hr)
        obtain ⟨e', he', rfl⟩ := List.mem_map.mp hmem
        refine hlatest e.op hhead e'.op ?_
        rw [← hres.ops_eq, ← List.map_append]
        exact List.mem_map_of_mem he'
  refine ⟨r.handed, ?_, ?_⟩
  · simp only [reopenAppendReplay, happ, bind, Except.bind, hresult]
    rfl
  · have hops := congrArg (List.map Prod.snd) hhanded
    rw [List.map_map, List.map_map, List.map_append] at hops
    rw [← hres.ops_eq]
    exact hops

/-- The bytes from the cut record on, as they stand when the log is replayed again, do not happen to
check as a record. -/
def CutSegment.Misaligned {W : Wire F} (c : CutSegment W) (nextSeqno : ℕ) (older : FileName → Bool)
    (ops : List (Op F)) : Prop :=
  ∀ log dir file,
    reopenAppend W c.vectorSpaceId.toNat c.inst nextSeqno older c.dir ops = .ok (log, dir) →
    dir.read c.name = some file →
    ¬ Checks W 3 0 (file.drop (v3HeaderSize + (encodeAll W (records c.complete)).length))

/-- The segments when new records went behind the beginning of a length field: the first one, and
others that can be read. -/
lemma CutSegment.Resumed.behind_tail {c : CutSegment W} (h : c.Resumed nextSeqno ps' ops es log dir)
    (hsize : c.file.length < maxSegmentSize) (htail : c.tail.length < 4) (hne : ops ≠ []) :
    ∃ new rest, new ≠ [] ∧
      ps'.all = { c.piece.repaired W with new := new } :: rest ∧
      dir.read c.name = some (c.header ++ (encodeAll W (records c.complete) ++
        (c.tail ++ encodeAll W (records new)))) ∧
      ∀ p ∈ rest, p.Reads W c.vectorSpaceId.toNat := by
  have hvsid : c.vectorSpaceId.toNat < 256 ^ 8 := by simpa using c.vectorSpaceId.toNat_lt
  obtain ⟨e, es', rfl, hgrown⟩ := h.first hne
  rw [c.opened_of_lt hsize] at hgrown
  obtain ⟨new, rest, hall⟩ := hgrown.head ((c.piece.repaired W).push e) [] rfl
  refine ⟨[e] ++ new, rest, by simp, hall, ?_, ?_⟩
  · have hread : dir.read c.name = some ((c.piece.repaired W).old ++
        encodeAll W (records ([e] ++ new))) :=
      h.layout.read (hall ▸ List.mem_cons_self)
    have hold : (c.piece.repaired W).old = _ := c.piece_cut.file zeroHash
    rw [hread, hold, if_pos htail]
    simp [piece]
  · -- a segment with another name was started by the log
    obtain ⟨hothers, hcur⟩ := @Grown.forall_pieces F c.inst c.vectorSpaceId.toNat _ ps' es'
      (fun p => p.name = c.name ∨ p.Whole W c.vectorSpaceId.toNat)
      (fun p => p.name = c.name ∨ p.Whole W c.vectorSpaceId.toNat)
      (fun e => e.Valid W) hgrown (List.forall_mem_cons.mp h.valid).2
      (fun _ hp => hp) (fun p e hp he => hp.imp id fun hp => hp.push he)
      (fun n head e hn he => Or.inr (.start hn hvsid head (by simpa using he)))
      (by simp [Pieces.others, Pieces.push, Pieces.repaired]) (Or.inl rfl)
    intro p hp
    have hname : p.name ≠ c.name := by
      have hsorted := collectAllSegments_sorted dir
      rw [h.layout.listed, hall, List.map_cons, List.pairwise_cons] at hsorted
      exact (hsorted.1 _ (List.mem_map_of_mem hp)).ne'
    rcases Pieces.mem_all.mp (hall ▸ List.mem_cons_of_mem _ hp : p ∈ ps'.all) with hp | rfl
    · exact ((hothers p hp).resolve_left hname).reads
    · exact (hcur.resolve_left hname).reads

/-- New records behind the beginning of a length field are lost. -/
lemma CutSegment.Opened.not_delivers {c : CutSegment W} (h : c.Opened nextSeqno log dir)
    (hopen : OpLog.open c.vectorSpaceId.toNat c.dir c.inst nextSeqno = .ok (log, dir))
    (hnext : c.Continues nextSeqno) (hops : ∀ op ∈ ops, Storable W op)
    (hroom : c.Room nextSeqno ops.length) (hsize : c.file.length < maxSegmentSize)
    (htail : c.tail.length < 4) (hne : ops ≠ []) {older : FileName → Bool}
    (hmis : c.Misaligned nextSeqno older ops) : ¬ c.Delivers nextSeqno older ops := by
  obtain ⟨log', dir', ps', es, happ, hres⟩ := h.resumed hopen hnext hops hroom older
  obtain ⟨new, rest, hnew, hall, hfirst, hrest⟩ := hres.behind_tail hsize htail hne
  have hbad := hmis log' dir' _ happ hfirst
  rw [← List.append_assoc, List.drop_left' (by
    rw [List.length_append]
    exact congrArg (· + _) (length_headerV3 _ _ _))] at hbad
  have hlisted : collectAllSegments dir' = c.name :: rest.map (·.name) := by
    rw [hres.layout.listed, hall]
    rfl
  have hforeign : ∀ bs, isForeign (log'.view older) (c.header ++ bs) = false := fun bs =>
    Piece.not_foreign_of_header c.chainedHeader (by simp [c.stamp]) bs hres.lineage
  rintro ⟨handed, hdelivers, hhanded⟩
  simp only [reopenAppendReplay, happ, bind, Except.bind] at hdelivers
  split at hdelivers
  · cases hdelivers
  · rename_i r hresult
    cases hdelivers
    rcases records_nil_or_failed W hbad with hnil | hfailed
    · -- the reader takes everything from the cut record on for a torn tail
      have hrecs : (c.complete ++ es).map (fun e => (e.record.seqno, e.op)) =
          (c.complete ++ new).map (fun e => (e.record.seqno, e.op)) ++
            rest.flatMap Piece.recs := by
        have hrecs := hres.recs_eq (by rw [c.opened_of_lt hsize])
        rw [hall] at hrecs
        exact hrecs.symm
      have hseqnos : (((c.complete.map fun e => (e.record.seqno, e.op)) ++
          rest.flatMap Piece.recs).map Prod.fst).Pairwise (· < ·) := by
        have hall' : ((c.complete ++ es).map fun e => (e.record.seqno, e.op)).map Prod.fst =
            (c.complete ++ es).map (·.record.seqno) := by
          rw [List.map_map]
          rfl
        have hsorted := hres.seqnos
        rw [← hall', hrecs] at hsorted
        refine hsorted.sublist (List.Sublist.map _ (List.Sublist.append ?_ (.refl _)))
        exact (List.sublist_append_left _ _).map _
      obtain ⟨r', hr', hhanded'⟩ := @replay_pieces F W (log'.view older) dir'
        (⟨c.name, c.header ++ (encodeAll W (records c.complete) ++
          (c.tail ++ encodeAll W (records new))), c.complete, []⟩ :: rest)
        hlisted
        (by
          intro p hp
          rcases List.mem_cons.mp hp with rfl | hp
          · simpa [Piece.bytes] using hfirst
          · exact hres.layout.read (hall ▸ List.mem_cons_of_mem _ hp))
        (by
          intro p hp
          rcases List.mem_cons.mp hp with rfl | hp
          · exact ⟨3, c.firstSeqno, c.header, _, c.chainedHeader,
              by simp [c.stamp, OpLog.view, hres.lineage], by simpa using c.complete_valid, rfl,
              hnil, Or.inr rfl⟩
          · have hp' := hrest p hp
            rw [← hres.lineage] at hp'
            exact hp')
        _ c.inst_lt
        (by
          intro p hp
          rcases List.mem_cons.mp hp with rfl | hp
          · exact ⟨c.firstSeqno, rfl⟩
          · obtain ⟨n, -, hname, -⟩ :=
              hres.layout.named p (hall ▸ List.mem_cons_of_mem _ hp)
            exact ⟨n, hres.inst_eq ▸ hname⟩)
        (by simpa [Piece.recs] using hseqnos)
      have heq : r' = r := by
        have hresult' : (replayCertified W (log'.view older) none dir').result = .ok r := hresult
        rw [hr'] at hresult'
        exact Except.ok.inj hresult'
      have hlen := congrArg List.length hrecs
      have hlen' := congrArg List.length hhanded'
      have hlen'' := congrArg List.length hhanded
      have hes : es.length = ops.length := by rw [← hres.ops_eq, List.length_map]
      have hpos : 0 < new.length := List.length_pos_iff.mpr hnew
      rw [heq] at hlen'
      simp only [List.length_map, List.length_append, List.flatMap_cons, Piece.recs,
        List.append_nil] at hlen hlen' hlen''
      omega
    · -- the reader fails on the first segment
      refine replayCertified_error W hlisted hfirst (hforeign _) (fun head => ?_) r hresult
      obtain ⟨st, e, hwalk⟩ := hfailed _ _
      rw [replaySegment_encodeAll W c.name c.chainedHeader c.complete_valid, hwalk]
      exact ⟨e, rfl⟩

/-- A log that is opened again on a cut segment delivers the complete records and then the new
operations if nothing stands between them.  Otherwise it does not, unless the bytes behind the cut
happen to check, or a new segment stands in front of a full one. -/
theorem reopen_delivers_iff {W : Wire F} (c : CutSegment W) {nextSeqno : ℕ}
    (hnext : c.Continues nextSeqno) {ops : List (Op F)} (hops : ∀ op ∈ ops, Storable W op)
    (hroom : c.Room nextSeqno ops.length) (older : FileName → Bool) :
    (c.Clear nextSeqno ops → c.Delivers nextSeqno older ops) ∧
      (c.Misaligned nextSeqno older ops →
        (c.file.length < maxSegmentSize ∨ c.firstSeqno ≤ nextSeqno) →
        c.Delivers nextSeqno older ops → c.Clear nextSeqno ops) := by
  have hseqno : nextSeqno < 10 ^ 12 := by
    have := hroom.1
    omega
  by_cases hsize : c.file.length < maxSegmentSize
  · obtain ⟨log, dir, hopen, h⟩ := c.open_continued nextSeqno hsize
    refine ⟨fun hclear => h.delivers hopen hnext hops hroom hclear older, fun hmis _ hdelivers => ?_⟩
    rw [CutSegment.Clear, if_pos hsize]
    by_contra hnot
    push Not at hnot
    exact h.not_delivers hopen hnext hops hroom hsize (by omega) hnot.2.2 hmis hdelivers
  · have hfull : maxSegmentSize ≤ c.file.length := Nat.le_of_not_lt hsize
    refine ⟨fun hclear => ?_, fun _ hle hdelivers => ?_⟩
    · have hne : nextSeqno ≠ c.firstSeqno := by
        rw [CutSegment.Clear, if_neg hsize] at hclear
        exact hclear.elim (fun hlt => hlt.ne') And.left
      obtain ⟨log, dir, hopen, h⟩ := c.open_started hne hseqno hfull
      exact h.delivers hopen hnext hops hroom hclear older
    · rw [CutSegment.Clear, if_neg hsize]
      by_contra hnot
      obtain ⟨e, he⟩ := c.open_blocked nextSeqno (by omega) hfull
      obtain ⟨handed, hok, -⟩ := hdelivers
      simp [reopenAppendReplay, reopenAppend, he, bind, Except.bind] at hok

/-! ## A segment of two deletions -/

/-- The segment of two deletions, cut behind the first one and `k` further bytes. -/
def sampleCut (k : ℕ) : CutSegment (Reference.wire ℚ) where
  vectorSpaceId := 0
  inst := 1
  inst_lt := by decide
  firstSeqno := 1
  firstSeqno_lt := by decide
  head := zeroHash
  entries := [sampleFirst, sampleSecond]
  valid := by
    intro e he
    rcases List.mem_pair.mp he with rfl | rfl
    · exact sampleFirst_valid
    · exact sampleSecond_valid
  seqnos := by decide
  cut := 122 + k
  header_le := Nat.le_trans (by decide) (Nat.le_add_right 122 k)

/-- Two bytes of the second length field stay in the file, and the next replay fails on the deletion
that was appended behind them. -/
theorem reopen_behind_two_bytes :
    ¬ (sampleCut 2).Delivers 1 (fun _ => false) [.deleteMemory ⟨9, 5⟩] := by
  have hfails : (reopenAppendReplay (Reference.wire ℚ) 0 1 1 (fun _ => false) (sampleCut 2).dir
      [.deleteMemory ⟨9, 5⟩]).toOption.map List.length = none := by decide +kernel
  rintro ⟨handed, hok, -⟩
  have hok' : reopenAppendReplay (Reference.wire ℚ) 0 1 1 (fun _ => false) (sampleCut 2).dir
      [.deleteMemory ⟨9, 5⟩] = .ok handed := hok
  rw [hok'] at hfails
  cases hfails

/-- Ten bytes of the second record are removed, and the appended deletion is delivered. -/
theorem reopen_behind_ten_bytes :
    (sampleCut 10).Delivers 1 (fun _ => false) [.deleteMemory ⟨9, 5⟩] :=
  (reopen_delivers_iff (sampleCut 10) (Or.inl (by decide) : (sampleCut 10).Continues 1)
    (by
      intro op hop
      rw [List.mem_singleton.mp hop]
      exact ⟨Reference.deleteTag ++ [9, 5], rfl, rfl, by decide⟩ :
      ∀ op ∈ [Op.deleteMemory ⟨9, 5⟩], Storable (Reference.wire ℚ) op)
    (by unfold CutSegment.Room; decide) (fun _ => false)).1 (by
      rw [CutSegment.Clear, if_pos (by decide +kernel)]
      exact Or.inr (Or.inl (by decide +kernel)))

end ChittaField
