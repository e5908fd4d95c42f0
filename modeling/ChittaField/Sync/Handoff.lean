import ChittaField.Log.Recovery
import ChittaField.Sync.Foreign

/-!
# From startup replay to foreign sync

When a field is opened, it replays all segments and then seeds the offsets of foreign sync with the
sizes that the files have by then.  The two look at the files at different times.

`open_hands_off` says when every record of a peer is applied exactly once, by the replay or by a
later sync: if each segment stood at the end of a record when it was replayed, or its writer had
died in one, and nothing was written until the offsets were seeded.
-/

namespace ChittaField

variable {F : Type}

/-! ## Seeding the offsets -/

/-- The offsets saved for this instance, or else the sizes of all files. -/
def loadSeenOffsets (saved : Option (FileName → Option ℕ)) (dir : SegDir) : FileName → Option ℕ :=
  match saved with
  | some offsets => offsets
  | none => fun name => (dir.read name).map List.length

variable {log : LogView}

namespace Stream

variable {W : Wire F} (s : Stream W)

/-- How a segment stands when it is replayed, with the number of bytes that its peer has written of
it for good: it is not there yet, it ends behind a record or the header, or its writer died in a
record. -/
inductive StandsAt : Option Bytes → ℕ → Prop
  | absent : StandsAt none 0
  | empty : StandsAt (some []) 0
  | boundary {j : ℕ} (hj : j ≤ s.entries.length) :
    StandsAt (some (s.view (s.offset j))) (s.offset j)
  | dead {tail : Bytes} (h4 : 4 ≤ tail.length) (htorn : readFrame s.version tail = .torn) :
    StandsAt (some (s.bytes ++ tail)) s.bytes.length

lemma view_offset (j : ℕ) :
    s.view (s.offset j) = s.header ++ encodeAll W (records (s.entries.take j)) := by
  have hsplit : s.bytes =
      (s.header ++ encodeAll W (records (s.entries.take j))) ++
        encodeAll W (records (s.entries.drop j)) := by
    rw [List.append_assoc, ← encodeAll_append, ← records_append, List.take_append_drop]
    rfl
  rw [view, hsplit]
  exact List.take_left' (by rw [List.length_append]; rfl)

lemma bytes_length : s.bytes.length = s.offset s.entries.length := by
  simp [bytes, offset]

variable {n : ℕ}

/-- The bytes that are written for good end behind the header or a record. -/
lemma StandsAt.boundary_eq {s : Stream W} {file : Option Bytes} (h : s.StandsAt file n) :
    n = s.offset (s.complete n) ∨ n = 0 ∧ s.complete n = 0 := by
  cases h with
  | absent => exact Or.inr ⟨rfl, s.complete_eq_zero (Nat.zero_le _)⟩
  | empty => exact Or.inr ⟨rfl, s.complete_eq_zero (Nat.zero_le _)⟩
  | boundary hj => exact Or.inl (by rw [s.complete_offset hj])
  | dead => exact Or.inl (by rw [bytes_length, s.complete_offset le_rfl])

/-- Replay delivers the complete records and leaves the bytes that are written for good. -/
lemma StandsAt.replay {s : Stream W} {file : Bytes} (h : s.StandsAt (some file) n) (name : FileName)
    (head : ChainHash) :
    (replaySegmentInventoried W name file 0 head).delivered = s.recs 0 (s.complete n) ∧
      (replaySegmentInventoried W name file 0 head).file = s.view n ∧
      ∃ r, (replaySegmentInventoried W name file 0 head).result = .ok r := by
  have htake : ∀ j, (s.entries.take j).map (fun e => (e.record.seqno, e.op)) = s.recs 0 j :=
    fun j => rfl
  cases h with
  | empty =>
    rw [s.complete_eq_zero (Nat.zero_le _)]
    exact ⟨rfl, rfl, _, rfl⟩
  | @boundary j hj =>
    have htail : ([] : Bytes).length < 4 ∨ readFrame s.version [] = .torn := Or.inl (by decide)
    obtain ⟨hdel, hfile, certificate, hres⟩ := replaySegment_tail W name s.chained
      (fun e (he : e ∈ s.entries.take j) => s.valid e (List.mem_of_mem_take he)) htail head
    have hview : s.view (s.offset j) =
        s.header ++ (encodeAll W (records (s.entries.take j)) ++ []) := by
      rw [view_offset, List.append_nil]
    rw [hview, s.complete_offset hj]
    exact ⟨hdel.trans (htake j), by simpa using hfile, _, hres⟩
  | @dead tail h4 htorn =>
    obtain ⟨hdel, hfile, certificate, hres⟩ := replaySegment_tail W name s.chained s.valid
      (Or.inr htorn) head
    have hbytes : s.bytes ++ tail = s.header ++ (encodeAll W (records s.entries) ++ tail) := by
      rw [bytes, List.append_assoc]
    rw [hbytes, bytes_length, s.complete_offset le_rfl]
    refine ⟨?_, ?_, _, hres⟩
    · rw [hdel, ← htake, List.take_length]
    · rw [hfile, if_neg (by omega), List.append_nil, view_offset, List.take_length]

/-- A segment that stands so holds the complete records. -/
lemma StandsAt.segmentFile {s : Stream W} {file : Bytes} (h : s.StandsAt (some file) n) :
    SegmentFile W file (s.recs 0 (s.complete n)) := by
  cases h with
  | empty =>
    rw [s.complete_eq_zero (Nat.zero_le _)]
    exact Or.inl ⟨rfl, rfl⟩
  | @boundary j hj =>
    rw [view_offset, s.complete_offset hj]
    exact s.chained.segmentFile_encodeAll fun e he => s.valid e (List.mem_of_mem_take he)
  | @dead tail h4 htorn =>
    have hrecords := Records.encodeAll s.chained.two_le s.valid (.torn htorn)
    have hbytes : s.bytes ++ tail = s.header ++ (encodeAll W (records s.entries) ++ tail) := by
      rw [bytes, List.append_assoc]
    have hrecs : s.entries.map (fun e => (e.record.seqno, e.op)) ++ [] =
        s.recs 0 s.entries.length := by
      rw [List.append_nil, recs, List.take_length]
      rfl
    rw [hbytes, bytes_length, s.complete_offset le_rfl, ← hrecs]
    exact s.chained.segmentFile hrecords

/-- The lineage of a segment shows in its header. -/
lemma StandsAt.not_foreign {s : Stream W} {file : Bytes} (h : s.StandsAt (some file) n)
    (hlineage : isForeign log s.header = false) : isForeign log file = false := by
  have happend : ∀ bs, isForeign log (s.header ++ bs) = false := fun bs => by
    rw [isForeign, s.chained.vectorSpaceId_append]
    exact hlineage
  cases h with
  | empty => rfl
  | boundary => rw [view_offset]; exact happend _
  | dead => rw [bytes, List.append_assoc]; exact happend _

lemma StandsAt.eq_zero {s : Stream W} (h : s.StandsAt none n) : n = 0 := by
  cases h
  rfl

lemma StandsAt.length_view {s : Stream W} {file : Option Bytes} (h : s.StandsAt file n) :
    (s.view n).length = n := by
  cases h with
  | absent => simp [view]
  | empty => simp [view]
  | boundary => rw [view_offset, List.length_append]; rfl
  | dead => simp [view]

end Stream

/-! ## The hand-off -/

/-- A field that has just been opened. -/
def World.opened (written : FileName → ℕ) (seenOffsets : FileName → Option ℕ)
    (walCoverage : InstanceId → Option ℕ) : World F :=
  ⟨written, ⟨seenOffsets, ⟨[], fun _ => none⟩, walCoverage⟩, []⟩

namespace Peers

variable {W : Wire F} (P : Peers W)

/-- What a replay finds: the segments of the peers, in the log's lineage, each standing as `n` tells,
and segments of the log itself without records. -/
structure ReplaySees (log : LogView) (dir : SegDir) (n : FileName → ℕ) : Prop where
  named : ∀ name ∈ P.names, isValidSegmentName name = true
  lineage : ∀ name ∈ P.names, isForeign log (P.stream name).header = false
  stands : ∀ name ∈ P.names, (P.stream name).StandsAt (dir.read name) (n name)
  own : ∀ name ∈ collectAllSegments dir, name ∉ P.names → ∃ file, dir.read name = some file ∧
    isForeign log file = false ∧ SegmentFile W file []

variable {P}

variable {n : FileName → ℕ}

/-- Startup replay applies the complete records of all peers. -/
lemma ReplaySees.replay {dir : SegDir} (h : P.ReplaySees log dir n) :
    ∃ r, (replayCertified W log none dir).result = .ok r ∧
      (r.handed.map fun o => (o.1, o.2.2)).Perm
        (P.handed (fun _ => 0) fun name => (P.stream name).complete (n name)) := by
  let recs : FileName → List (ℕ × Op F) := fun name =>
    if name ∈ P.names then (P.stream name).recs 0 ((P.stream name).complete (n name)) else []
  have hadmitted : ∀ name ∈ collectAllSegments dir, ∃ file, dir.read name = some file ∧
      isForeign log file = false ∧ SegmentFile W file (recs name) := by
    intro name hname
    by_cases hpeer : name ∈ P.names
    · obtain ⟨file, hfile⟩ := Option.isSome_iff_exists.mp (mem_collectAllSegments.mp hname).1
      have hstands := h.stands name hpeer
      rw [hfile] at hstands
      simp only [recs, hpeer, if_true]
      exact ⟨file, hfile, hstands.not_foreign (h.lineage name hpeer), hstands.segmentFile⟩
    · simp only [recs, hpeer, if_false]
      exact h.own name hname hpeer
  have hall : admittedSegments log dir = collectAllSegments dir := by
    refine List.filter_eq_self.mpr fun name hname => ?_
    obtain ⟨file, hfile, hforeign, -⟩ := hadmitted name hname
    simp [hfile, hforeign]
  obtain ⟨m, hresult, hstamper⟩ := replayCertified_collected W log none dir recs
    (fun name hname => by
      rw [hall] at hname
      obtain ⟨file, hfile, -, hseg⟩ := hadmitted name hname
      exact ⟨file, hfile, hseg⟩)
    (fun name hname hnot => by
      rw [hall] at hnot
      exact absurd hname hnot)
  rw [visibleSegments_none] at hstamper
  refine ⟨_, hresult, ((Merge.finish_handed_perm none hstamper).map _).trans ?_⟩
  have hops : (segmentOps recs (admittedSegments log dir)).map (fun o => (o.1, o.2.2)) =
      (collectAllSegments dir).flatMap fun name => (recs name).map fun r => (instOf name, r.2) := by
    rw [hall, segmentOps, List.map_flatMap]
    simp [Function.comp_def]
  have hhanded : P.handed (fun _ => 0) (fun name => (P.stream name).complete (n name)) =
      P.names.flatMap fun name => (recs name).map fun r => (instOf name, r.2) := by
    refine List.flatMap_congr fun name hname => ?_
    simp only [recs, hname, if_true]
  rw [hops, hhanded]
  refine Lists.flatMap_perm ((collectAllSegments_sorted dir).imp fun h => h.ne) P.nodup
    fun name hne => ?_
  -- a segment that is not there has no records, and neither has one of the log itself
  have hpeer : name ∈ P.names := by
    by_contra hpeer
    simp [recs, hpeer] at hne
  refine ⟨fun _ => hpeer, fun _ => mem_collectAllSegments.mpr ⟨?_, h.named name hpeer⟩⟩
  have hstands := h.stands name hpeer
  cases hread : dir.read name with
  | some file => rfl
  | none =>
    rw [hread] at hstands
    have hzero := hstands.eq_zero
    simp [recs, hzero, Stream.complete_eq_zero] at hne

/-- Replay leaves every segment with the bytes that are written for good. -/
lemma ReplaySees.left {dir : SegDir} (h : P.ReplaySees log dir n) {name : FileName}
    (hname : name ∈ P.names) :
    (((replayCertified W log none dir).dir.read name).map List.length).getD 0 = n name := by
  obtain ⟨r, hresult, -⟩ := h.replay
  obtain ⟨m, hloop, hdir, -⟩ := exists_loop_of_replayCertified W hresult
  have hstands := h.stands name hname
  rw [hdir]
  cases hread : dir.read name with
  | none =>
    have hnone := Merge.loop_read_none W log (fun _ => none) (collectAllSegments dir)
      (m := Merge.start dir []) hread
    rw [hloop] at hnone
    rw [hread] at hstands
    rw [hnone, hstands.eq_zero]
    rfl
  | some file =>
    rw [hread] at hstands
    obtain ⟨head, -, hfile⟩ := Merge.loop_read_file W log
      (hstands.not_foreign (h.lineage name hname))
      ((collectAllSegments_sorted dir).imp fun h => h.ne)
      (mem_collectAllSegments.mpr ⟨by simp [hread], h.named name hname⟩)
      (m := Merge.start dir []) hread hloop
    rw [hfile, (hstands.replay name head).2.1, Option.map_some, Option.getD_some,
      hstands.length_view]

/-- If nothing was written between the replay and the seeding, the field is open behind the records
that the replay applied. -/
lemma ReplaySees.opened {dir dir' : SegDir} (h : P.ReplaySees log dir n)
    (hseed : ∀ name ∈ P.names, dir'.read name = (replayCertified W log none dir).dir.read name)
    (walCoverage : InstanceId → Option ℕ) : P.Opened (fun name => (P.stream name).complete (n name))
      (.opened n (loadSeenOffsets none dir') walCoverage) where
  applied := rfl
  pending := rfl
  start_le name _ := (P.stream name).complete_le _
  written name hname := (h.stands name hname).boundary_eq
  seen name hname := by
    have hleft := h.left hname
    rw [← hseed name hname] at hleft
    exact hleft

end Peers

/-- Every record of a peer is applied exactly once, by the startup replay or by a later sync, and the
offsets are seeded where the replay stopped, if each segment stood behind a record or its writer had
died, and nothing was written between the replay and the seeding. -/
theorem open_hands_off {W : Wire F} (P : Peers W) {log : LogView} {dir dir' : SegDir}
    {n : FileName → ℕ} (hsees : P.ReplaySees log dir n)
    (hseed : ∀ name ∈ P.names, dir'.read name = (replayCertified W log none dir).dir.read name) :
    ∃ r, (replayCertified W log none dir).result = .ok r ∧
      (∀ name ∈ P.names, ∀ file, dir.read name = some file → ∀ head,
        ∃ count, (replaySegmentInventoried W name file 0 head).delivered =
            (P.stream name).recs 0 count ∧
          P.SeenAt (loadSeenOffsets none dir') name count) ∧
      ∀ steps, P.Follows (.opened n (loadSeenOffsets none dir') r.coverage) steps →
        let w := (World.opened n (loadSeenOffsets none dir') r.coverage).run W steps
        (∃ pos, (∀ name ∈ P.names, P.SeenAt w.sync.seenOffsets name (pos name)) ∧
          (r.handed.map (fun o => (o.1, o.2.2)) ++
            (w.applied ++ w.sync.pendingForeign.ops)).Perm (P.handed (fun _ => 0) pos)) ∧
        ∀ segs read, segs.Nodup →
          (∀ name ∈ segs, name ∈ P.names ∧
            read name = .ok ((P.stream name).view (w.written name))) →
          (∀ name ∈ P.names, name ∉ segs → w.written name = 0) →
          (r.handed.map (fun o => (o.1, o.2.2)) ++
            ((w.step W (.collect (.ok segs) read)).step W .apply).applied).Perm
              (P.handed (fun _ => 0) fun name => (P.stream name).complete (w.written name)) := by
  obtain ⟨r, hresult, hreplayed⟩ := hsees.replay
  have hopened := hsees.opened hseed r.coverage
  refine ⟨r, hresult, fun name hname file hfile head => ?_, fun steps hsteps => ?_⟩
  · have hstands := hsees.stands name hname
    rw [hfile] at hstands
    refine ⟨_, (hstands.replay name head).1, ?_⟩
    exact (hopened.synced P).seen name hname
  · obtain ⟨pos, hsynced⟩ := (hopened.synced P).run P hsteps
    intro w
    have hjoin : ∀ {ops : List (InstanceId × Op F)} {pos' : FileName → ℕ},
        ops.Perm (P.handed (fun name => (P.stream name).complete (n name)) pos') →
        (∀ name ∈ P.names, (P.stream name).complete (n name) ≤ pos' name) →
        (r.handed.map (fun o => (o.1, o.2.2)) ++ ops).Perm (P.handed (fun _ => 0) pos') := by
      intro ops pos' hops hle
      refine (hreplayed.append hops).trans (P.handed_trans (fun _ _ => Nat.zero_le _) hle ?_)
      exact fun name _ => (P.stream name).complete_le _
    refine ⟨⟨pos, hsynced.seen, hjoin hsynced.ops hsynced.start_le⟩, ?_⟩
    intro segs read hnodup hread hempty
    refine hjoin (hsynced.complete P hnodup hread hempty) fun name hname => ?_
    exact (hsynced.start_le name hname).trans (hsynced.le_complete name hname)

/-! ## Peers that write while the field is opened -/

/-- The segments of two peers and of the log itself, without records. -/
def openingDir : SegDir :=
  ((SegDir.empty.write (segmentPath 1 1) (headerV3 1 zeroHash 0)).write (segmentPath 2 1)
    (headerV3 1 zeroHash 0)).write (segmentPath 3 1) (headerV3 1 zeroHash 0)

lemma openingDir_sees : twoPeers.ReplaySees sampleLog openingDir fun _ => 56 where
  named := by decide +kernel
  lineage := by decide +kernel
  stands := by
    have hread : ∀ name ∈ twoPeers.names, openingDir.read name =
        some ((twoPeers.stream name).view ((twoPeers.stream name).offset 0)) := by
      decide +kernel
    have hoffset : ∀ name ∈ twoPeers.names, 56 = (twoPeers.stream name).offset 0 := by
      decide +kernel
    intro name hname
    rw [hread name hname, hoffset name hname]
    exact .boundary (Nat.zero_le _)
  own := by
    have hlisted : collectAllSegments openingDir = twoPeers.names ++ [segmentPath 3 1] := by
      decide +kernel
    intro name hname hpeer
    rw [hlisted] at hname
    obtain rfl := List.mem_singleton.mp ((List.mem_append.mp hname).resolve_left hpeer)
    refine ⟨headerV3 1 zeroHash 0, by decide +kernel, by decide +kernel, ?_⟩
    have hchained := (deletionStream 1 (by decide)).chained
    exact hchained.segmentFile_encodeAll
      (by simp : ∀ e ∈ ([] : List (Entry ℚ)), e.Valid (Reference.wire ℚ))

/-- The directory when the offsets are seeded: instance `1` has appended its deletion. -/
def appendedDir : SegDir :=
  openingDir.write (segmentPath 1 1) ((twoPeers.stream (segmentPath 1 1)).view 122)

/-- What the peers have written by then. -/
def appendedBytes (name : FileName) : ℕ := if name = segmentPath 1 1 then 122 else 56

/-- The deletion that is appended between the replay and the seeding is never applied. -/
theorem append_while_opening_dropped :
    twoPeers.ReplaySees sampleLog openingDir (fun _ => 56) ∧
      (replayCertified (Reference.wire ℚ) sampleLog none openingDir).result.toOption.map
        (·.handed.map Prod.fst) = some [] ∧
      ((World.opened appendedBytes (loadSeenOffsets none appendedDir) fun _ => none).run
        (Reference.wire ℚ) [.collect (.ok twoPeers.names)
          (fun name => .ok ((twoPeers.stream name).view (appendedBytes name))),
          .apply]).applied.map Prod.fst = [] ∧
      (twoPeers.handed (fun _ => 0) fun name => (twoPeers.stream name).complete
        (appendedBytes name)).map Prod.fst = [1] :=
  ⟨openingDir_sees, by decide +kernel, by decide +kernel, by decide +kernel⟩

/-- Deletions that are appended after the seeding are applied. -/
theorem open_hands_off_quiet :
    ∃ r, (replayCertified (Reference.wire ℚ) sampleLog none openingDir).result = .ok r ∧
      let w := (World.opened (fun _ => 56) (loadSeenOffsets none openingDir) r.coverage).run
        (Reference.wire ℚ) [.write (segmentPath 1 1) 66, .write (segmentPath 2 1) 66]
      (r.handed.map (fun o => (o.1, o.2.2)) ++
        ((w.step (Reference.wire ℚ) (.collect (.ok twoPeers.names) readAll)).step
          (Reference.wire ℚ) .apply).applied).Perm
        (twoPeers.handed (fun _ => 0) fun name =>
          (twoPeers.stream name).complete (w.written name)) := by
  have hleft : ∀ name ∈ twoPeers.names, openingDir.read name =
      (replayCertified (Reference.wire ℚ) sampleLog none openingDir).dir.read name := by
    decide +kernel
  obtain ⟨r, hresult, -, hruns⟩ := open_hands_off twoPeers openingDir_sees hleft
  refine ⟨r, hresult, ?_⟩
  refine (hruns [.write (segmentPath 1 1) 66, .write (segmentPath 2 1) 66]
    ⟨trivial, trivial, trivial, trivial, trivial⟩).2 twoPeers.names readAll twoPeers.nodup
    (fun name hname => ⟨hname, ?_⟩) (fun name hname hmem => absurd hname hmem)
  rcases List.mem_pair.mp hname with rfl | rfl <;> rfl

end ChittaField
