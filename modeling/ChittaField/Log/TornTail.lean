import ChittaField.Log.Merge

/-!
# Torn tails and interior damage

A segment whose last write was cut short ends in a proper prefix of a record.  The reader cuts the
prefix off if it holds a complete length field, and leaves it in place otherwise
(`replaySegment_tail`).

A record in the middle of a segment can be damaged too.  Such damage must stop the replay and leave
the file alone: the records behind the damaged one are intact.  `NoInteriorLoss` states this, and
`replaySegment_interior_damage_iff` says exactly when the reader does it.  The length field decides:
damage to it that moves the end of the record to or beyond the end of the file looks like a torn
tail, and everything from the damaged record on is cut off.
-/

namespace ChittaField

variable {F : Type}

/-! ## The end of the walk -/

lemma walk_of_length_lt_four (W : Wire F) (version startSeqno fileLen : ℕ) {bs : Bytes}
    (h : bs.length < 4) (st : Walk F) :
    walk W version startSeqno fileLen bs st = (st, .complete) := by
  rw [walk_eq, (readFrame_eof_iff bs).mpr h]

lemma walk_of_torn (W : Wire F) {version : ℕ} (startSeqno fileLen : ℕ) {bs : Bytes}
    (h : readFrame version bs = .torn) (st : Walk F) :
    walk W version startSeqno fileLen bs st = (st, .torn (fileLen - bs.length)) := by
  rw [walk_eq, h]

/-- Replay of a segment that ends in the beginning of a record: the records in front are delivered,
and the beginning is cut off if it reaches beyond the length field. -/
lemma replaySegment_tail (W : Wire F) (name : FileName) {version firstSeqno : ℕ} {hdr : Bytes}
    (hhdr : ChainedHeader version firstSeqno hdr) {es : List (Entry F)}
    (hes : ∀ e ∈ es, e.Valid W) {tail : Bytes}
    (htail : tail.length < 4 ∨ readFrame version tail = .torn) (chainHead : ChainHash) :
    let res := replaySegmentInventoried W name (hdr ++ (encodeAll W (records es) ++ tail)) 0
      chainHead
    res.delivered = es.map (fun e => (e.record.seqno, e.op)) ∧
      res.file = hdr ++ (encodeAll W (records es) ++ if tail.length < 4 then tail else []) ∧
      ∃ certificate, res.result = .ok (chainTip W chainHead es, certificate) := by
  intro res
  have hst := Walk.acceptAll_delivered W hdr.length es (Walk.start chainHead hdr.length)
  have hchain := Walk.acceptAll_chainHead W hdr.length es (Walk.start chainHead hdr.length)
  simp only [res, replaySegment_encodeAll W name hhdr hes]
  by_cases h4 : tail.length < 4
  · rw [walk_of_length_lt_four W _ _ _ h4]
    simp only [SegmentReplay.ofWalk, hst, hchain, h4, if_true]
    exact ⟨rfl, trivial, _, rfl⟩
  · rw [walk_of_torn W _ _ (htail.resolve_left h4)]
    simp only [SegmentReplay.ofWalk, hst, hchain, h4, if_false, List.append_nil]
    refine ⟨rfl, ?_, _, rfl⟩
    rw [← List.append_assoc]
    exact List.take_left' (by simp only [List.length_append]; omega)

/-! ## Interior damage -/

/-- The reader accepts the record at the front of `bs`. -/
def Checks (W : Wire F) (version startSeqno : ℕ) (bs : Bytes) : Prop :=
  ∃ f rest, readFrame version bs = .frame f rest ∧ f.computedCrc W version = f.storedCrc ∧
    (f.seqno < startSeqno ∨ ∃ op, decodeOp W f = .ok op)

/-- Replay of a segment with a damaged record loses nothing: it fails, leaves the bytes of the file
alone, and cuts off no bytes that hold an intact record. -/
structure NoInteriorLoss (W : Wire F) (file : Bytes) (intact : List (Entry F))
    (res : SegmentReplay F) : Prop where
  fails : ∃ e, res.result = .error e
  unchanged : res.file = file
  cut_clean : ∀ cut, file = res.file ++ cut → cut ≠ [] →
    ∀ e ∈ intact, ¬ e.record.encode W <:+: cut

/-- The length field of the record at the front of `bs` keeps the record clear of the end of the
file, or it ends there and its checksum matches. -/
def StaysInside (W : Wire F) (version : ℕ) (bs : Bytes) : Prop :=
  recordOverhead + beNat (bs.take 4) < bs.length ∨
    recordOverhead + beNat (bs.take 4) = bs.length ∧
      ∃ f rest, readFrame version bs = .frame f rest ∧ f.computedCrc W version = f.storedCrc

/-- The walk fails on a damaged record that stays inside the file and cuts it off otherwise. -/
lemma walk_damaged (W : Wire F) {version : ℕ} (hv : 2 ≤ version) (startSeqno fileLen : ℕ)
    {bs : Bytes} (h4 : 4 ≤ bs.length) (hbad : ¬ Checks W version startSeqno bs) (st : Walk F) :
    (StaysInside W version bs → ∃ st' e,
      walk W version startSeqno fileLen bs st = (st', .failed e)) ∧
    (¬ StaysInside W version bs →
      walk W version startSeqno fileLen bs st = (st, .torn (fileLen - bs.length))) := by
  cases hread : readFrame version bs with
  | eof => exact absurd ((readFrame_eof_iff bs).mp hread) (by omega)
  | torn =>
    have hlen := ((readFrame_torn_iff hv bs).mp hread).2
    refine ⟨fun hin => ?_, fun _ => walk_of_torn W _ _ hread st⟩
    rcases hin with hin | ⟨hin, -⟩ <;> omega
  | frame f rest =>
    obtain ⟨hle, hrest⟩ := readFrame_frame_rest hv hread
    have hempty : rest = [] ↔ recordOverhead + beNat (bs.take 4) = bs.length := by
      rw [hrest, List.drop_eq_nil_iff]
      omega
    rw [walk_eq, hread]
    by_cases hcrc : f.computedCrc W version = f.storedCrc
    · -- a matching checksum leaves the decoding as the only thing that can be wrong
      have hin : StaysInside W version bs := by
        rcases hle.lt_or_eq with hlt | heq
        · exact Or.inl hlt
        · exact Or.inr ⟨heq, f, rest, hread, hcrc⟩
      have hseq : ¬ f.seqno < startSeqno := fun hs => hbad ⟨f, rest, hread, hcrc, Or.inl hs⟩
      refine ⟨fun _ => ?_, fun hout => absurd hin hout⟩
      simp only [hcrc, ne_eq, not_true_eq_false, if_false, hseq]
      cases hdec : decodeOp W f with
      | error e => exact ⟨_, _, rfl⟩
      | ok op => exact absurd ⟨f, rest, hread, hcrc, Or.inr ⟨op, hdec⟩⟩ hbad
    · have hiff : StaysInside W version bs ↔ rest ≠ [] := by
        rw [Ne, hempty]
        constructor
        · rintro (hlt | ⟨-, f', rest', hread', hcrc'⟩)
          · omega
          · rw [hread] at hread'
            cases hread'
            exact absurd hcrc' hcrc
        · intro hne
          exact Or.inl (by omega)
      rw [hiff]
      simp only [hcrc, ne_eq, not_false_eq_true, if_true, List.isEmpty_iff]
      constructor
      · intro hne
        rw [if_neg hne]
        exact ⟨_, _, rfl⟩
      · intro he
        rw [if_pos (not_not.mp he)]

/-- Behind the last record that checks, the walk finds no further record or fails. -/
lemma records_nil_or_failed (W : Wire F) {version : ℕ} {bs : Bytes}
    (hbad : ¬ Checks W version 0 bs) :
    Records W version bs [] ∨
      ∀ fileLen st, ∃ st' e, walk W version 0 fileLen bs st = (st', .failed e) := by
  cases hread : readFrame version bs with
  | eof => exact Or.inl (.done ((readFrame_eof_iff bs).mp hread))
  | torn => exact Or.inl (.torn hread)
  | frame f rest =>
    by_cases hcrc : f.computedCrc W version = f.storedCrc
    · refine Or.inr fun fileLen st => ?_
      rw [walk_eq, hread]
      simp only [hcrc, ne_eq, not_true_eq_false, if_false, Nat.not_lt_zero]
      cases hdec : decodeOp W f with
      | error e => exact ⟨_, _, rfl⟩
      | ok op => exact absurd ⟨f, rest, hread, hcrc, Or.inr ⟨op, hdec⟩⟩ hbad
    · cases rest with
      | nil => exact Or.inl (.tornCrc hread hcrc)
      | cons b rest =>
        refine Or.inr fun fileLen st => ?_
        rw [walk_eq, hread]
        simp only [hcrc, ne_eq, not_false_eq_true, if_true, List.isEmpty_cons, Bool.false_eq_true,
          if_false]
        exact ⟨_, _, rfl⟩

/-- Damage inside a record with the records `back` behind it is caught exactly when the length
field, as it now reads, keeps the record inside the file. -/
theorem replaySegment_interior_damage_iff (W : Wire F) (name : FileName)
    {version firstSeqno : ℕ} {hdr : Bytes} (hhdr : ChainedHeader version firstSeqno hdr)
    {front back : List (Entry F)} {hit : Entry F} (hfront : ∀ e ∈ front, e.Valid W)
    {damaged : Bytes} (hlen : damaged.length = (hit.record.encode W).length) (startSeqno : ℕ)
    (chainHead : ChainHash)
    (hbad : ¬ Checks W version startSeqno (damaged ++ encodeAll W (records back))) :
    let file := hdr ++ (encodeAll W (records front) ++ (damaged ++ encodeAll W (records back)))
    NoInteriorLoss W file (front ++ back)
        (replaySegmentInventoried W name file startSeqno chainHead) ↔
      StaysInside W version (damaged ++ encodeAll W (records back)) := by
  intro file
  have h4 : 4 ≤ (damaged ++ encodeAll W (records back)).length := by
    rw [List.length_append, hlen, Record.length_encode, recordOverhead]
    omega
  obtain ⟨st, hwalk⟩ := exists_walk_encodeAll W hhdr.two_le hfront
    (damaged ++ encodeAll W (records back)) (Walk.start chainHead hdr.length)
  obtain ⟨hin, hout⟩ := walk_damaged W hhdr.two_le startSeqno file.length h4 hbad st
  have hres : replaySegmentInventoried W name file startSeqno chainHead =
      .ofWalk name file startSeqno firstSeqno (walk W version startSeqno file.length
        (damaged ++ encodeAll W (records back)) st) := by
    rw [← hwalk, ← replaySegment_header W name hhdr]
  rw [hres]
  constructor
  · intro hloss
    by_contra hnot
    obtain ⟨e, he⟩ := hloss.fails
    rw [hout hnot] at he
    cases he
  · intro hstay
    obtain ⟨st', e, hst⟩ := hin hstay
    rw [hst]
    refine ⟨⟨e, rfl⟩, rfl, ?_⟩
    intro cut hcut hne'
    exact absurd (List.self_eq_append_right.mp hcut) hne'

/-- Two records of one segment. -/
def sampleFirst : Entry ℚ := Reference.deletion ℚ 1 7 3 zeroHash

/-- The second of the two records. -/
def sampleSecond : Entry ℚ := Reference.deletion ℚ 2 8 4 zeroHash

lemma sampleFirst_valid : sampleFirst.Valid (Reference.wire ℚ) :=
  Reference.deletion_valid ℚ (by decide) (by decide) (by decide) _

lemma sampleSecond_valid : sampleSecond.Valid (Reference.wire ℚ) :=
  Reference.deletion_valid ℚ (by decide) (by decide) (by decide) _

/-- The first record with one byte overwritten. -/
def sampleDamaged (i : ℕ) (b : UInt8) : Bytes :=
  (sampleFirst.record.encode (Reference.wire ℚ)).set i b

/-- A damaged byte of the length field makes the reader cut off the intact record behind it. -/
theorem replaySegment_interior_damage_lost :
    let W := Reference.wire ℚ
    let tail := sampleDamaged 2 1 ++ encodeAll W (records [sampleSecond])
    let file := headerV3 1 zeroHash 0 ++ tail
    sampleFirst.Valid W ∧ sampleSecond.Valid W ∧ ¬ Checks W 3 0 tail ∧
      ¬ NoInteriorLoss W file [sampleSecond]
        (replaySegmentInventoried W "00000001_000000000001.seg".toList file 0 zeroHash) := by
  refine ⟨sampleFirst_valid, sampleSecond_valid, ?_, ?_⟩
  · rintro ⟨f, rest, hread, -⟩
    rw [(readFrame_torn_iff (by decide) _).mpr (by decide +kernel)] at hread
    cases hread
  · intro h
    have hlen := congrArg List.length h.unchanged
    revert hlen
    decide +kernel

/-- A damaged byte of the payload stops the replay and leaves the file alone. -/
theorem replaySegment_interior_damage_caught :
    let W := Reference.wire ℚ
    let tail := sampleDamaged 50 9 ++ encodeAll W (records [sampleSecond])
    let file := headerV3 1 zeroHash 0 ++ tail
    NoInteriorLoss W file [sampleSecond]
      (replaySegmentInventoried W "00000001_000000000001.seg".toList file 0 zeroHash) := by
  intro W tail file
  have hbad : ¬ Checks W 3 0 tail := by
    rintro ⟨f, rest, hread, hcrc, -⟩
    have hne : (match readFrame 3 tail with
        | .frame f _ => decide (f.computedCrc W 3 ≠ f.storedCrc)
        | _ => false) = true := by
      decide +kernel
    rw [hread] at hne
    exact of_decide_eq_true hne hcrc
  have hfront : ∀ e ∈ ([] : List (Entry ℚ)), e.Valid W := by simp
  have hlen : (sampleDamaged 50 9).length = (sampleFirst.record.encode W).length := by
    simp [sampleDamaged, W]
  exact (replaySegment_interior_damage_iff W _ (.v3 (by decide) zeroHash 0) hfront hlen 0 zeroHash
    hbad).mpr (Or.inl (by decide +kernel))

end ChittaField
