import ChittaField.Log.Format

/-!
# Replaying a segment file

`replaySegmentInventoried` is the reader that startup replay walks every segment with.  It verifies
the checksum of each record, extends the hash chain, hands the decoded operations on in file order,
cuts off what it takes for a torn tail and certifies a segment that it decoded to the end.

The reader tells a torn tail from interior corruption by whether the file ends in the record, and
where a record ends is read from its length field, which no checksum covers.
-/

namespace ChittaField

/-- A file name. -/
abbrev FileName := List Char

/-- The errors of the log. -/
inductive FieldError where
  | io (msg : String)
  | serialization (msg : String)
  | manifest (msg : String)
  | crcMismatch (seqno expected actual : ℕ)
  | corruptLog (seqno : ℕ) (reason : String)
  | notFound (id : MemoryId)
  | deleted (id : MemoryId)
  | invalidEmbedDim (expected actual : ℕ)
  deriving DecidableEq, Repr

/-- An entry of the segment inventory: what a segment is certified to hold. -/
structure SegmentInfo where
  path : FileName
  firstSeqno : ℕ
  lastSeqno : ℕ
  sizeBytes : ℕ
  deriving DecidableEq, Repr

/-! ## Headers -/

/-- `CFLOG001` -/
def segmentMagic : Bytes := [0x43, 0x46, 0x4c, 0x4f, 0x47, 0x30, 0x30, 0x31]

/-- `CFLOG002` -/
def segmentMagicV2 : Bytes := [0x43, 0x46, 0x4c, 0x4f, 0x47, 0x30, 0x30, 0x32]

/-- `CFLOG003` -/
def segmentMagicV3 : Bytes := [0x43, 0x46, 0x4c, 0x4f, 0x47, 0x30, 0x30, 0x33]

/-- The format version of a segment. -/
def segmentVersion (magic : Bytes) : Option ℕ :=
  if magic = segmentMagic then some 1
  else if magic = segmentMagicV2 then some 2
  else if magic = segmentMagicV3 then some 3
  else none

/-- The header of a V2 segment. -/
def headerV2 (firstSeqno : ℕ) (chainHead : ChainHash) : Bytes :=
  segmentMagicV2 ++ beBytes 8 firstSeqno ++ chainHead.1

/-- The header of a V3 segment. -/
def headerV3 (firstSeqno : ℕ) (chainHead : ChainHash) (vectorSpaceId : ℕ) : Bytes :=
  segmentMagicV3 ++ beBytes 8 firstSeqno ++ chainHead.1 ++ beBytes 8 vectorSpaceId

/-- The size of a V3 header. -/
def v3HeaderSize : ℕ := 56

@[simp] lemma length_headerV3 (firstSeqno : ℕ) (chainHead : ChainHash) (vectorSpaceId : ℕ) :
    (headerV3 firstSeqno chainHead vectorSpaceId).length = v3HeaderSize := by
  simp [headerV3, segmentMagicV3, chainHead.2, v3HeaderSize]

/-- What a reader finds at the start of a segment file. -/
inductive HeaderRead where
  | short
  | badMagic
  | header (version firstSeqno : ℕ) (rest : Bytes)

/-- Read a segment header.  The stored chain head is only compared for a warning. -/
def readHeader (bs : Bytes) : HeaderRead :=
  match readExact 8 bs with
  | none => .short
  | some (magic, bs) =>
    match segmentVersion magic with
    | none => .badMagic
    | some version =>
      match readExact 8 bs with
      | none => .short
      | some (firstSeqnoBuf, bs) =>
        if 2 ≤ version then
          match readHash bs with
          | none => .short
          | some (_, bs) =>
            if version = 3 then
              match readExact 8 bs with
              | none => .short
              | some (_, bs) => .header version (beNat firstSeqnoBuf) bs
            else .header version (beNat firstSeqnoBuf) bs
        else .header version (beNat firstSeqnoBuf) bs

lemma readHeader_headerV2 {firstSeqno : ℕ} (h : firstSeqno < 256 ^ 8) (chainHead : ChainHash)
    (rest : Bytes) :
    readHeader (headerV2 firstSeqno chainHead ++ rest) = .header 2 firstSeqno rest := by
  simp only [readHeader, headerV2, List.append_assoc]
  rw [readExact_append (n := 8) (a := segmentMagicV2) rfl]
  simp only [show segmentVersion segmentMagicV2 = some 2 by decide]
  rw [readExact_append (length_beBytes 8 _)]
  simp [readHash_append, beNat_beBytes h]

lemma readHeader_headerV3 {firstSeqno : ℕ} (h : firstSeqno < 256 ^ 8) (chainHead : ChainHash)
    (vectorSpaceId : ℕ) (rest : Bytes) :
    readHeader (headerV3 firstSeqno chainHead vectorSpaceId ++ rest) =
      .header 3 firstSeqno rest := by
  simp only [readHeader, headerV3, List.append_assoc]
  rw [readExact_append (n := 8) (a := segmentMagicV3) rfl]
  simp only [show segmentVersion segmentMagicV3 = some 3 by decide]
  rw [readExact_append (length_beBytes 8 _)]
  simp only [readHash_append, show 2 ≤ 3 by decide, if_true]
  rw [readExact_append (length_beBytes 8 _)]
  simp [beNat_beBytes h]

/-! ## The walk over the records -/

/-- The state of the walk over the records of one segment. -/
structure Walk (F : Type) where
  chainHead : ChainHash
  first : Option ℕ
  last : Option ℕ
  ordered : Bool
  decodedEnd : ℕ
  delivered : List (ℕ × Op F)

/-- How a walk ends: at the end of the file, at a tail to cut off at an offset, or with an error. -/
inductive WalkEnd where
  | complete
  | torn (goodOffset : ℕ)
  | failed (e : FieldError)

variable {F : Type}

/-- Decode the payload of a record whose checksum matched, and compare its discriminant. -/
def decodeOp (W : Wire F) (f : Frame) : Except FieldError (Op F) :=
  match W.fromSlice f.payload with
  | .error e => .error (.corruptLog f.seqno ("msgpack decode failed: " ++ e))
  | .ok op =>
    if opTypeByte op = f.opType then .ok op
    else .error (.corruptLog f.seqno ("op_type discriminant mismatch: stored " ++
      toString f.opType.toNat ++ ", decoded " ++ toString (opTypeByte op).toNat))

/-- The chain tip after a record. -/
def nextChainHead (W : Wire F) (version : ℕ) (chainHead : ChainHash) (f : Frame) : ChainHash :=
  if 2 ≤ version then computeRecordHash W f.seqno f.opType f.prevHash f.payload else chainHead

/-- The state after a record was handed on; `endOffset` is where it ends in the file. -/
def Walk.accept (st : Walk F) (seqno endOffset : ℕ) (op : Op F) : Walk F :=
  { st with
    ordered := st.ordered && st.last.all (· < seqno)
    first := st.first.or (some seqno)
    last := some seqno
    decodedEnd := endOffset
    delivered := st.delivered ++ [(seqno, op)] }

/-- The record loop with `fuel` rounds; `bs` are the bytes not read yet of a file of `fileLen`
bytes. -/
def walkFuel (W : Wire F) (version startSeqno fileLen : ℕ) :
    ℕ → Bytes → Walk F → Walk F × WalkEnd
  | 0, _, st => (st, .complete)
  | fuel + 1, bs, st =>
    match readFrame version bs with
    -- the length field is read on its own: a file that ends in it is not cut
    | .eof => (st, .complete)
    | .torn => (st, .torn (fileLen - bs.length))
    | .frame f rest =>
      if f.computedCrc W version ≠ f.storedCrc then
        -- a bad checksum on the last record of the file counts as a torn write
        if rest.isEmpty then (st, .torn (fileLen - bs.length))
        else (st, .failed (.crcMismatch f.seqno f.storedCrc (f.computedCrc W version)))
      else
        let st := { st with chainHead := nextChainHead W version st.chainHead f }
        if f.seqno < startSeqno then walkFuel W version startSeqno fileLen fuel rest st
        else
          match decodeOp W f with
          | .error e => (st, .failed e)
          | .ok op =>
            walkFuel W version startSeqno fileLen fuel rest
              (st.accept f.seqno (fileLen - rest.length) op)

/-- The record loop of a segment; every record takes at least four bytes, so the fuel suffices. -/
def walk (W : Wire F) (version startSeqno fileLen : ℕ) (bs : Bytes) (st : Walk F) :
    Walk F × WalkEnd :=
  walkFuel W version startSeqno fileLen (bs.length + 1) bs st

/-- The result of replaying one segment: the operations handed on, the bytes of the file
afterwards, and the chain tip with the certificate or the error. -/
structure SegmentReplay (F : Type) where
  delivered : List (ℕ × Op F)
  file : Bytes
  result : Except FieldError (ChainHash × Option SegmentInfo)

/-- The certificate of a segment that was decoded to its end. -/
def Walk.certificate (st : Walk F) (name : FileName) (startSeqno headerFirst fileLen : ℕ) :
    Option SegmentInfo :=
  if startSeqno = 0 ∧ st.ordered ∧ st.first.all (headerFirst ≤ ·) ∧ st.decodedEnd = fileLen then
    (st.last.or (if headerFirst = 0 then none else some (headerFirst - 1))).map fun lastSeqno =>
      ⟨"segments/".toList ++ name, headerFirst, lastSeqno, fileLen⟩
  else none

/-- The state of the walk behind a header that ends at `offset`. -/
def Walk.start (chainHead : ChainHash) (offset : ℕ) : Walk F :=
  ⟨chainHead, none, none, true, offset, []⟩

/-- What is left of a segment file when the walk over its records has ended. -/
def SegmentReplay.ofWalk (name : FileName) (file : Bytes) (startSeqno headerFirst : ℕ) :
    Walk F × WalkEnd → SegmentReplay F
  | (st, .complete) =>
    ⟨st.delivered, file,
      .ok (st.chainHead, st.certificate name startSeqno headerFirst file.length)⟩
  | (st, .torn goodOffset) => ⟨st.delivered, file.take goodOffset, .ok (st.chainHead, none)⟩
  | (st, .failed e) => ⟨st.delivered, file, .error e⟩

/-- Replay a segment file, cutting off a torn tail. -/
def replaySegmentInventoried (W : Wire F) (name : FileName) (file : Bytes) (startSeqno : ℕ)
    (chainHead : ChainHash) : SegmentReplay F :=
  match readHeader file with
  | .short => ⟨[], file, .ok (chainHead, none)⟩
  | .badMagic => ⟨[], file, .error (.manifest ("bad segment magic in " ++ String.ofList name))⟩
  | .header version headerFirst rest =>
    .ofWalk name file startSeqno headerFirst
      (walk W version startSeqno file.length rest
        (.start chainHead (file.length - rest.length)))

/-! ## The loop, one record at a time -/

lemma readExact_rest_le {n : ℕ} {bs a rest : Bytes} (h : readExact n bs = some (a, rest)) :
    rest.length ≤ bs.length := by
  unfold readExact at h
  split at h
  · cases h
    simp
  · cases h

lemma readHash_rest_le {bs rest : Bytes} {k : ChainHash} (h : readHash bs = some (k, rest)) :
    rest.length ≤ bs.length := by
  unfold readHash at h
  split at h
  · cases h
    simp
  · cases h

/-- A record that was read is followed by fewer bytes than there were before it. -/
lemma readFrame_rest_lt {version : ℕ} {bs rest : Bytes} {f : Frame}
    (h : readFrame version bs = .frame f rest) : rest.length < bs.length := by
  unfold readFrame at h
  split at h
  · cases h
  · rename_i lenBuf bs₁ hlen
    have h4 : bs₁.length + 4 = bs.length := by
      unfold readExact at hlen
      split at hlen
      · cases hlen; simp; omega
      · cases hlen
    split at h
    · cases h
    · rename_i f' rest' hfields
      cases h
      simp only [readFields, Option.bind_eq_bind, Option.bind_eq_some_iff, Prod.exists,
        Option.pure_def, Option.some.injEq, Prod.mk.injEq] at hfields
      obtain ⟨_, b₁, e₁, _, b₂, e₂, _, b₃, e₃, _, b₄, e₄, _, b₅, e₅, -, rfl⟩ := hfields
      have h₃ : b₃.length ≤ b₂.length := by
        unfold readPrevHash at e₃
        split at e₃
        · exact readHash_rest_le e₃
        · cases e₃; exact le_rfl
      have := readExact_rest_le e₁
      have := readExact_rest_le e₂
      have := readExact_rest_le e₄
      have := readExact_rest_le e₅
      omega

/-- Fuel beyond the length of the input changes nothing. -/
lemma walkFuel_eq_of_lt (W : Wire F) (version startSeqno fileLen : ℕ) {fuel fuel' : ℕ}
    {bs : Bytes} (h : bs.length < fuel) (h' : bs.length < fuel') (st : Walk F) :
    walkFuel W version startSeqno fileLen fuel bs st =
      walkFuel W version startSeqno fileLen fuel' bs st := by
  induction fuel generalizing fuel' bs st with
  | zero => omega
  | succ fuel ih =>
    cases fuel' with
    | zero => omega
    | succ fuel' =>
      simp only [walkFuel]
      cases hread : readFrame version bs with
      | eof => rfl
      | torn => rfl
      | frame f rest =>
        have hlt := readFrame_rest_lt hread
        have hrest : ∀ st : Walk F, walkFuel W version startSeqno fileLen fuel rest st =
            walkFuel W version startSeqno fileLen fuel' rest st :=
          fun st => ih (by omega) (by omega) st
        simp only [hrest]

/-- The record loop unfolded once. -/
lemma walk_eq (W : Wire F) (version startSeqno fileLen : ℕ) (bs : Bytes) (st : Walk F) :
    walk W version startSeqno fileLen bs st =
      match readFrame version bs with
      | .eof => (st, .complete)
      | .torn => (st, .torn (fileLen - bs.length))
      | .frame f rest =>
        if f.computedCrc W version ≠ f.storedCrc then
          if rest.isEmpty then (st, .torn (fileLen - bs.length))
          else (st, .failed (.crcMismatch f.seqno f.storedCrc (f.computedCrc W version)))
        else
          if f.seqno < startSeqno then
            walk W version startSeqno fileLen rest
              { st with chainHead := nextChainHead W version st.chainHead f }
          else
            match decodeOp W f with
            | .error e =>
              ({ st with chainHead := nextChainHead W version st.chainHead f }, .failed e)
            | .ok op =>
              walk W version startSeqno fileLen rest
                (Walk.accept { st with chainHead := nextChainHead W version st.chainHead f }
                  f.seqno (fileLen - rest.length) op) := by
  rw [walk, walkFuel]
  cases hread : readFrame version bs with
  | eof => rfl
  | torn => rfl
  | frame f rest =>
    have hlt := readFrame_rest_lt hread
    have hrest : ∀ st : Walk F, walkFuel W version startSeqno fileLen bs.length rest st =
        walk W version startSeqno fileLen rest st :=
      fun st => walkFuel_eq_of_lt W version startSeqno fileLen hlt (Nat.lt_succ_self _) st
    simp only [hrest]

/-! ## Valid records -/

/-- A record together with the operation its payload encodes. -/
structure Entry (F : Type) where
  record : Record
  op : Op F

/-- A record that the reader accepts: its fields fit, and its payload decodes to an operation of
the type the record names. -/
structure Entry.Valid (W : Wire F) (e : Entry F) : Prop where
  payload_lt : e.record.payload.length < 256 ^ 4
  seqno_lt : e.record.seqno < 256 ^ 8
  decodes : W.fromSlice e.record.payload = .ok e.op
  type_eq : opTypeByte e.op = e.record.opType

/-- The records of a list of entries. -/
def records (es : List (Entry F)) : List Record := es.map (·.record)

@[simp] lemma records_nil : records ([] : List (Entry F)) = [] := rfl

@[simp] lemma records_cons (e : Entry F) (es : List (Entry F)) :
    records (e :: es) = e.record :: records es := rfl

@[simp] lemma records_append (es es' : List (Entry F)) :
    records (es ++ es') = records es ++ records es' := by
  simp [records]

@[simp] lemma Record.toFrame_seqno (W : Wire F) {r : Record} (h : r.seqno < 256 ^ 8) :
    (r.toFrame W).seqno = r.seqno := beNat_beBytes h

/-- The checksum of a record that was written is the one stored with it. -/
lemma Record.toFrame_crc (W : Wire F) {version : ℕ} (hv : 2 ≤ version) (r : Record) :
    (r.toFrame W).computedCrc W version = (r.toFrame W).storedCrc := by
  have hbody : (r.toFrame W).body version = r.body := by
    simp [Frame.body, Record.toFrame, Record.body, hv]
  rw [Frame.computedCrc, hbody, Frame.storedCrc]
  exact (beNat_beBytes (by simpa using (W.crc32 r.body).toNat_lt)).symm

lemma Entry.Valid.decodeOp_eq {W : Wire F} {e : Entry F} (he : e.Valid W) :
    decodeOp W (e.record.toFrame W) = .ok e.op := by
  have hpayload : (e.record.toFrame W).payload = e.record.payload := rfl
  have hopType : (e.record.toFrame W).opType = e.record.opType := rfl
  simp [decodeOp, hpayload, hopType, he.decodes, he.type_eq]

/-- The state of the walk after a valid record. -/
def Walk.acceptEntry (W : Wire F) (st : Walk F) (e : Entry F) (endOffset : ℕ) : Walk F :=
  Walk.accept { st with
    chainHead := computeRecordHash W e.record.seqno e.record.opType e.record.prevHash
      e.record.payload } e.record.seqno endOffset e.op

/-- The state of the walk after valid records that start at `offset`. -/
def Walk.acceptAll (W : Wire F) : ℕ → List (Entry F) → Walk F → Walk F
  | _, [], st => st
  | offset, e :: es, st =>
    acceptAll W (offset + (e.record.encode W).length) es
      (st.acceptEntry W e (offset + (e.record.encode W).length))

/-- The walk passes a valid record. -/
lemma walk_entry (W : Wire F) {version : ℕ} (hv : 2 ≤ version) {startSeqno fileLen : ℕ}
    {e : Entry F} (he : e.Valid W) (rest : Bytes) (st : Walk F) :
    walk W version startSeqno fileLen (e.record.encode W ++ rest) st =
      walk W version startSeqno fileLen rest
        (if e.record.seqno < startSeqno then
          { st with
            chainHead := computeRecordHash W e.record.seqno e.record.opType e.record.prevHash
              e.record.payload }
        else st.acceptEntry W e (fileLen - rest.length)) := by
  have hchain : nextChainHead W version st.chainHead (e.record.toFrame W) =
      computeRecordHash W e.record.seqno e.record.opType e.record.prevHash e.record.payload := by
    rw [nextChainHead, if_pos hv, Record.toFrame_seqno W he.seqno_lt]
    rfl
  rw [walk_eq, readFrame_encode W hv he.payload_lt]
  simp only [Record.toFrame_crc W hv, ne_eq, not_true_eq_false, if_false,
    Record.toFrame_seqno W he.seqno_lt, hchain, he.decodeOp_eq]
  split <;> rfl

variable {es : List (Entry F)}

/-- The walk passes any number of valid records, whatever it then finds. -/
lemma exists_walk_encodeAll (W : Wire F) {version : ℕ} (hv : 2 ≤ version) {startSeqno fileLen : ℕ}
    (hes : ∀ e ∈ es, e.Valid W) (rest : Bytes) (st : Walk F) :
    ∃ st', walk W version startSeqno fileLen (encodeAll W (records es) ++ rest) st =
      walk W version startSeqno fileLen rest st' := by
  induction es generalizing st with
  | nil => exact ⟨st, rfl⟩
  | cons e es ih =>
    rw [records_cons, encodeAll_cons, List.append_assoc,
      walk_entry W hv (hes e List.mem_cons_self)]
    exact ih (List.forall_mem_cons.mp hes).2 _

/-- The walk from the first sequence number on accepts every valid record. -/
lemma walk_encodeAll (W : Wire F) {version : ℕ} (hv : 2 ≤ version) (hes : ∀ e ∈ es, e.Valid W)
    (offset : ℕ) (rest : Bytes) (st : Walk F) :
    walk W version 0 (offset + (encodeAll W (records es) ++ rest).length)
        (encodeAll W (records es) ++ rest) st =
      walk W version 0 (offset + (encodeAll W (records es) ++ rest).length) rest
        (st.acceptAll W offset es) := by
  induction es generalizing offset st with
  | nil => rfl
  | cons e es ih =>
    have hlen : offset + (encodeAll W (records (e :: es)) ++ rest).length =
        offset + (e.record.encode W).length + (encodeAll W (records es) ++ rest).length := by
      simp only [records_cons, encodeAll_cons, List.length_append]
      omega
    rw [hlen, records_cons, encodeAll_cons, List.append_assoc,
      walk_entry W hv (hes e List.mem_cons_self), if_neg (Nat.not_lt_zero _),
      Nat.add_sub_cancel]
    exact ih (List.forall_mem_cons.mp hes).2 _ _

/-- The chain tip after a list of entries. -/
def chainTip (W : Wire F) (chainHead : ChainHash) (es : List (Entry F)) : ChainHash :=
  es.foldl (fun _ e => computeRecordHash W e.record.seqno e.record.opType e.record.prevHash
    e.record.payload) chainHead

lemma Walk.acceptAll_delivered (W : Wire F) (offset : ℕ) (es : List (Entry F)) (st : Walk F) :
    (st.acceptAll W offset es).delivered =
      st.delivered ++ es.map fun e => (e.record.seqno, e.op) := by
  induction es generalizing offset st with
  | nil => simp [acceptAll]
  | cons e es ih => simp [acceptAll, ih, acceptEntry, accept]

lemma Walk.acceptAll_chainHead (W : Wire F) (offset : ℕ) (es : List (Entry F)) (st : Walk F) :
    (st.acceptAll W offset es).chainHead = chainTip W st.chainHead es := by
  induction es generalizing offset st with
  | nil => rfl
  | cons e es ih => simp [acceptAll, ih, acceptEntry, accept, chainTip]

/-! ## Whole segments -/

/-- The headers of the chained formats, with the version and the first sequence number. -/
inductive ChainedHeader : ℕ → ℕ → Bytes → Prop
  | v2 {firstSeqno : ℕ} (h : firstSeqno < 256 ^ 8) (chainHead : ChainHash) :
    ChainedHeader 2 firstSeqno (headerV2 firstSeqno chainHead)
  | v3 {firstSeqno : ℕ} (h : firstSeqno < 256 ^ 8) (chainHead : ChainHash) (vectorSpaceId : ℕ) :
    ChainedHeader 3 firstSeqno (headerV3 firstSeqno chainHead vectorSpaceId)

variable {version firstSeqno : ℕ} {hdr : Bytes}

lemma ChainedHeader.two_le (h : ChainedHeader version firstSeqno hdr) : 2 ≤ version := by
  cases h <;> decide

lemma ChainedHeader.length_eq (h : ChainedHeader version firstSeqno hdr) :
    hdr.length = 48 ∨ hdr.length = v3HeaderSize := by
  cases h with
  | v2 h chainHead => simp [headerV2, segmentMagicV2, chainHead.2]
  | v3 => simp

lemma ChainedHeader.readHeader_eq (h : ChainedHeader version firstSeqno hdr) (rest : Bytes) :
    readHeader (hdr ++ rest) = .header version firstSeqno rest := by
  cases h with
  | v2 h chainHead => exact readHeader_headerV2 h chainHead rest
  | v3 h chainHead vsid => exact readHeader_headerV3 h chainHead vsid rest

/-- The reader behind a chained header. -/
lemma replaySegment_header (W : Wire F) (name : FileName)
    (hhdr : ChainedHeader version firstSeqno hdr) (rest : Bytes) (startSeqno : ℕ)
    (chainHead : ChainHash) : replaySegmentInventoried W name (hdr ++ rest) startSeqno chainHead =
      .ofWalk name (hdr ++ rest) startSeqno firstSeqno
        (walk W version startSeqno (hdr ++ rest).length rest (.start chainHead hdr.length)) := by
  simp [replaySegmentInventoried, hhdr.readHeader_eq]

/-- The reader behind a chained header and valid records. -/
lemma replaySegment_encodeAll (W : Wire F) (name : FileName)
    (hhdr : ChainedHeader version firstSeqno hdr) (hes : ∀ e ∈ es, e.Valid W) (tail : Bytes)
    (chainHead : ChainHash) :
    replaySegmentInventoried W name (hdr ++ (encodeAll W (records es) ++ tail)) 0 chainHead =
      .ofWalk name (hdr ++ (encodeAll W (records es) ++ tail)) 0 firstSeqno
        (walk W version 0 (hdr ++ (encodeAll W (records es) ++ tail)).length tail
          ((Walk.start chainHead hdr.length).acceptAll W hdr.length es)) := by
  rw [replaySegment_header W name hhdr, List.length_append,
    walk_encodeAll W hhdr.two_le hes hdr.length tail]

/-! ## More bytes behind a record -/

/-- What a reader takes from the front does not depend on the bytes behind it. -/
def Framed {α : Type} (read : Bytes → Option (α × Bytes)) : Prop :=
  ∀ bs a rest, read bs = some (a, rest) → ∀ more, read (bs ++ more) = some (a, rest ++ more)

lemma framed_readExact (n : ℕ) : Framed (readExact n) := by
  intro bs a rest h more
  unfold readExact at h ⊢
  split at h
  · rename_i hle
    cases h
    rw [if_pos (by rw [List.length_append]; omega), List.take_append_of_le_length hle,
      List.drop_append_of_le_length hle]
  · exact absurd h nofun

lemma framed_readHash : Framed readHash := by
  intro bs a rest h more
  unfold readHash at h ⊢
  split at h
  · rename_i hle
    cases h
    rw [dif_pos (by rw [List.length_append]; omega)]
    simp only [List.take_append_of_le_length hle, List.drop_append_of_le_length hle]
  · exact absurd h nofun

lemma framed_readPrevHash (version : ℕ) : Framed (readPrevHash version) := by
  intro bs a rest h more
  unfold readPrevHash at h ⊢
  by_cases hv : 2 ≤ version
  · rw [if_pos hv] at h ⊢
    exact framed_readHash _ _ _ h more
  · rw [if_neg hv] at h ⊢
    cases h
    rfl

/-- One reader behind another. -/
lemma Framed.bind {α β : Type} {read : Bytes → Option (α × Bytes)}
    {next : α × Bytes → Option (β × Bytes)} (h : Framed read)
    (hnext : ∀ a, Framed fun bs => next (a, bs)) : Framed fun bs => (read bs).bind next := by
  intro bs b rest hread more
  obtain ⟨⟨a, mid⟩, ha, hb⟩ := Option.bind_eq_some_iff.mp hread
  exact Option.bind_eq_some_iff.mpr ⟨(a, mid ++ more), h _ _ _ ha more, hnext a _ _ _ hb more⟩

lemma framed_pure {α : Type} (a : α) : Framed fun bs => some (a, bs) := by
  intro bs a' rest h more
  cases h
  rfl

lemma framed_readFields (version payloadLen : ℕ) : Framed (readFields version payloadLen) :=
  (framed_readExact 8).bind fun _ => (framed_readExact 1).bind fun _ =>
    (framed_readPrevHash version).bind fun _ => (framed_readExact payloadLen).bind fun _ =>
      (framed_readExact 4).bind fun _ => framed_pure _

/-- A record is read as it was when more bytes stand behind it. -/
lemma readFrame_append {version : ℕ} {bs rest : Bytes} {f : Frame}
    (h : readFrame version bs = .frame f rest) (more : Bytes) :
    readFrame version (bs ++ more) = .frame f (rest ++ more) := by
  unfold readFrame at h ⊢
  cases hlen : readExact 4 bs with
  | none => rw [hlen] at h; exact absurd h nofun
  | some p =>
    rw [hlen] at h
    rw [framed_readExact 4 _ _ _ hlen more]
    cases hfields : readFields version (beNat p.1) p.2 with
    | none => simp only [hfields] at h; exact absurd h nofun
    | some q =>
      simp only [hfields, FrameRead.frame.injEq] at h
      obtain ⟨rfl, rfl⟩ := h
      simp only [framed_readFields version (beNat p.1) _ _ _ hfields more]

end ChittaField
