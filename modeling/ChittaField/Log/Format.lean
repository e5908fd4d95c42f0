import ChittaField.Lib.Positional
import ChittaField.Ops

/-!
# The segment file format

A segment file is a header followed by records.  All integers are big-endian.

* V1 header: magic, first sequence number; V2 adds the 32-byte chain head; V3 adds the 8-byte
  vector-space id.
* V2/V3 record: payload length (4), sequence number (8), operation type (1), previous hash (32),
  payload, checksum (4).  V1 records have no previous hash.

The checksum covers everything between the length field and itself; the length field is covered by
nothing.  `readFrame` reads one record the way the readers of the log do, one `readExact` after the
other, and `readFrame_eq` says what it sees in terms of the bytes alone.

MessagePack, CRC-32 and SHA-256 come from other packages; they are the parameter `Wire`.
-/

namespace ChittaField

/-- The chain hash of a record: 32 bytes. -/
abbrev ChainHash := {h : Bytes // h.length = 32}

/-- The hash before the first record of a chain. -/
def zeroHash : ChainHash := ⟨List.replicate 32 0, by simp⟩

/-- The packages the log is built on: the MessagePack codec of operations, the checksum and the
hash of the chain. -/
structure Wire (F : Type) where
  toVec : Op F → Except String Bytes
  fromSlice : Bytes → Except String (Op F)
  crc32 : Bytes → UInt32
  sha256 : Bytes → ChainHash

/-- The `w` bytes of a big-endian integer. -/
def beBytes (w n : ℕ) : Bytes := (Positional.digits 256 w n).map UInt8.ofNat

/-- The integer a big-endian byte string stands for. -/
def beNat (bs : Bytes) : ℕ := Positional.value 256 (bs.map UInt8.toNat)

@[simp] lemma length_beBytes (w n : ℕ) : (beBytes w n).length = w := by
  simp [beBytes]

/-- An integer that fits its field is read back unchanged. -/
lemma beNat_beBytes {w n : ℕ} (h : n < 256 ^ w) : beNat (beBytes w n) = n := by
  have hmap : (beBytes w n).map UInt8.toNat = Positional.digits 256 w n := by
    rw [beBytes, List.map_map]
    refine (List.map_congr_left fun d hd => ?_).trans (List.map_id _)
    have hlt : d < 256 := Positional.lt_of_mem_digits (by decide) hd
    simpa using hlt
  rw [beNat, hmap, Positional.value_digits_of_lt h]

/-- The `w` bytes of a little-endian integer. -/
def leBytes (w n : ℕ) : Bytes := (beBytes w n).reverse

/-- The integer a little-endian byte string stands for. -/
def leNat (bs : Bytes) : ℕ := beNat bs.reverse

@[simp] lemma length_leBytes (w n : ℕ) : (leBytes w n).length = w := by
  rw [leBytes, List.length_reverse, length_beBytes]

lemma leNat_leBytes {w n : ℕ} (h : n < 256 ^ w) : leNat (leBytes w n) = n := by
  rw [leNat, leBytes, List.reverse_reverse, beNat_beBytes h]

lemma toNat_lt_of_mem (bs : Bytes) {d : ℕ} (h : d ∈ bs.map UInt8.toNat) : d < 256 := by
  obtain ⟨byte, -, rfl⟩ := List.mem_map.mp h
  exact byte.toNat_lt

/-- A field is written back as it was read. -/
lemma leBytes_leNat (bs : Bytes) : leBytes bs.length (leNat bs) = bs := by
  have hdigits := Positional.digits_value (fun _ => toNat_lt_of_mem bs.reverse)
  rw [List.length_map, List.length_reverse] at hdigits
  rw [leBytes, beBytes, leNat, beNat, hdigits, List.map_map]
  have hid : UInt8.ofNat ∘ UInt8.toNat = id := funext fun byte => UInt8.ofNat_toNat
  rw [hid, List.map_id, List.reverse_reverse]

lemma leNat_lt (bs : Bytes) : leNat bs < 256 ^ bs.length := by
  have hvalue := Positional.value_lt (fun _ => toNat_lt_of_mem bs.reverse)
  rwa [List.length_map, List.length_reverse] at hvalue

/-! ## Records -/

/-- A record of a V2 or V3 segment. -/
structure Record where
  seqno : ℕ
  opType : UInt8
  prevHash : ChainHash
  payload : Bytes

/-- The bytes of a record that its checksum and its hash cover. -/
def Record.body (r : Record) : Bytes :=
  beBytes 8 r.seqno ++ [r.opType] ++ r.prevHash.1 ++ r.payload

/-- The bytes of a record in a segment file. -/
def Record.encode {F : Type} (W : Wire F) (r : Record) : Bytes :=
  beBytes 4 r.payload.length ++ r.body ++ beBytes 4 (W.crc32 r.body).toNat

/-- The hash that links a record into the chain. -/
def computeRecordHash {F : Type} (W : Wire F) (seqno : ℕ) (opType : UInt8) (prevHash : ChainHash)
    (payload : Bytes) : ChainHash :=
  W.sha256 (beBytes 8 seqno ++ [opType] ++ prevHash.1 ++ payload)

/-- The bytes of a record besides its payload. -/
def recordOverhead : ℕ := 49

@[simp] lemma Record.length_body (r : Record) : r.body.length = 41 + r.payload.length := by
  simp [Record.body, r.prevHash.2]
  omega

@[simp] lemma Record.length_encode {F : Type} (W : Wire F) (r : Record) :
    (r.encode W).length = recordOverhead + r.payload.length := by
  simp [Record.encode, recordOverhead]
  omega

/-- The bytes of a sequence of records. -/
def encodeAll {F : Type} (W : Wire F) (rs : List Record) : Bytes :=
  rs.flatMap (·.encode W)

@[simp] lemma encodeAll_nil {F : Type} (W : Wire F) : encodeAll W [] = [] := rfl

@[simp] lemma encodeAll_cons {F : Type} (W : Wire F) (r : Record) (rs : List Record) :
    encodeAll W (r :: rs) = r.encode W ++ encodeAll W rs := rfl

@[simp] lemma encodeAll_append {F : Type} (W : Wire F) (rs ss : List Record) :
    encodeAll W (rs ++ ss) = encodeAll W rs ++ encodeAll W ss := by
  simp [encodeAll]

/-! ## Reading one record -/

/-- Read exactly `n` bytes, or fail because the file ends before them. -/
def readExact (n : ℕ) (bs : Bytes) : Option (Bytes × Bytes) :=
  if n ≤ bs.length then some (bs.take n, bs.drop n) else none

/-- Read a 32-byte hash. -/
def readHash (bs : Bytes) : Option (ChainHash × Bytes) :=
  if h : 32 ≤ bs.length then some (⟨bs.take 32, by simp [h]⟩, bs.drop 32) else none

/-- The fields of a record as they stand in the file. -/
structure Frame where
  seqnoBuf : Bytes
  opTypeBuf : Bytes
  prevHash : ChainHash
  payload : Bytes
  crcBuf : Bytes

/-- The sequence number of a record that was read. -/
def Frame.seqno (f : Frame) : ℕ := beNat f.seqnoBuf

/-- The operation type of a record that was read. -/
def Frame.opType (f : Frame) : UInt8 := f.opTypeBuf.headD 0

/-- The checksum stored with a record. -/
def Frame.storedCrc (f : Frame) : ℕ := beNat f.crcBuf

/-- The bytes the checksum of a record covers; V1 records have no previous hash. -/
def Frame.body (version : ℕ) (f : Frame) : Bytes :=
  f.seqnoBuf ++ f.opTypeBuf ++ (if 2 ≤ version then f.prevHash.1 else []) ++ f.payload

/-- The checksum of a record that was read. -/
def Frame.computedCrc {F : Type} (W : Wire F) (version : ℕ) (f : Frame) : ℕ :=
  (W.crc32 (f.body version)).toNat

/-- What a reader finds at a record boundary: no complete length field, a record that the file ends
in, or a record and the bytes behind it. -/
inductive FrameRead where
  | eof
  | torn
  | frame (f : Frame) (rest : Bytes)

/-- Read the previous hash of a record; V1 records have none. -/
def readPrevHash (version : ℕ) (bs : Bytes) : Option (ChainHash × Bytes) :=
  if 2 ≤ version then readHash bs else some (zeroHash, bs)

/-- Read the fields behind the length field. -/
def readFields (version payloadLen : ℕ) (bs : Bytes) : Option (Frame × Bytes) := do
  let (seqnoBuf, bs) ← readExact 8 bs
  let (opTypeBuf, bs) ← readExact 1 bs
  let (prevHash, bs) ← readPrevHash version bs
  let (payload, bs) ← readExact payloadLen bs
  let (crcBuf, bs) ← readExact 4 bs
  return (⟨seqnoBuf, opTypeBuf, prevHash, payload, crcBuf⟩, bs)

/-- Read one record. -/
def readFrame (version : ℕ) (bs : Bytes) : FrameRead :=
  match readExact 4 bs with
  | none => .eof
  | some (lenBuf, bs) =>
    match readFields version (beNat lenBuf) bs with
    | none => .torn
    | some (f, rest) => .frame f rest

lemma readExact_append {n : ℕ} {a : Bytes} (h : a.length = n) (b : Bytes) :
    readExact n (a ++ b) = some (a, b) := by
  subst h
  simp [readExact]

lemma readHash_append (h : ChainHash) (b : Bytes) : readHash (h.1 ++ b) = some (h, b) := by
  have hlen : 32 ≤ (h.1 ++ b).length := by simp [h.2]
  have htake : (h.1 ++ b).take 32 = h.1 := List.take_left' h.2
  have hdrop : (h.1 ++ b).drop 32 = b := List.drop_left' h.2
  simp only [readHash, hlen, dite_true, hdrop]
  congr 3

/-- A record as its reader sees it. -/
def Record.toFrame {F : Type} (W : Wire F) (r : Record) : Frame :=
  ⟨beBytes 8 r.seqno, [r.opType], r.prevHash, r.payload, beBytes 4 (W.crc32 r.body).toNat⟩

variable {version : ℕ}

/-- Reading the bytes of a record gives the record back, if its payload fits the length field. -/
lemma readFrame_encode {F : Type} (W : Wire F) (hv : 2 ≤ version) {r : Record}
    (hlen : r.payload.length < 256 ^ 4) (rest : Bytes) :
    readFrame version (r.encode W ++ rest) = .frame (r.toFrame W) rest := by
  have hfields : readFields version r.payload.length
      (r.body ++ (beBytes 4 (W.crc32 r.body).toNat ++ rest)) = some (r.toFrame W, rest) := by
    simp only [Record.body, List.append_assoc, readFields]
    rw [readExact_append (length_beBytes 8 _)]
    simp only [Option.bind_eq_bind, Option.bind_some]
    rw [readExact_append (n := 1) (a := [r.opType]) rfl]
    simp only [Option.bind_some, readPrevHash, if_pos hv]
    rw [readHash_append]
    simp only [Option.bind_some]
    rw [readExact_append rfl]
    simp only [Option.bind_some]
    rw [readExact_append (length_beBytes 4 _)]
    simp [Record.toFrame, Record.body]
  simp only [readFrame, Record.encode, List.append_assoc]
  rw [readExact_append (length_beBytes 4 _)]
  simp only [beNat_beBytes hlen, hfields]

/-- Behind a complete length field the remaining fields are there exactly when the bytes are. -/
lemma readFields_eq_none_iff (hv : 2 ≤ version) (payloadLen : ℕ) (bs : Bytes) :
    readFields version payloadLen bs = none ↔ bs.length < 45 + payloadLen := by
  simp only [readFields, readExact, readPrevHash, readHash, if_pos hv, Option.bind_eq_bind,
    Option.pure_def]
  by_cases h8 : 8 ≤ bs.length
  · by_cases h1 : 1 ≤ bs.length - 8
    · simp [h8, h1]
      omega
    · simp [h8, h1]
      omega
  · simp [h8]
    omega

/-- The bytes behind a record that was read. -/
lemma readFields_rest {version payloadLen : ℕ} (hv : 2 ≤ version) {bs rest : Bytes} {f : Frame}
    (h : readFields version payloadLen bs = some (f, rest)) :
    rest = bs.drop (45 + payloadLen) := by
  have hnone : ¬ bs.length < 45 + payloadLen := by
    rw [← readFields_eq_none_iff hv, h]; simp
  have h8 : 8 ≤ bs.length := by omega
  have h1 : 1 ≤ bs.length - 8 := by omega
  have h32 : 32 ≤ bs.length - 9 := by omega
  have hp : payloadLen ≤ bs.length - 41 := by omega
  have h4 : 4 ≤ bs.length - (41 + payloadLen) := by omega
  simp [readFields, readExact, readPrevHash, readHash, hv, h8, h1, h32, hp, h4] at h
  rw [← h.2]
  congr 1
  omega

/-- What a reader finds depends on the number of bytes left and on the length field alone: too few
bytes for the length field, too few for the record it announces, or a record. -/
lemma readFrame_eof_iff (bs : Bytes) : readFrame version bs = .eof ↔ bs.length < 4 := by
  unfold readFrame readExact
  split
  · rename_i h
    simp only [ite_eq_right_iff, reduceCtorEq, imp_false, not_le] at h
    simp [h]
  · rename_i lenBuf bs' h
    have h4 : 4 ≤ bs.length := by
      by_contra hlt
      simp [hlt] at h
    split <;> simp [h4]

lemma readFrame_torn_iff (hv : 2 ≤ version) (bs : Bytes) : readFrame version bs = .torn ↔
      4 ≤ bs.length ∧ bs.length < recordOverhead + beNat (bs.take 4) := by
  by_cases h4 : 4 ≤ bs.length
  · have hread : readExact 4 bs = some (bs.take 4, bs.drop 4) := by simp [readExact, h4]
    have hiff := readFields_eq_none_iff hv (beNat (bs.take 4)) (bs.drop 4)
    rw [List.length_drop] at hiff
    simp only [readFrame, hread, recordOverhead]
    cases hf : readFields version (beNat (bs.take 4)) (bs.drop 4) with
    | none =>
      have := hiff.mp hf
      simp only [true_iff]
      omega
    | some p =>
      have : ¬ bs.length - 4 < 45 + beNat (bs.take 4) := by rw [← hiff, hf]; simp
      simp only [reduceCtorEq, false_iff]
      omega
  · have : readFrame version bs = .eof := (readFrame_eof_iff bs).mpr (by omega)
    simp [this, h4]

lemma readFrame_frame_rest (hv : 2 ≤ version) {bs rest : Bytes} {f : Frame}
    (h : readFrame version bs = .frame f rest) : recordOverhead + beNat (bs.take 4) ≤ bs.length ∧
      rest = bs.drop (recordOverhead + beNat (bs.take 4)) := by
  have h4 : 4 ≤ bs.length := by
    by_contra hlt
    rw [(readFrame_eof_iff bs).mpr (by omega)] at h
    cases h
  have hread : readExact 4 bs = some (bs.take 4, bs.drop 4) := by simp [readExact, h4]
  simp only [readFrame, hread] at h
  cases hf : readFields version (beNat (bs.take 4)) (bs.drop 4) with
  | none => simp [hf] at h
  | some p =>
    simp only [hf, FrameRead.frame.injEq] at h
    have hn : ¬ (bs.drop 4).length < 45 + beNat (bs.take 4) := by
      rw [← readFields_eq_none_iff hv, hf]; simp
    rw [List.length_drop] at hn
    refine ⟨by unfold recordOverhead; omega, ?_⟩
    rw [← h.2, readFields_rest hv (show _ = some (p.1, p.2) from hf), List.drop_drop]
    congr 1
    unfold recordOverhead
    omega

/-- A proper prefix of a record with a complete length field is torn. -/
lemma readFrame_take_encode (W : Wire F) (hv : 2 ≤ version) {r : Record}
    (hlen : r.payload.length < 256 ^ 4) {k : ℕ} (hk : 4 ≤ k) (hk' : k < (r.encode W).length) :
    readFrame version ((r.encode W).take k) = .torn := by
  have htake : ((r.encode W).take k).take 4 = beBytes 4 r.payload.length := by
    rw [List.take_take, Nat.min_eq_left hk, Record.encode, List.append_assoc]
    exact List.take_left' (length_beBytes 4 _)
  rw [readFrame_torn_iff hv, htake, beNat_beBytes hlen, List.length_take,
    Nat.min_eq_left hk'.le]
  exact ⟨hk, by simpa using hk'⟩

end ChittaField
