import ChittaField.Log.Reader

/-!
# Reference implementations of the log's packages

The results about the log hold for every `Wire`.  This file builds one that agrees with the real
packages on the operations it covers, so that the definitions can be run: CRC-32, SHA-256, and the
MessagePack encoding of `deleteMemory` with small numbers.
-/

namespace ChittaField

namespace Reference

/-- One bit of the reflected CRC-32. -/
def crcShift (c : UInt32) : UInt32 :=
  if c &&& 1 = 1 then (c >>> 1) ^^^ 0xEDB88320 else c >>> 1

/-- One byte of the reflected CRC-32. -/
def crcByte (c : UInt32) (b : UInt8) : UInt32 :=
  crcShift (crcShift (crcShift (crcShift (crcShift (crcShift (crcShift (crcShift
    (c ^^^ b.toUInt32))))))))

/-- CRC-32 (IEEE 802.3). -/
def crc32 (bs : Bytes) : UInt32 := ~~~ bs.foldl crcByte 0xFFFFFFFF

/-- The round constants of SHA-256. -/
def shaK : List UInt32 :=
  [0x428a2f98, 0x71374491, 0xb5c0fbcf, 0xe9b5dba5, 0x3956c25b, 0x59f111f1, 0x923f82a4, 0xab1c5ed5,
   0xd807aa98, 0x12835b01, 0x243185be, 0x550c7dc3, 0x72be5d74, 0x80deb1fe, 0x9bdc06a7, 0xc19bf174,
   0xe49b69c1, 0xefbe4786, 0x0fc19dc6, 0x240ca1cc, 0x2de92c6f, 0x4a7484aa, 0x5cb0a9dc, 0x76f988da,
   0x983e5152, 0xa831c66d, 0xb00327c8, 0xbf597fc7, 0xc6e00bf3, 0xd5a79147, 0x06ca6351, 0x14292967,
   0x27b70a85, 0x2e1b2138, 0x4d2c6dfc, 0x53380d13, 0x650a7354, 0x766a0abb, 0x81c2c92e, 0x92722c85,
   0xa2bfe8a1, 0xa81a664b, 0xc24b8b70, 0xc76c51a3, 0xd192e819, 0xd6990624, 0xf40e3585, 0x106aa070,
   0x19a4c116, 0x1e376c08, 0x2748774c, 0x34b0bcb5, 0x391c0cb3, 0x4ed8aa4a, 0x5b9cca4f, 0x682e6ff3,
   0x748f82ee, 0x78a5636f, 0x84c87814, 0x8cc70208, 0x90befffa, 0xa4506ceb, 0xbef9a3f7, 0xc67178f2]

/-- Rotation to the right. -/
def rotr (x n : UInt32) : UInt32 := (x >>> n) ||| (x <<< (32 - n))

/-- The eight working words of SHA-256. -/
structure ShaState where
  a : UInt32
  b : UInt32
  c : UInt32
  d : UInt32
  e : UInt32
  f : UInt32
  g : UInt32
  h : UInt32

/-- The initial working words. -/
def shaInit : ShaState :=
  ⟨0x6a09e667, 0xbb67ae85, 0x3c6ef372, 0xa54ff53a, 0x510e527f, 0x9b05688c, 0x1f83d9ab, 0x5be0cd19⟩

/-- One round of SHA-256. -/
def shaRound (s : ShaState) (kw : UInt32 × UInt32) : ShaState :=
  let s1 := rotr s.e 6 ^^^ rotr s.e 11 ^^^ rotr s.e 25
  let ch := (s.e &&& s.f) ^^^ (~~~ s.e &&& s.g)
  let t1 := s.h + s1 + ch + kw.1 + kw.2
  let s0 := rotr s.a 2 ^^^ rotr s.a 13 ^^^ rotr s.a 22
  let maj := (s.a &&& s.b) ^^^ (s.a &&& s.c) ^^^ (s.b &&& s.c)
  ⟨t1 + (s0 + maj), s.a, s.b, s.c, s.d + t1, s.e, s.f, s.g⟩

/-- Extend a message schedule, latest word first, by `n` words. -/
def shaExtend : ℕ → List UInt32 → List UInt32
  | 0, ws => ws
  | n + 1, ws =>
    let x := ws.getD 1 0
    let y := ws.getD 14 0
    let s1 := rotr x 17 ^^^ rotr x 19 ^^^ (x >>> 10)
    let s0 := rotr y 7 ^^^ rotr y 18 ^^^ (y >>> 3)
    shaExtend n ((s1 + ws.getD 6 0 + s0 + ws.getD 15 0) :: ws)

/-- The big-endian words of a block. -/
def words : Bytes → List UInt32
  | w :: x :: y :: z :: bs => UInt32.ofNat (beNat [w, x, y, z]) :: words bs
  | _ => []

/-- Compress one block of 64 bytes. -/
def shaBlock (s : ShaState) (block : Bytes) : ShaState :=
  let schedule := (shaExtend 48 (words block).reverse).reverse
  let t := (shaK.zip schedule).foldl shaRound s
  ⟨s.a + t.a, s.b + t.b, s.c + t.c, s.d + t.d, s.e + t.e, s.f + t.f, s.g + t.g, s.h + t.h⟩

/-- Compress `n` blocks. -/
def shaBlocks : ℕ → Bytes → ShaState → ShaState
  | 0, _, s => s
  | n + 1, bs, s => shaBlocks n (bs.drop 64) (shaBlock s (bs.take 64))

/-- The padded message. -/
def shaPad (bs : Bytes) : Bytes :=
  bs ++ [0x80] ++ List.replicate ((119 - bs.length % 64) % 64) 0 ++ beBytes 8 (8 * bs.length)

/-- SHA-256. -/
def sha256 (bs : Bytes) : ChainHash :=
  let s := shaBlocks ((shaPad bs).length / 64) (shaPad bs) shaInit
  ⟨beBytes 4 s.a.toNat ++ beBytes 4 s.b.toNat ++ beBytes 4 s.c.toNat ++ beBytes 4 s.d.toNat ++
    beBytes 4 s.e.toNat ++ beBytes 4 s.f.toNat ++ beBytes 4 s.g.toNat ++ beBytes 4 s.h.toNat,
    by simp⟩

/-- The MessagePack text `DeleteMemory` behind its map header. -/
def deleteTag : Bytes :=
  [0x81, 0xAC, 0x44, 0x65, 0x6c, 0x65, 0x74, 0x65, 0x4d, 0x65, 0x6d, 0x6f, 0x72, 0x79, 0x92]

/-- The MessagePack text `TrainPQ` behind its map header. -/
def trainTag : Bytes := [0x81, 0xA7, 0x54, 0x72, 0x61, 0x69, 0x6e, 0x50, 0x51, 0x91]

/-- The MessagePack bytes of an operation: a map from the variant to the array of its fields. -/
def toVec {F : Type} : Op F → Except String Bytes
  | .deleteMemory o =>
    if o.memoryId < 128 ∧ 0 ≤ o.deletedAtMs ∧ o.deletedAtMs < 128 then
      .ok (deleteTag ++ [UInt8.ofNat o.memoryId, UInt8.ofNat o.deletedAtMs.toNat])
    else .error "unsupported"
  | .trainPQ o =>
    if o.codebookBytes.length < 16 ∧ o.codebookBytes.all (· < 128) then
      .ok (trainTag ++ UInt8.ofNat (0x90 + o.codebookBytes.length) :: o.codebookBytes)
    else .error "unsupported"
  | _ => .error "unsupported"

/-- Decode the MessagePack bytes of an operation. -/
def fromSlice {F : Type} (bs : Bytes) : Except String (Op F) :=
  if bs.take 15 = deleteTag then
    match bs.drop 15 with
    | [m, t] => .ok (.deleteMemory ⟨m.toNat, t.toNat⟩)
    | _ => .error "unsupported"
  else if bs.take 10 = trainTag then
    match bs.drop 10 with
    | n :: codebook =>
      if n.toNat = 0x90 + codebook.length ∧ codebook.all (· < 128) then .ok (.trainPQ ⟨codebook⟩)
      else .error "unsupported"
    | _ => .error "unsupported"
  else .error "unsupported"

/-- The reference packages. -/
def wire (F : Type) : Wire F := ⟨toVec, fromSlice, crc32, sha256⟩

/-- The record of the operation that deletes memory `m` at time `ts`. -/
def deletion (F : Type) (seqno m ts : ℕ) (prevHash : ChainHash) : Entry F :=
  ⟨⟨seqno, 2, prevHash, deleteTag ++ [UInt8.ofNat m, UInt8.ofNat ts]⟩, .deleteMemory ⟨m, ts⟩⟩

lemma deletion_valid (F : Type) {seqno m ts : ℕ} (hseqno : seqno < 256 ^ 8) (hm : m < 128)
    (hts : ts < 128) (prevHash : ChainHash) :
    (deletion F seqno m ts prevHash).Valid (wire F) := by
  have hm' : m % 256 = m := Nat.mod_eq_of_lt (by omega)
  have hts' : ts % 256 = ts := Nat.mod_eq_of_lt (by omega)
  refine ⟨by simp [deletion, deleteTag], hseqno, ?_, rfl⟩
  simp [deletion, wire, fromSlice, deleteTag, hm', hts']

/-- The record that trains the product quantizer with an empty codebook. -/
def training (F : Type) (seqno : ℕ) (prevHash : ChainHash) : Entry F :=
  ⟨⟨seqno, 14, prevHash, trainTag ++ [0x90]⟩, .trainPQ ⟨[]⟩⟩

end Reference

end ChittaField
