import ChittaField.Store.Effects

/-!
# The hash of a chunk

The hash of a memory's payload is that of its kind, realm, content and embedding, written one behind
the other.  Nothing is written between them, so that bytes may move from one field to the next.

`chunk_identity_iff` says which chunks are told from all others by what is hashed of them, and
`chunks_confused` is a memory that `put_memory` drops for it.
-/

namespace ChittaField

/-- What the hash of a memory is about; the embedding by the bits of its numbers. -/
structure Chunk where
  kind : String
  realm : String
  content : Bytes
  embedding : List (BitVec 32)
  deriving DecidableEq

/-- The bytes of a text. -/
def utf8Bytes (s : String) : Bytes := s.toList.flatMap String.utf8EncodeChar

/-- The four bytes of a number. -/
def toLeBytes (f : BitVec 32) : Bytes := leBytes 4 f.toNat

namespace Chunk

/-- What is hashed of a chunk. -/
def hashed (c : Chunk) : Bytes :=
  utf8Bytes c.kind ++ (utf8Bytes c.realm ++ (c.content ++ c.embedding.flatMap toLeBytes))

/-- A chunk that `put_memory` hashes: the embedding comes later, or has the length `EMBED_DIM`, which
the build chooses. -/
def Fed (embedDim : ℕ) (c : Chunk) : Prop := c.embedding = [] ∨ c.embedding.length = embedDim

/-- No other chunk is hashed as this one is. -/
def Alone (embedDim : ℕ) (c : Chunk) : Prop :=
  ∀ c' : Chunk, c'.Fed embedDim → c'.hashed = c.hashed → c' = c

/-- A chunk that is all content; this starts with no character, and is too short for an embedding. -/
structure Bare (embedDim : ℕ) (c : Chunk) : Prop where
  kind : c.kind = ""
  realm : c.realm = ""
  embedding : c.embedding = []
  short : c.content.length < 4 * embedDim
  uncharactered : ∀ char, ¬String.utf8EncodeChar char <+: c.content

end Chunk

/-- The hash of a payload. -/
def computeChunkHash {F : Type} (sha256 : Bytes → ChunkHash) (bits : F → BitVec 32)
    (kind realm : String) (content : Bytes) (embedding : List F) : ChunkHash :=
  sha256 (Chunk.hashed ⟨kind, realm, content, embedding.map bits⟩)

/-! ## Bytes that move -/

lemma utf8Bytes_append (s t : String) : utf8Bytes (s ++ t) = utf8Bytes s ++ utf8Bytes t := by
  rw [utf8Bytes, String.toList_append, List.flatMap_append]
  rfl

lemma utf8Bytes_singleton (char : Char) :
    utf8Bytes (String.ofList [char]) = String.utf8EncodeChar char := by
  rw [utf8Bytes, String.toList_ofList, List.flatMap_singleton]

/-- A text with bytes starts with a character. -/
lemma exists_utf8EncodeChar_prefix {s : String} (h : s ≠ "") :
    ∃ char, String.utf8EncodeChar char <+: utf8Bytes s := by
  cases hs : s.toList with
  | nil => exact absurd (String.toList_eq_nil_iff.mp hs) h
  | cons char chars =>
    refine ⟨char, ?_⟩
    rw [utf8Bytes, hs, List.flatMap_cons]
    exact List.prefix_append ..

@[simp]
lemma length_toLeBytes (f : BitVec 32) : (toLeBytes f).length = 4 := length_leBytes ..

lemma length_flatMap_toLeBytes (embedding : List (BitVec 32)) :
    (embedding.flatMap toLeBytes).length = 4 * embedding.length := by
  induction embedding with
  | nil => rfl
  | cons f fs ih =>
    rw [List.flatMap_cons, List.length_append, ih, length_toLeBytes, List.length_cons]
    omega

/-- Any four bytes are those of a number. -/
lemma exists_toLeBytes {bs : Bytes} (h : bs.length = 4) : ∃ f, toLeBytes f = bs := by
  have hlt : leNat bs < 2 ^ 32 := by
    have hvalue := leNat_lt bs
    rwa [h] at hvalue
  refine ⟨BitVec.ofNat 32 (leNat bs), ?_⟩
  have hwrite := leBytes_leNat bs
  rw [h] at hwrite
  rw [toLeBytes, BitVec.toNat_ofNat, Nat.mod_eq_of_lt hlt, hwrite]

/-- Any bytes of the right length are those of some numbers. -/
lemma exists_flatMap_toLeBytes (n : ℕ) {bs : Bytes} (h : bs.length = 4 * n) :
    ∃ embedding : List (BitVec 32), embedding.length = n ∧ embedding.flatMap toLeBytes = bs := by
  induction n generalizing bs with
  | zero => exact ⟨[], rfl, (List.length_eq_zero_iff.mp h).symm⟩
  | succ n ih =>
    have htake : (bs.take 4).length = 4 := by
      rw [List.length_take]
      omega
    have hdrop : (bs.drop 4).length = 4 * n := by
      rw [List.length_drop]
      omega
    obtain ⟨f, hf⟩ := exists_toLeBytes htake
    obtain ⟨fs, hlen, hfs⟩ := ih hdrop
    refine ⟨f :: fs, by rw [List.length_cons, hlen], ?_⟩
    rw [List.flatMap_cons, hf, hfs, List.take_append_drop]

namespace Chunk

variable {embedDim : ℕ} {c : Chunk}

/-! ## Chunks that are told from all others -/

/-- A chunk without kind and realm that starts with no character is found again. -/
lemma Bare.alone (h : c.Bare embedDim) : c.Alone embedDim := by
  intro c' hfed heq
  have hhashed : c.hashed = c.content := by
    unfold hashed
    rw [h.kind, h.realm, h.embedding]
    exact List.append_nil _
  rw [hhashed, hashed] at heq
  have hkind : c'.kind = "" := by
    by_contra hne
    obtain ⟨char, hchar⟩ := exists_utf8EncodeChar_prefix hne
    exact h.uncharactered char (hchar.trans (heq ▸ List.prefix_append ..))
  rw [hkind] at heq
  change utf8Bytes c'.realm ++ _ = _ at heq
  have hrealm : c'.realm = "" := by
    by_contra hne
    obtain ⟨char, hchar⟩ := exists_utf8EncodeChar_prefix hne
    exact h.uncharactered char (hchar.trans (heq ▸ List.prefix_append ..))
  rw [hrealm] at heq
  change c'.content ++ _ = _ at heq
  have hembedding : c'.embedding = [] := by
    refine hfed.resolve_right fun hdim => ?_
    have hlen := congrArg List.length heq
    rw [List.length_append, length_flatMap_toLeBytes, hdim] at hlen
    have hshort := h.short
    omega
  rw [hembedding, List.flatMap_nil, List.append_nil] at heq
  obtain ⟨kind', realm', content', embedding'⟩ := c'
  obtain ⟨kind, realm, content, embedding⟩ := c
  rw [Chunk.mk.injEq]
  exact ⟨hkind.trans h.kind.symm, hrealm.trans h.realm.symm, heq, hembedding.trans h.embedding.symm⟩

/-- Otherwise some of the bytes can be moved to another field. -/
lemma Alone.bare (hdim : 0 < embedDim) (hfed : c.Fed embedDim) (h : c.Alone embedDim) :
    c.Bare embedDim := by
  have hkind : c.kind = "" := by
    have hmoved := h ⟨"", c.kind ++ c.realm, c.content, c.embedding⟩ hfed (by
      unfold hashed
      rw [utf8Bytes_append, List.append_assoc]
      rfl)
    exact (congrArg kind hmoved).symm
  have hrealm : c.realm = "" := by
    have hmoved := h ⟨c.realm, "", c.content, c.embedding⟩ hfed (by
      unfold hashed
      rw [hkind]
      rfl)
    exact (congrArg realm hmoved).symm
  have hembedding : c.embedding = [] := by
    have hmoved := h ⟨c.kind, c.realm, c.content ++ c.embedding.flatMap toLeBytes, []⟩ (.inl rfl) (by
      unfold hashed
      rw [List.flatMap_nil, List.append_nil])
    exact (congrArg embedding hmoved).symm
  refine ⟨hkind, hrealm, hembedding, ?_, fun char hchar => ?_⟩
  · by_contra hlong
    have htail : (c.content.drop (c.content.length - 4 * embedDim)).length = 4 * embedDim := by
      rw [List.length_drop]
      omega
    obtain ⟨fs, hlen, hfs⟩ := exists_flatMap_toLeBytes embedDim htail
    have hmoved := h ⟨c.kind, c.realm, c.content.take (c.content.length - 4 * embedDim), fs⟩
      (.inr hlen) (by
        unfold hashed
        rw [hfs, List.take_append_drop, hembedding, List.flatMap_nil, List.append_nil])
    have hnil : fs = [] := (congrArg embedding hmoved).trans hembedding
    rw [hnil] at hlen
    exact hdim.ne hlen
  · obtain ⟨rest, hrest⟩ := hchar
    have hmoved := h ⟨String.ofList [char], c.realm, rest, c.embedding⟩ hfed (by
      unfold hashed
      rw [utf8Bytes_singleton, hkind, hrealm, ← hrest, List.append_assoc]
      rfl)
    have hempty : String.ofList [char] = "" := (congrArg kind hmoved).trans hkind
    exact absurd (congrArg String.toList hempty) (by rw [String.toList_ofList]; exact nofun)

/-- A chunk is told from all others iff it is all content, starts with no character, and is too
short for an embedding. -/
theorem chunk_identity_iff (hdim : 0 < embedDim) (hfed : c.Fed embedDim) :
    c.Alone embedDim ↔ c.Bare embedDim :=
  ⟨Alone.bare hdim hfed, Bare.alone⟩

/-- A content of one byte that is not a text. -/
theorem chunk_identity_sample : Chunk.Alone 768 ⟨"", "", [255], []⟩ := by
  refine (chunk_identity_iff (by decide) (.inl rfl)).mpr
    ⟨rfl, rfl, rfl, by decide, fun char hchar => ?_⟩
  have hlen := hchar.length_le
  rw [String.length_utf8EncodeChar] at hlen
  have hsize : char.utf8Size = 1 := Nat.le_antisymm hlen char.utf8Size_pos
  have hval : char.val.toNat ≤ 127 := UInt32.le_iff_toNat_le.mp (Char.utf8Size_eq_one_iff.mp hsize)
  rw [String.utf8EncodeChar_eq_singleton hsize] at hchar
  have hbyte := congrArg UInt8.toNat (List.cons_prefix_cons.mp hchar).1
  rw [UInt32.toNat_toUInt8, Nat.mod_eq_of_lt (by omega)] at hbyte
  change char.val.toNat = 255 at hbyte
  omega

end Chunk

/-! ## What storing makes of it -/

namespace LiveStore

/-- Store a short text. -/
def sampleText (kind realm : String) (content : Bytes) : PutCall ℚ :=
  ⟨kind, realm, content, [], 1, 1 / 1000, 0, [], none, none⟩

/-- A store that hashes chunks, and tells all that is hashed apart. -/
def hashingConfig : WriteConfig ℚ :=
  { sampleConfig with
    embedDim := 768
    computeChunkHash := computeChunkHash id fun _ => 0 }

/-- Nothing special about a put. -/
def samplePutEnv (ts : ℤ) : PutEnv ℚ :=
  ⟨ts, none, [], none, none, [], [], .ok (), [], .ok [], fun _ => ⟨[], .ok ()⟩⟩

/-- A memory of the kind "ab" in the realm "c" is taken for one of the kind "a" in the realm "bc",
and dropped. -/
theorem chunks_confused :
    ¬(∀ c c' : Chunk, c.Fed 768 → c'.Fed 768 → c'.hashed = c.hashed → c' = c) ∧
      let s := ((empty 1).putMemory hashingConfig (sampleText "a" "bc" [100]) (samplePutEnv 5)).1
      let answer := s.putMemory hashingConfig (sampleText "ab" "c" [100]) (samplePutEnv 6)
      answer.2.toOption.map Prod.fst = some 1 ∧ answer.1.ctx.payloads 2 = none ∧
        (answer.1.ctx.payloads 1).map (fun p => (p.kind, p.realm)) = some ("a", "bc") := by
  refine ⟨fun h => ?_, ?_⟩
  · exact absurd (h ⟨"a", "bc", [100], []⟩ ⟨"ab", "c", [100], []⟩ (.inl rfl) (.inl rfl)
      (by decide +kernel)) (by decide)
  · decide +kernel

end LiveStore

end ChittaField
