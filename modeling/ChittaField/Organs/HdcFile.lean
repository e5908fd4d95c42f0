import ChittaField.Lib.Reading
import ChittaField.Log.Format
import ChittaField.Organs.RealmBundles

/-!
# The file of the hyperdimensional index

The index is written to a file of its own: a magic number, the memories with their vectors, and the
realms with their members and bundles, as counted lists in the order in which the maps are walked.
There is no checksum and no end mark.

`sidecar_round_trip` says that a file gives the index back, whatever the order, and that a file that
was cut anywhere is rejected, where the numbers and the names of realms fit the 32 bits of their
lengths.
-/

namespace ChittaField

open Reading

inductive SidecarError where
  | unexpectedEof
  | badMagic
  | invalidUtf8
  deriving DecidableEq

namespace HdcStore

/-! ## Writing -/

def magic : ℕ := 0xC0DEBABEDC51DE2A

def nameBytes (realm : String) : Bytes := realm.toUTF8.data.toList

def vectorBytes (hv : HdcVec) : Bytes := (List.ofFn hv).flatMap fun word => leBytes 8 word.toNat

def memoryBytes (s : HdcSidecar) (id : MemoryId) : Bytes :=
  leBytes 8 id ++ vectorBytes ((s.memories id).getD fun _ => 0)

/-- The counters of a bundle, one word after another. -/
def counters (b : RealmBundle) : List ℕ :=
  (List.range (Hdc.D * 64)).map fun k => b.counts (Fin.ofNat Hdc.D (k / 64)) (k % 64)

def bundleBytes (b : RealmBundle) : Bytes := leBytes 4 b.n ++ (counters b).flatMap (leBytes 2)

/-- A realm with its members, in an order of theirs. -/
def realmBytes (s : HdcSidecar) (p : String × List MemoryId) : Bytes :=
  leBytes 4 (nameBytes p.1).length ++ (nameBytes p.1 ++ (leBytes 4 p.2.length ++
    (p.2.flatMap (leBytes 8) ++ bundleBytes ((s.realmBundles p.1).getD .default))))

/-- The file of an index whose maps are walked in these orders. -/
def sidecarBytes (s : HdcSidecar) (memories : List MemoryId) (realms : List (String × List MemoryId)) :
    Bytes :=
  leBytes 8 magic ++ (leBytes 8 memories.length ++ (memories.flatMap (memoryBytes s) ++
    (leBytes 4 realms.length ++ realms.flatMap (realmBytes s))))

/-! ## Reading -/

/-- Take exactly `n` bytes. -/
def takeBytes (n : ℕ) : Reader UInt8 SidecarError Bytes := fun bs =>
  match readExact n bs with
  | none => .error .unexpectedEof
  | some p => .ok p

/-- Read an integer of `w` bytes. -/
def word (w : ℕ) : Reader UInt8 SidecarError ℕ := do
  let buf ← takeBytes w
  pure (leNat buf)

def readMemory : Reader UInt8 SidecarError (MemoryId × HdcVec) := do
  let id ← word 8
  let words ← times Hdc.D (word 8)
  pure (id, fun wi => UInt64.ofNat (words.getD wi 0))

def readBundle : Reader UInt8 SidecarError RealmBundle := do
  let n ← word 4
  let counts ← times (Hdc.D * 64) (word 2)
  pure ⟨fun wi b => counts.getD (wi * 64 + b % 64) 0, n⟩

def fromUtf8 (name : Bytes) : Reader UInt8 SidecarError String :=
  match String.fromUTF8? ⟨name.toArray⟩ with
  | none => throw .invalidUtf8
  | some realm => pure realm

def readRealm : Reader UInt8 SidecarError (String × List MemoryId × RealmBundle) := do
  let nameLen ← word 4
  let name ← takeBytes nameLen
  let realm ← fromUtf8 name
  let nMembers ← word 4
  let members ← times nMembers (word 8)
  let bundle ← readBundle
  pure (realm, members, bundle)

/-- The magic number must be right. -/
def checkMagic (found : ℕ) : Reader UInt8 SidecarError Unit :=
  if found = magic then pure () else throw .badMagic

def insertMemory (s : HdcSidecar) (p : MemoryId × HdcVec) : HdcSidecar :=
  { s with memories := Function.update s.memories p.1 (some p.2), ids := Insert.insert p.1 s.ids }

def insertRealm (s : HdcSidecar) (p : String × List MemoryId × RealmBundle) : HdcSidecar :=
  { s with
    realmMembers := Function.update s.realmMembers p.1 (some p.2.1.toFinset)
    realmBundles := Function.update s.realmBundles p.1 (some p.2.2) }

/-- Read a file into an index that was cleared; how many memories it has. -/
def readSidecar : Reader UInt8 SidecarError (HdcSidecar × ℕ) := do
  let magic ← word 8
  checkMagic magic
  let nMemories ← word 8
  let memories ← times nMemories readMemory
  let nRealms ← word 4
  let realms ← times nRealms readRealm
  pure (realms.foldl insertRealm (memories.foldl insertMemory new.toHdcSidecar), nMemories)

/-- Load a file.  What an error leaves of the index is not told here. -/
def loadFile (h : HdcStore) (file : Bytes) : Except SidecarError (HdcStore × ℕ) :=
  (readSidecar file).map fun p => (⟨p.1.1, h.mutations⟩, p.1.2)

/-! ## Runs -/

/-- The numbers of vectors as the bundles have them, in 32 bits. -/
def narrow (h : HdcStore) : HdcStore :=
  { h with realmBundles := fun r => (h.realmBundles r).map fun b => { b with n := b.n % 2 ^ 32 } }

/-- What happens to the index. -/
inductive Edit where
  | insert (id : UInt64) (text realm : String)
  | remove (id : UInt64) (realm : String)
  | rebuild (entries : List (UInt64 × String × String))

def edit (T : Casing) (h : HdcStore) : Edit → HdcStore
  | .insert id text realm => (h.insert T id.toNat text realm).narrow
  | .remove id realm => h.remove id.toNat realm
  | .rebuild entries => (h.rebuild T (entries.map fun e => (e.1.toNat, e.2))).narrow

/-- The index behind a run. -/
def edited (T : Casing) (edits : List Edit) : HdcStore := edits.foldl (edit T) new

/-- Orders in which the maps of an index may be walked. -/
structure Walks (s : HdcSidecar) (memories : List MemoryId) (realms : List (String × List MemoryId)) :
    Prop where
  memories_nodup : memories.Nodup
  mem_memories : ∀ id, id ∈ memories ↔ id ∈ s.ids
  realms_nodup : (realms.map (·.1)).Nodup
  mem_realms : ∀ r, r ∈ realms.map (·.1) ↔ (s.realmMembers r).isSome
  members_nodup : ∀ p ∈ realms, p.2.Nodup
  members : ∀ p ∈ realms, s.realmMembers p.1 = some p.2.toFinset

/-- The lengths that are written in 32 bits, and the number of memories, fit their fields. -/
structure Fits (memories : List MemoryId) (realms : List (String × List MemoryId)) : Prop where
  memories_lt : memories.length < 2 ^ 64
  realms_lt : realms.length < 2 ^ 32
  members_lt : ∀ p ∈ realms, p.2.length < 2 ^ 32
  names_lt : ∀ p ∈ realms, (nameBytes p.1).length < 2 ^ 32

/-! ## What the index keeps -/

/-- What is in the index fits its fields, and a realm with members has a bundle. -/
structure Formed (s : HdcSidecar) : Prop where
  mem_ids : ∀ id, id ∈ s.ids ↔ (s.memories id).isSome
  id_lt : ∀ id ∈ s.ids, id < 2 ^ 64
  member_lt : ∀ r ids, s.realmMembers r = some ids → ∀ id ∈ ids, id < 2 ^ 64
  bundled : ∀ r, (s.realmBundles r).isSome = (s.realmMembers r).isSome
  counts : ∀ r b, s.realmBundles r = some b → ∀ wi k, b.counts wi k < 2 ^ 16 ∧
    b.counts wi k = b.counts wi (k % 64)

lemma formed_new : Formed new.toHdcSidecar := by
  refine ⟨fun id => ?_, fun id hid => ?_, fun r ids hr => ?_, fun r => rfl, fun r b hb => ?_⟩
  · exact iff_of_false (Finset.notMem_empty id) Bool.false_ne_true
  · exact absurd hid (Finset.notMem_empty id)
  · cases hr
  · cases hb

variable {T : Casing} {h : HdcStore}

lemma bit_mod (hv : HdcVec) (wi : Fin Hdc.D) (k : ℕ) : Hdc.bit hv wi k = Hdc.bit hv wi (k % 64) := by
  rw [Hdc.bit_eq, Hdc.bit_eq, Nat.mod_mod]

lemma Formed.insert (hf : Formed h.toHdcSidecar) {id : MemoryId} (hid : id < 2 ^ 64)
    (text realm : String) : Formed (h.insert T id text realm).toHdcSidecar := by
  refine ⟨fun i => ?_, ?_, ?_, fun r => ?_, ?_⟩ <;> unfold HdcStore.insert <;> dsimp only
  · rw [Finset.mem_insert, hf.mem_ids]
    by_cases hi : i = id <;> simp [hi]
  · exact (Finset.forall_mem_insert ..).mpr ⟨hid, hf.id_lt⟩
  · refine Maps.forall_update hf.member_lt ?_
    rintro _ ⟨⟩
    refine (Finset.forall_mem_insert ..).mpr ⟨hid, ?_⟩
    cases hold : h.realmMembers realm with
    | none => simp
    | some old => exact hf.member_lt realm old hold
  · have hold := hf.bundled r
    by_cases hrealm : r = realm <;> simp [hrealm, hold]
  · refine Maps.forall_update hf.counts ?_
    rintro _ ⟨⟩ wi k
    have hk : ((h.realmBundles realm).getD .default).counts wi k < 2 ^ 16 ∧
        ((h.realmBundles realm).getD .default).counts wi k =
          ((h.realmBundles realm).getD .default).counts wi (k % 64) := by
      cases hbundle : h.realmBundles realm with
      | none => exact ⟨Nat.two_pow_pos 16, rfl⟩
      | some old => exact hf.counts realm old hbundle wi k
    unfold RealmBundle.add
    dsimp only
    rw [← bit_mod (Hdc.encode T text) wi k, ← hk.2]
    refine ⟨?_, rfl⟩
    split_ifs
    · omega
    · exact hk.1

lemma Formed.remove (hf : Formed h.toHdcSidecar) (id : MemoryId) (realm : String) :
    Formed (h.remove id realm).toHdcSidecar := by
  unfold HdcStore.remove
  cases hmemory : h.memories id with
  | none => exact hf
  | some hv =>
    refine ⟨fun i => ?_, fun i hi => hf.id_lt i (Finset.mem_of_mem_erase hi), ?_, fun r => ?_, ?_⟩ <;>
      dsimp only [Maps.modifyAt]
    · rw [Finset.mem_erase, hf.mem_ids]
      by_cases hi : i = id <;> simp [hi]
    · refine Maps.forall_update hf.member_lt ?_
      intro _ hids i hi
      obtain ⟨old, hold, rfl⟩ := Option.map_eq_some_iff.mp hids
      exact hf.member_lt realm old hold i (Finset.mem_of_mem_erase hi)
    · have hold := hf.bundled r
      by_cases hrealm : r = realm
      · subst hrealm
        simpa using hold
      · simpa [hrealm] using hold
    · refine Maps.forall_update hf.counts ?_
      intro _ hb wi k
      obtain ⟨old, hold, rfl⟩ := Option.map_eq_some_iff.mp hb
      have hk := hf.counts realm old hold wi k
      unfold RealmBundle.remove
      split_ifs with hzero
      · exact hk
      · dsimp only
        rw [← bit_mod hv wi k, ← hk.2]
        refine ⟨?_, rfl⟩
        split_ifs
        · omega
        · exact hk.1

lemma Formed.narrow (hf : Formed h.toHdcSidecar) : Formed h.narrow.toHdcSidecar := by
  refine ⟨hf.mem_ids, hf.id_lt, hf.member_lt, fun r => ?_, fun r b hb => ?_⟩
  · exact (Option.isSome_map ..).trans (hf.bundled r)
  · obtain ⟨old, hold, rfl⟩ := Option.map_eq_some_iff.mp hb
    exact hf.counts r old hold

/-- The numbers of vectors are of 32 bits. -/
def Narrow (s : HdcSidecar) : Prop := ∀ r b, s.realmBundles r = some b → b.n < 2 ^ 32

lemma narrow_narrow : Narrow h.narrow.toHdcSidecar := by
  intro r b hb
  obtain ⟨old, -, rfl⟩ := Option.map_eq_some_iff.mp hb
  exact Nat.mod_lt _ (Nat.two_pow_pos 32)

lemma Narrow.remove (hn : Narrow h.toHdcSidecar) (id : MemoryId) (realm : String) :
    Narrow (h.remove id realm).toHdcSidecar := by
  unfold HdcStore.remove
  cases hmemory : h.memories id with
  | none => exact hn
  | some hv =>
    refine Maps.forall_update hn fun b hb => ?_
    obtain ⟨old, hold, rfl⟩ := Option.map_eq_some_iff.mp hb
    have hlt := hn realm old hold
    unfold RealmBundle.remove
    split_ifs
    · exact hlt
    · dsimp only
      omega

lemma Formed.rebuild (entries : List (UInt64 × String × String)) :
    Formed (h.rebuild T (entries.map fun e => (e.1.toNat, e.2))).toHdcSidecar := by
  unfold HdcStore.rebuild
  rw [List.foldl_map]
  exact List.foldlRecOn (motive := fun h : HdcStore => Formed h.toHdcSidecar) entries _ formed_new
    fun _ hf e _ => hf.insert e.1.toNat_lt _ _

/-- Every index that a run leads to is formed. -/
lemma formed_edited (T : Casing) (edits : List Edit) :
    Formed (edited T edits).toHdcSidecar ∧ Narrow (edited T edits).toHdcSidecar := by
  have hnew : Narrow new.toHdcSidecar := fun r b hb => by cases hb
  refine List.foldlRecOn (motive := fun h => Formed h.toHdcSidecar ∧ Narrow h.toHdcSidecar) edits
    (edit T) ⟨formed_new, hnew⟩ fun h hf e _ => ?_
  cases e with
  | insert id text realm => exact ⟨(hf.1.insert id.toNat_lt text realm).narrow, narrow_narrow⟩
  | remove id realm => exact ⟨hf.1.remove _ realm, hf.2.remove _ realm⟩
  | rebuild entries => exact ⟨(Formed.rebuild entries).narrow, narrow_narrow⟩

/-! ## What is written is read back -/

lemma reads_takeBytes (bs : Bytes) : Reads (takeBytes bs.length) bs bs := by
  intro rest
  unfold takeBytes
  rw [readExact_append rfl]

lemma reads_word {w n : ℕ} (hn : n < 256 ^ w) : Reads (word w) (leBytes w n) n := by
  have htake := reads_takeBytes (leBytes w n)
  rw [length_leBytes] at htake
  have hword := htake.bind_pure (g := leNat)
  rwa [leNat_leBytes hn] at hword

/-- A list of integers is read back. -/
lemma reads_words {w : ℕ} {l : List ℕ} (hl : ∀ n ∈ l, n < 256 ^ w) :
    Reads (times l.length (word w)) (l.flatMap (leBytes w)) l := by
  have htimes := Reads.times (g := id) fun n hn => reads_word (hl n hn)
  rwa [List.map_id] at htimes

lemma reads_memory {s : HdcSidecar} {id : MemoryId} (hid : id < 2 ^ 64) :
    Reads readMemory (memoryBytes s id) (id, (s.memories id).getD fun _ => 0) := by
  generalize hhv : ((s.memories id).getD fun _ => 0) = hv
  have hwords : Reads (times Hdc.D (word 8)) (vectorBytes hv) (List.ofFn fun wi => (hv wi).toNat) := by
    have hread := reads_words (w := 8) (l := List.ofFn fun wi => (hv wi).toNat) fun n hn => by
      obtain ⟨wi, rfl⟩ := List.mem_ofFn.mp hn
      exact (hv wi).toNat_lt
    have hbytes : vectorBytes hv = (List.ofFn fun wi => (hv wi).toNat).flatMap (leBytes 8) := by
      have hmap : (List.ofFn fun wi => (hv wi).toNat) = (List.ofFn hv).map UInt64.toNat :=
        List.ofFn_comp' hv UInt64.toNat
      rw [vectorBytes, hmap, List.flatMap_map]
    rw [List.length_ofFn] at hread
    rwa [hbytes]
  have hback : (fun wi : Fin Hdc.D => UInt64.ofNat ((List.ofFn fun wi => (hv wi).toNat).getD wi 0)) = hv := by
    funext wi
    rw [List.getD_eq_getElem?_getD, List.getElem?_ofFn, dif_pos wi.2, Option.getD_some]
    exact UInt64.ofNat_toNat
  have hrest : Reads (times Hdc.D (word 8) >>= fun words =>
      pure (id, fun wi : Fin Hdc.D => UInt64.ofNat (words.getD wi 0))) (vectorBytes hv) (id, hv) := by
    have hread := hwords.bind_pure
      (g := fun words => (id, fun wi : Fin Hdc.D => UInt64.ofNat (words.getD wi 0)))
    rwa [hback] at hread
  unfold memoryBytes readMemory
  rw [hhv]
  exact (reads_word hid).bind hrest

lemma counters_getD {b : RealmBundle} {wi : Fin Hdc.D} {k : ℕ} (hk : k < 64) :
    (counters b).getD (wi * 64 + k) 0 = b.counts wi k := by
  have hlt : wi * 64 + k < Hdc.D * 64 := by
    have := wi.2
    omega
  have hdiv : (wi * 64 + k) / 64 = wi := by omega
  have hmod : (wi * 64 + k) % 64 = k := by omega
  rw [counters, List.getD_eq_getElem?_getD, List.getElem?_map, List.getElem?_range hlt, Option.map_some,
    Option.getD_some, hdiv, hmod, Fin.ofNat_val_eq_self]

lemma reads_bundle {b : RealmBundle} (hn : b.n < 2 ^ 32)
    (hcounts : ∀ wi k, b.counts wi k < 2 ^ 16 ∧ b.counts wi k = b.counts wi (k % 64)) :
    Reads readBundle (bundleBytes b) b := by
  have hwords := reads_words (w := 2) (l := counters b) fun n hmem => by
    obtain ⟨k, -, rfl⟩ := List.mem_map.mp hmem
    exact (hcounts _ _).1
  have hlength : (counters b).length = Hdc.D * 64 := by
    rw [counters, List.length_map, List.length_range]
  rw [hlength] at hwords
  have hback : (⟨fun wi k => (counters b).getD (wi * 64 + k % 64) 0, b.n⟩ : RealmBundle) = b := by
    refine congrArg (fun counts => (⟨counts, b.n⟩ : RealmBundle)) (funext fun wi => funext fun k => ?_)
    rw [counters_getD (Nat.mod_lt k (by decide))]
    exact (hcounts wi k).2.symm
  have hrest : Reads (times (Hdc.D * 64) (word 2) >>= fun counts =>
      pure (⟨fun wi k => counts.getD (wi * 64 + k % 64) 0, b.n⟩ : RealmBundle))
      ((counters b).flatMap (leBytes 2)) b := by
    have hread := hwords.bind_pure (g := fun counts =>
      (⟨fun wi k => counts.getD (wi * 64 + k % 64) 0, b.n⟩ : RealmBundle))
    rw [hback] at hread
    exact hread
  unfold bundleBytes readBundle
  exact (reads_word hn).bind hrest

lemma reads_fromUtf8 (realm : String) : Reads (fromUtf8 (nameBytes realm)) [] realm := by
  have hback : String.fromUTF8? ⟨(nameBytes realm).toArray⟩ = some realm := by
    unfold String.fromUTF8?
    exact dif_pos realm.isValidUTF8
  unfold fromUtf8
  rw [hback]
  exact reads_pure

lemma reads_realm {s : HdcSidecar} (hf : Formed s) (hn : Narrow s) {p : String × List MemoryId}
    (hmembers : s.realmMembers p.1 = some p.2.toFinset) (hname : (nameBytes p.1).length < 2 ^ 32)
    (hlength : p.2.length < 2 ^ 32) :
    Reads readRealm (realmBytes s p) (p.1, p.2, (s.realmBundles p.1).getD .default) := by
  have hsome : (s.realmBundles p.1).isSome := by
    rw [hf.bundled, hmembers]
    rfl
  obtain ⟨b, hb⟩ := Option.isSome_iff_exists.mp hsome
  have hids : ∀ id ∈ p.2, id < 256 ^ 8 := fun id hid =>
    hf.member_lt _ _ hmembers id (List.mem_toFinset.mpr hid)
  have hbundle := reads_bundle (hn _ _ hb) (hf.counts _ _ hb)
  unfold realmBytes readRealm
  rw [hb, Option.getD_some]
  refine (reads_word hname).bind ((reads_takeBytes (nameBytes p.1)).bind ?_)
  rw [← List.nil_append (leBytes 4 p.2.length ++ _)]
  refine (reads_fromUtf8 p.1).bind ((reads_word hlength).bind ((reads_words hids).bind ?_))
  exact hbundle.bind_pure

/-! ## The round trip -/

lemma foldl_insertMemory (f : MemoryId → HdcVec) (ids : List MemoryId) (s : HdcSidecar) :
    (ids.map fun id => (id, f id)).foldl insertMemory s = { s with
      memories := fun id => if id ∈ ids then some (f id) else s.memories id
      ids := s.ids ∪ ids.toFinset } := by
  induction ids generalizing s with
  | nil => simp
  | cons i ids ih =>
    rw [List.map_cons, List.foldl_cons, ih]
    unfold insertMemory
    dsimp only
    congr 1
    · funext id
      rw [Function.update_apply]
      by_cases hi : id = i <;> simp [hi]
    · ext id
      simp

lemma foldl_insertRealm (m : String → Option (Finset MemoryId)) (b : String → RealmBundle)
    (realms : List (String × List MemoryId)) (hm : ∀ p ∈ realms, m p.1 = some p.2.toFinset)
    (s : HdcSidecar) :
    (realms.map fun p => (p.1, p.2, b p.1)).foldl insertRealm s = { s with
      realmMembers := fun r => if r ∈ realms.map (·.1) then m r else s.realmMembers r
      realmBundles := fun r => if r ∈ realms.map (·.1) then some (b r) else s.realmBundles r } := by
  induction realms generalizing s with
  | nil => simp
  | cons p realms ih =>
    obtain ⟨hp, hm⟩ := List.forall_mem_cons.mp hm
    rw [List.map_cons, List.foldl_cons, ih hm]
    unfold insertRealm
    dsimp only
    congr 1
    · funext r
      simp only [Function.update_apply, List.map_cons, List.mem_cons]
      by_cases hr : r = p.1
      · simp [hr]
      · simp only [hr, if_false, false_or]
    · funext r
      simp only [Function.update_apply, List.map_cons, List.mem_cons]
      by_cases hr : r = p.1
      · simp [hr, hp]
      · simp only [hr, if_false, false_or]

/-- A file gives the index back. -/
lemma reads_sidecar {s : HdcSidecar} (hf : Formed s) (hn : Narrow s) {memories : List MemoryId}
    {realms : List (String × List MemoryId)} (hwalk : Walks s memories realms)
    (hfits : Fits memories realms) :
    Reads readSidecar (sidecarBytes s memories realms) (s, memories.length) := by
  have hmemories := Reads.times fun id hid => reads_memory (s := s)
    (hf.id_lt id ((hwalk.mem_memories id).mp hid))
  have hrealms := Reads.times fun p hp =>
    reads_realm hf hn (hwalk.members p hp) (hfits.names_lt p hp) (hfits.members_lt p hp)
  have hback : (realms.map fun p => (p.1, p.2, (s.realmBundles p.1).getD .default)).foldl insertRealm
      ((memories.map fun id => (id, (s.memories id).getD fun _ => 0)).foldl insertMemory
        new.toHdcSidecar) = s := by
    rw [foldl_insertMemory fun id => (s.memories id).getD fun _ => 0,
      foldl_insertRealm s.realmMembers (fun r => (s.realmBundles r).getD .default) _ hwalk.members]
    have hids : memories.toFinset = s.ids := by
      ext id
      rw [List.mem_toFinset, hwalk.mem_memories]
    have hmemory : ∀ id, (if id ∈ memories then some ((s.memories id).getD fun _ => 0) else none) =
        s.memories id := by
      intro id
      simp only [hwalk.mem_memories, hf.mem_ids]
      cases s.memories id <;> rfl
    have hmember : ∀ r, (if r ∈ realms.map (·.1) then s.realmMembers r else none) = s.realmMembers r := by
      intro r
      simp only [hwalk.mem_realms]
      cases s.realmMembers r <;> rfl
    have hbundle : ∀ r, (if r ∈ realms.map (·.1) then some ((s.realmBundles r).getD .default) else none) =
        s.realmBundles r := by
      intro r
      simp only [hwalk.mem_realms, ← hf.bundled]
      cases s.realmBundles r <;> rfl
    dsimp only [new]
    rw [hids, Finset.empty_union, funext hmemory, funext hmember, funext hbundle]
  unfold sidecarBytes readSidecar
  refine (reads_word (by decide)).bind ?_
  rw [← List.nil_append (leBytes 8 memories.length ++ _)]
  refine Reads.bind (f := fun _ => _) (x := ()) reads_pure ?_
  refine (reads_word hfits.memories_lt).bind (hmemories.bind ((reads_word hfits.realms_lt).bind ?_))
  have hread := hrealms.bind_pure (g := fun rs => (rs.foldl insertRealm
    ((memories.map fun id => (id, (s.memories id).getD fun _ => 0)).foldl insertMemory
      new.toHdcSidecar), memories.length))
  rw [hback] at hread
  exact hread

lemma stable_takeBytes (n : ℕ) : Stable (takeBytes n) := by
  intro bs x rest more h
  unfold takeBytes readExact at h ⊢
  split_ifs at h with hle
  · obtain ⟨rfl, rfl⟩ := Prod.mk.inj (Except.ok.inj h)
    rw [if_pos (by rw [List.length_append]; omega), List.take_append_of_le_length hle,
      List.drop_append_of_le_length hle]

lemma stable_word (w : ℕ) : Stable (word w) := (stable_takeBytes w).bind fun _ => stable_pure

lemma stable_sidecar : Stable readSidecar := by
  have hmemory : Stable readMemory :=
    (stable_word 8).bind fun _ => ((stable_word 8).times _).bind fun _ => stable_pure
  have hbundle : Stable readBundle :=
    (stable_word 4).bind fun _ => ((stable_word 2).times _).bind fun _ => stable_pure
  have hname : ∀ name, Stable (fromUtf8 name) := by
    intro name
    unfold fromUtf8
    cases String.fromUTF8? ⟨name.toArray⟩ with
    | none => exact stable_throw
    | some realm => exact stable_pure
  have hrealm : Stable readRealm :=
    (stable_word 4).bind fun _ => (stable_takeBytes _).bind fun _ => (hname _).bind fun _ =>
      (stable_word 4).bind fun _ => ((stable_word 8).times _).bind fun _ => hbundle.bind fun _ =>
        stable_pure
  have hmagic : ∀ magic, Stable (checkMagic magic) := by
    intro magic
    unfold checkMagic
    split_ifs
    · exact stable_pure
    · exact stable_throw
  exact (stable_word 8).bind fun _ => (hmagic _).bind fun _ => (stable_word 8).bind fun _ =>
    (hmemory.times _).bind fun _ => (stable_word 4).bind fun _ => (hrealm.times _).bind fun _ =>
      stable_pure

/-- To load a file is to load the index that was saved. -/
lemma loadFile_sidecarBytes {h : HdcStore} (hf : Formed h.toHdcSidecar) (hn : Narrow h.toHdcSidecar)
    {memories : List MemoryId} {realms : List (String × List MemoryId)}
    (hwalk : Walks h.toHdcSidecar memories realms) (hfits : Fits memories realms) (into : HdcStore) :
    into.loadFile (sidecarBytes h.toHdcSidecar memories realms) = .ok (into.loadSidecar h.saveSidecar) := by
  have hread := reads_sidecar hf hn hwalk hfits []
  have hids : memories.toFinset = h.ids := by
    ext id
    rw [List.mem_toFinset, hwalk.mem_memories]
  rw [List.append_nil] at hread
  unfold loadFile loadSidecar saveSidecar
  rw [hread, ← hids, List.toFinset_card_of_nodup hwalk.memories_nodup]
  rfl

/-- **The file of the index round-trips.**  Whatever the orders in which the maps are walked, a file
gives the index back, and what it was cut to is rejected. -/
theorem sidecar_round_trip (T : Casing) (edits : List Edit) (memories : List MemoryId)
    (realms : List (String × List MemoryId)) (hwalk : Walks (edited T edits).toHdcSidecar memories realms)
    (hfits : Fits memories realms) (into : HdcStore) :
    into.loadFile (sidecarBytes (edited T edits).toHdcSidecar memories realms) =
        .ok (⟨(edited T edits).toHdcSidecar, into.mutations⟩, memories.length) ∧
      ∀ bs, bs <+: sidecarBytes (edited T edits).toHdcSidecar memories realms →
        bs ≠ sidecarBytes (edited T edits).toHdcSidecar memories realms →
        ∃ e, into.loadFile bs = .error e := by
  obtain ⟨hf, hn⟩ := formed_edited T edits
  have hreads := reads_sidecar hf hn hwalk hfits
  constructor
  · have hcard : (edited T edits).ids.card = memories.length := by
      rw [← List.toFinset_card_of_nodup hwalk.memories_nodup]
      exact congrArg Finset.card (Finset.ext fun id => by rw [List.mem_toFinset, hwalk.mem_memories])
    rw [loadFile_sidecarBytes hf hn hwalk hfits, loadSidecar, saveSidecar, hcard]
  · intro bs hprefix hne
    obtain ⟨e, he⟩ := hreads.error_of_prefix stable_sidecar hprefix hne
    refine ⟨e, ?_⟩
    unfold loadFile
    rw [he]
    rfl

/-- Two realms, of which one has lost a memory and the other one got another text. -/
def twoRealms : List Edit :=
  [.insert 1 "ab" "r", .insert 2 "cd" "s", .insert 3 "ef" "r", .remove 1 "r", .insert 2 "gh" "s"]

/-- The file of two realms, walked from the last memory to the first. -/
theorem sidecar_of_two :
    let s := (edited .ascii twoRealms).toHdcSidecar
    let file := sidecarBytes s [3, 2] [("s", [2]), ("r", [3])]
    HdcStore.new.loadFile file = .ok (⟨s, 0⟩, 2) ∧
      ∀ bs, bs <+: file → bs ≠ file → ∃ e, HdcStore.new.loadFile bs = .error e := by
  have hids : (edited .ascii twoRealms).ids = {3, 2} := by decide
  have hmembers : ∀ r, (edited .ascii twoRealms).realmMembers r =
      if r = "s" then some {2} else if r = "r" then some {3} else none := by
    intro r
    by_cases hs : r = "s"
    · subst hs
      decide
    · by_cases hr : r = "r"
      · subst hr
        decide
      · simp [edited, twoRealms, edit, narrow, HdcStore.insert, HdcStore.remove, HdcStore.new, hs, hr]
  refine sidecar_round_trip .ascii twoRealms [3, 2] [("s", [2]), ("r", [3])]
    ⟨by decide, fun id => ?_, by decide, fun r => ?_, by decide, ?_⟩ ⟨by decide, by decide, by decide, ?_⟩
    .new
  · rw [hids]
    simp
  · rw [hmembers]
    split_ifs <;> simp [*]
  · simp [hmembers]
  · simp only [List.forall_mem_cons, List.not_mem_nil, false_implies, implies_true, and_true]
    decide +kernel

lemma word_lt {w n : ℕ} {bs rest : Bytes} (h : word w bs = .ok (n, rest)) : n < 256 ^ w := by
  obtain ⟨buf, bs', hbuf, h⟩ := exists_of_bind_ok h
  obtain ⟨rfl, rfl⟩ := Prod.mk.inj (Except.ok.inj h)
  unfold takeBytes readExact at hbuf
  split_ifs at hbuf with hle
  obtain ⟨rfl, rfl⟩ := Prod.mk.inj (Except.ok.inj hbuf)
  have hlt := leNat_lt (bs.take w)
  rwa [List.length_take, Nat.min_eq_left hle] at hlt

/-- The name of a realm that is read is shorter than 2 ^ 32 bytes. -/
lemma name_lt {bs rest : Bytes} {p : String × List MemoryId × RealmBundle}
    (h : readRealm bs = .ok (p, rest)) : (nameBytes p.1).length < 2 ^ 32 := by
  obtain ⟨nameLen, bs₁, hlen, h⟩ := exists_of_bind_ok h
  obtain ⟨name, bs₂, hname, h⟩ := exists_of_bind_ok h
  obtain ⟨realm, bs₃, hutf8, h⟩ := exists_of_bind_ok h
  obtain ⟨_, _, -, h⟩ := exists_of_bind_ok h
  obtain ⟨_, _, -, h⟩ := exists_of_bind_ok h
  obtain ⟨_, _, -, h⟩ := exists_of_bind_ok h
  obtain ⟨rfl, rfl⟩ := Prod.mk.inj (Except.ok.inj h)
  have hlength : name.length = nameLen := by
    unfold takeBytes readExact at hname
    split_ifs at hname with hle
    obtain ⟨rfl, rfl⟩ := Prod.mk.inj (Except.ok.inj hname)
    rw [List.length_take, Nat.min_eq_left hle]
  have hsame : nameBytes realm = name := by
    unfold fromUtf8 String.fromUTF8? at hutf8
    split_ifs at hutf8 with hvalid
    · obtain ⟨rfl, rfl⟩ := Prod.mk.inj (Except.ok.inj hutf8)
      rfl
    · cases hutf8
  rw [hsame, hlength]
  exact word_lt hlen

lemma exists_of_foldl_insertRealm {realms : List (String × List MemoryId × RealmBundle)}
    {s : HdcSidecar} {r : String} (hnone : s.realmMembers r = none)
    (hsome : ((realms.foldl insertRealm s).realmMembers r).isSome) : ∃ p ∈ realms, p.1 = r := by
  induction realms generalizing s with
  | nil =>
    rw [List.foldl_nil, hnone] at hsome
    cases hsome
  | cons p realms ih =>
    by_cases hp : p.1 = r
    · exact ⟨p, List.mem_cons_self, hp⟩
    · obtain ⟨p', hp', hr'⟩ :=
        ih (s := insertRealm s p) ((Function.update_of_ne (Ne.symm hp) ..).trans hnone) hsome
      exact ⟨p', List.mem_cons_of_mem _ hp', hr'⟩

lemma realmMembers_foldl_insertMemory (memories : List (MemoryId × HdcVec)) (s : HdcSidecar) :
    (memories.foldl insertMemory s).realmMembers = s.realmMembers := by
  induction memories generalizing s with
  | nil => rfl
  | cons p memories ih => exact ih _

/-- The names of the realms of a file are shorter than 2 ^ 32 bytes. -/
lemma names_lt {bs : Bytes} {p : (HdcSidecar × ℕ) × Bytes} (h : readSidecar bs = .ok p) {r : String}
    (hr : (p.1.1.realmMembers r).isSome) : (nameBytes r).length < 2 ^ 32 := by
  obtain ⟨⟨s, n⟩, rest⟩ := p
  obtain ⟨_, _, -, h⟩ := exists_of_bind_ok h
  obtain ⟨_, _, -, h⟩ := exists_of_bind_ok h
  obtain ⟨_, _, -, h⟩ := exists_of_bind_ok h
  obtain ⟨memories, _, -, h⟩ := exists_of_bind_ok h
  obtain ⟨_, _, -, h⟩ := exists_of_bind_ok h
  obtain ⟨realms, _, hrealms, h⟩ := exists_of_bind_ok h
  have hs := congrArg Prod.fst (Prod.mk.inj (Except.ok.inj h)).1
  dsimp only at hs hr
  have hnone : (memories.foldl insertMemory new.toHdcSidecar).realmMembers r = none := by
    rw [realmMembers_foldl_insertMemory]
    rfl
  rw [← hs] at hr
  obtain ⟨p, hp, rfl⟩ := exists_of_foldl_insertRealm hnone hr
  exact forall_of_times_ok (fun _ _ _ => name_lt) _ hrealms p hp

/-- A name of so many letters. -/
def longName (n : ℕ) : String := String.ofList (List.replicate n 'a')

lemma length_nameBytes_longName (n : ℕ) : (nameBytes (longName n)).length = n := by
  have hsize : (longName n).utf8ByteSize = n := by
    induction n with
    | zero => rfl
    | succ n ih =>
      have hpush : longName (n + 1) = (longName n).push 'a' := by
        rw [longName, List.replicate_succ', String.ofList_append, String.push_eq_append]
        rfl
      rw [hpush, String.utf8ByteSize_push, ih]
      rfl
  rw [nameBytes, Array.length_toList]
  exact hsize

/-- The index of a realm with a name of 2 ^ 32 bytes is not given back. -/
theorem long_name_lost :
    Walks (edited .ascii [.insert 1 "" (longName (2 ^ 32))]).toHdcSidecar [1] [(longName (2 ^ 32), [1])] ∧
    ∀ n, HdcStore.new.loadFile (sidecarBytes
      (edited .ascii [.insert 1 "" (longName (2 ^ 32))]).toHdcSidecar [1] [(longName (2 ^ 32), [1])]) ≠
      .ok (⟨(edited .ascii [.insert 1 "" (longName (2 ^ 32))]).toHdcSidecar, 0⟩, n) := by
  have hlong := length_nameBytes_longName (2 ^ 32)
  generalize longName (2 ^ 32) = name at hlong ⊢
  have hmembers : (edited .ascii [.insert 1 "" name]).realmMembers =
      Function.update (fun _ => none) name (some {1}) := rfl
  constructor
  · refine ⟨by decide, fun id => ?_, by simp, fun r => ?_, ?_, ?_⟩
    · have hids : (edited .ascii [.insert 1 "" name]).ids = {1} := rfl
      rw [hids, List.mem_singleton, Finset.mem_singleton]
    · rw [hmembers, Function.update_apply, List.map_singleton, List.mem_singleton]
      split_ifs with hr
      · exact iff_of_true hr rfl
      · exact iff_of_false hr Bool.false_ne_true
    · exact List.forall_mem_singleton.mpr (List.nodup_singleton 1)
    · refine List.forall_mem_singleton.mpr ?_
      rw [hmembers]
      exact Function.update_self ..
  · intro n hload
    generalize sidecarBytes (edited .ascii [.insert 1 "" name]).toHdcSidecar [1] [(name, [1])] = bs at hload
    unfold loadFile at hload
    cases hread : readSidecar bs with
    | error e =>
      rw [hread] at hload
      cases hload
    | ok p =>
      rw [hread] at hload
      have hs : p.1.1 = (edited .ascii [.insert 1 "" name]).toHdcSidecar :=
        congrArg (fun q => q.1.toHdcSidecar) (Except.ok.inj hload)
      have hsome : (p.1.1.realmMembers name).isSome := by
        rw [hs, hmembers, Function.update_self]
        rfl
      have hlt := names_lt hread hsome
      omega

end HdcStore

end ChittaField
