import ChittaField.Checkpoint.Selection
import ChittaField.Log.Coverage

/-!
# Saving a snapshot family

A running field saves its maps under the name of its instance: sidecars first, then the snapshot
itself and the cortical data, then the manifest that commits them, and last it removes the log
segments that the family covers.  All saves of one instance write the same files.

A field that is opened takes one of the families on disk and replays the records of the log that this
family does not cover.
-/

namespace ChittaField

variable {F : Type}

/-- A record of the log: its writer, its sequence number and its operation. -/
abbrev LogRecord (F : Type) := InstanceId × ℕ × Op F

/-! ## The disk -/

/-- A data directory: the records in its segments in the order of replay, the files of its snapshot
families, the records whose effects are in each snapshot, and the manifest. -/
structure Disk (F : Type) where
  wal : List (LogRecord F)
  files : FamilyDir
  held : Stem → List (LogRecord F)
  manifests : ManifestDir

/-- Write a file of a family. -/
def FamilyDir.write (dir : FamilyDir) (f : FamilyFile) (size : ℕ) : FamilyDir where
  listing := if f ∈ dir.listing then dir.listing else dir.listing ++ [f]
  nodup := by
    split
    · exact dir.nodup
    · rename_i hnot
      exact List.nodup_append.mpr ⟨dir.nodup, by simp, fun a ha b hb heq =>
        hnot (List.mem_singleton.mp hb ▸ heq ▸ ha)⟩
  size := Function.update dir.size f size
  peekSeqno := dir.peekSeqno

namespace Disk

/-- The family that the manifest has for a snapshot. -/
def familyFor (d : Disk F) (stem : Stem) : Option SnapshotFamily :=
  d.manifests.load.bind fun m =>
    m.allFamilies.find? fun cp => cp.snapshot.name = FamilyFile.name ⟨stem, .snapshot⟩

/-- What startup replay knows when this snapshot is loaded, or none. -/
def loadedWith (d : Disk F) (loaded : Option Stem) : LoadedSnapshots where
  snapshotSeqno := (loaded.bind d.files.peekSeqno).getD 0
  fullSnapshotSeqno := (loaded.bind d.files.peekSeqno).getD 0
  family := (loaded.bind d.familyFor).map SnapshotFamily.toCheckpointSet
  certifiedCortical := false

/-- The loaded snapshot is said to hold a record. -/
def covers (d : Disk F) (loaded : Option Stem) (r : LogRecord F) : Bool :=
  (d.loadedWith loaded).coveredByFull r.1 r.2.1

/-- The records that are replayed over the loaded snapshot. -/
def replayed (d : Disk F) (loaded : Option Stem) : List (LogRecord F) :=
  d.wal.filter fun r => !d.covers loaded r

/-- The snapshot that an open loads.  The files on disk are complete, so all pass the fences. -/
def load (d : Disk F) : Except FieldError (Option Stem) :=
  d.files.loadSnapshots d.manifests.load fun _ => true

/-- The records that are applied when the field is opened: those that the loaded snapshot holds, and
those that are replayed. -/
def reopen (d : Disk F) : Except FieldError (List (LogRecord F)) :=
  d.load.map fun loaded => (loaded.map d.held).getD [] ++ d.replayed loaded

/-! ## The steps of a save -/

/-- Write a sidecar. -/
def writeSidecar (f : FamilyFile) (size : ℕ) (d : Disk F) : Disk F :=
  { d with files := d.files.write f size }

/-- Write the snapshot. -/
def writeSnapshot (stem : Stem) (seqno size : ℕ) (held : List (LogRecord F)) (d : Disk F) : Disk F :=
  { d with
    files := { d.files.write ⟨stem, .snapshot⟩ size with
      peekSeqno := Function.update d.files.peekSeqno stem (some seqno) }
    held := Function.update d.held stem held }

/-- The files of a family that a manifest records, apart from the snapshot. -/
def recordedExts : List FileExt :=
  [.emb, .hdc, .bin, .mu, .hnsw, .deltaHnsw, .realmHnsw, .pld, .supJson, .shdr, .cortex]

/-- A file as the manifest records it. -/
def fileRef (d : Disk F) (f : FamilyFile) : FileRef := ⟨f.name, d.files.size f⟩

/-- The family of a snapshot that was just written. -/
def family (d : Disk F) (stem : Stem) (seqno : ℕ) (covered : List (List Char × ℕ))
    (segments : List SegmentInfo) (vectorSpaceId : ℕ) : SnapshotFamily where
  snapshotSeqno := seqno
  covered := covered
  corticalCovered := covered
  segments := segments
  vectorSpaceId := some vectorSpaceId
  snapshot := d.fileRef ⟨stem, .snapshot⟩
  sidecars := ((recordedExts.map (FamilyFile.mk stem)).filter (· ∈ d.files.listing)).map d.fileRef
  cortical := some (d.fileRef ⟨stem, .cortex⟩)

/-- Commit the family to the manifest. -/
def commit (stem : Stem) (seqno : ℕ) (covered : List (List Char × ℕ)) (segments : List SegmentInfo)
    (vectorSpaceId : ℕ) (d : Disk F) : Disk F :=
  { d with
    manifests := d.manifests.save
      (Commit.onto ⟨stem, d.family stem seqno covered segments vectorSpaceId⟩ d.manifests.load) }

/-- Remove a segment, given by its records, if the committed family covers all of them. -/
def removeSegment (stem : Stem) (segment : LogRecord F → Bool) (d : Disk F) : Disk F :=
  if (d.wal.filter segment).all (d.covers (some stem)) then
    { d with wal := d.wal.filter fun r => !segment r }
  else d

/-- Remove a file of another, older family. -/
def removeOld (stem : Stem) (f : FamilyFile) (d : Disk F) : Disk F :=
  if f.stem = stem then d
  else
    { d with files := { d.files with
        listing := d.files.listing.filter (· ≠ f)
        nodup := d.files.nodup.filter _ } }

end Disk

/-! ## The running field -/

/-- A running field: its instance, how far it has seen the other writers, the records it has applied,
those that peers have written since, the next sequence number, and the data directory. -/
structure Checkpointed (F : Type) where
  inst : InstanceId
  walCoverage : OrderedMap InstanceId ℕ
  log : List (LogRecord F)
  pending : List (LogRecord F)
  nextSeqno : ℕ
  disk : Disk F

/-- What a save finds: the sidecars that it rewrites, with their sizes, the sizes of the snapshot and
of the cortical data, the vector space, the inventory, the sealed segments, and the files of families
that are too old to be kept. -/
structure SaveEnv (F : Type) where
  sidecars : List (FileExt × ℕ)
  snapshotSize : ℕ
  cortexSize : ℕ
  vectorSpaceId : ℕ
  inventory : List SegmentInfo
  sealed : List (LogRecord F → Bool)
  old : List FamilyFile

namespace Checkpointed

/-- The name of the instance's families. -/
def stem (s : Checkpointed F) : Stem := instHex s.inst

/-- All records that were written. -/
def history (s : Checkpointed F) : List (LogRecord F) := s.log ++ s.pending

/-- Append an operation to the log and apply it. -/
def append (s : Checkpointed F) (op : Op F) : Checkpointed F :=
  { s with
    log := s.log ++ [(s.inst, s.nextSeqno, op)]
    nextSeqno := s.nextSeqno + 1
    disk := { s.disk with wal := s.disk.wal ++ [(s.inst, s.nextSeqno, op)] } }

/-- The record is the next one of another writer. -/
def IsNew (s : Checkpointed F) (r : LogRecord F) : Prop :=
  r.1 ≠ s.inst ∧ r.1 < 2 ^ 32 ∧ (s.walCoverage.get? r.1).getD 0 < r.2.1 ∧
    ∀ q ∈ s.pending, q.1 = r.1 → q.2.1 < r.2.1

instance (s : Checkpointed F) (r : LogRecord F) : Decidable (s.IsNew r) := by
  unfold IsNew
  infer_instance

/-- The record appears in the log. -/
def written (s : Checkpointed F) (r : LogRecord F) : Checkpointed F :=
  { s with
    pending := s.pending ++ [r]
    disk := { s.disk with wal := s.disk.wal ++ [r] } }

/-- A peer writes its next record. -/
def peer (s : Checkpointed F) (r : LogRecord F) : Checkpointed F :=
  if s.IsNew r then s.written r else s

/-- Apply a record of a peer. -/
def taken (s : Checkpointed F) (r : LogRecord F) (rest : List (LogRecord F)) : Checkpointed F :=
  { s with
    walCoverage := s.walCoverage.insert r.1 r.2.1
    log := s.log ++ [r]
    pending := rest }

/-- Apply the next record that a peer has written. -/
def ingest (s : Checkpointed F) : Checkpointed F :=
  match s.pending with
  | [] => s
  | r :: rest => s.taken r rest

/-- The sequence number of the last operation. -/
def lastSeqno (s : Checkpointed F) : ℕ := s.nextSeqno - 1

/-- The coverage vector of a save: what was replayed, and all own operations. -/
def coverage (s : Checkpointed F) : OrderedMap InstanceId ℕ :=
  s.walCoverage.insert s.inst (max ((s.walCoverage.get? s.inst).getD 0) s.lastSeqno)

/-- The coverage vector with the ids written out. -/
def covered (s : Checkpointed F) : List (List Char × ℕ) :=
  s.coverage.entries.map fun e => (instHex e.1, e.2)

/-- The sidecars that a save writes before the snapshot. -/
def sidecarSteps (s : Checkpointed F) (env : SaveEnv F) : List (Disk F → Disk F) :=
  (env.sidecars.filter fun e => e.1 ≠ .snapshot).map fun e => Disk.writeSidecar ⟨s.stem, e.1⟩ e.2

/-- The steps of a save. -/
def saveSteps (s : Checkpointed F) (env : SaveEnv F) : List (Disk F → Disk F) :=
  s.sidecarSteps env ++
    [Disk.writeSnapshot s.stem s.lastSeqno env.snapshotSize s.log,
      Disk.writeSidecar ⟨s.stem, .cortex⟩ env.cortexSize,
      Disk.commit s.stem s.lastSeqno s.covered env.inventory env.vectorSpaceId] ++
    env.sealed.map (Disk.removeSegment s.stem) ++ env.old.map (Disk.removeOld s.stem)

/-- Take steps one after the other. -/
def takeSteps (steps : List (Disk F → Disk F)) (d : Disk F) : Disk F :=
  steps.foldl (fun d step => step d) d

/-- The disk after a crash when so many steps of a save are done. -/
def crash (s : Checkpointed F) (env : SaveEnv F) (done : ℕ) : Disk F :=
  takeSteps ((s.saveSteps env).take done) s.disk

/-- Save. -/
def save (s : Checkpointed F) (env : SaveEnv F) : Checkpointed F :=
  { s with disk := takeSteps (s.saveSteps env) s.disk }

/-- What happens to a running field. -/
inductive Event (F : Type) where
  | append (op : Op F)
  | peer (r : LogRecord F)
  | ingest
  | save (env : SaveEnv F)

def step (s : Checkpointed F) : Event F → Checkpointed F
  | .append op => s.append op
  | .peer r => s.peer r
  | .ingest => s.ingest
  | .save env => s.save env

def run (s : Checkpointed F) (events : List (Event F)) : Checkpointed F := events.foldl step s

end Checkpointed

/-! ## Coverage vectors -/

/-- A coverage vector that is written out reads back. -/
lemma coverageVector_entries {m : OrderedMap InstanceId ℕ}
    (hkeys : ∀ k n, m.get? k = some n → k < 2 ^ 32) (inst : InstanceId) :
    coverageVector (m.entries.map fun e => (instHex e.1, e.2)) inst = m.get? inst := by
  have hfold : ∀ f : (InstanceId → Option ℕ) → List Char × ℕ → InstanceId → Option ℕ,
      (∀ v k n, k < 2 ^ 32 → f v (instHex k, n) = Function.update v k (some n)) →
        ∀ (es : List (InstanceId × ℕ)) (v : InstanceId → Option ℕ),
          (es.map Prod.fst).Pairwise (· < ·) → (∀ e ∈ es, e.1 < 2 ^ 32) →
            (es.map fun e => (instHex e.1, e.2)).foldl f v inst =
              (OrderedMap.find inst es).or (v inst) := by
    intro f hf es
    induction es with
    | nil => exact fun v _ _ => rfl
    | cons e es ih =>
      intro v hsorted hlt
      obtain ⟨hhead, htail⟩ := List.pairwise_cons.mp hsorted
      rw [List.map_cons, List.foldl_cons, ih _ htail fun e' he' => hlt e' (by simp [he']),
        OrderedMap.find_cons, hf v e.1 e.2 (hlt e (by simp))]
      by_cases he : e.1 = inst
      · subst he
        have hnone : OrderedMap.find e.1 es = none :=
          OrderedMap.find_eq_none fun hmem => lt_irrefl _ (hhead e.1 hmem)
        simp [hnone]
      · rw [if_neg he, Function.update_of_ne (Ne.symm he)]
  refine (hfold _ (fun v k n hk => ?_) m.entries _ m.sorted fun e he => ?_).trans Option.or_none
  · simp only [fromStrRadix16_instHex hk]
  · exact hkeys e.1 e.2 (OrderedMap.get?_eq_some.mpr he)

variable {s : LoadedSnapshots} {cp : CheckpointSet}

namespace LoadedSnapshots

lemma coveredByFull_of_some (hcp : s.family = some cp) {inst : InstanceId} {n : ℕ}
    (hn : coverageVector cp.covered inst = some n) (seqno : ℕ) :
    s.coveredByFull inst seqno = decide (seqno ≤ n) := by
  simp [coveredByFull, hcp, hn]

lemma coveredByFull_of_missing (hcp : s.family = some cp) {inst : InstanceId}
    (hnone : coverageVector cp.covered inst = none) {p : List Char × ℕ} (hp : p ∈ cp.covered)
    (hread : (fromStrRadix16 p.1).isSome) (seqno : ℕ) : s.coveredByFull inst seqno = false := by
  have hnot : s.fullCoveredIsEmpty = false := by
    rw [fullCoveredIsEmpty, hcp, Option.all_some, List.all_eq_false]
    exact ⟨p, hp, by simpa [Option.isNone_iff_eq_none, Option.isSome_iff_ne_none] using hread⟩
  simp [coveredByFull, hcp, hnone, hnot]

lemma coveredByFull_of_none (h : s.family = none) (inst : InstanceId) (seqno : ℕ) :
    s.coveredByFull inst seqno = decide (seqno ≤ s.fullSnapshotSeqno) := by
  simp [coveredByFull, fullCoveredIsEmpty, h]

end LoadedSnapshots

/-! ## What a manifest records -/

/-- The manifest has each family once, by its writer, and the instance's own by its name. -/
structure Manifest.Tidy (m : Manifest) (stem : Stem) : Prop where
  unique : ∀ k k' cp cp', m.families.get? k = some cp → m.families.get? k' = some cp' →
    cp.snapshot.name = cp'.snapshot.name → k = k'
  latest : ∀ cp, m.checkpoints = some cp → ∃ k, m.families.get? k = some cp
  own : ∀ k cp, m.families.get? k = some cp →
    (cp.snapshot.name = FamilyFile.name ⟨stem, .snapshot⟩ ↔ k = stem)

lemma Manifest.Tidy.find_eq_some {m : Manifest} {stem : Stem} (h : m.Tidy stem) {name : FileName}
    {cp : SnapshotFamily} : m.allFamilies.find? (fun cp => cp.snapshot.name = name) = some cp ↔
      cp.snapshot.name = name ∧ ∃ k, m.families.get? k = some cp := by
  have hall : ∀ cp ∈ m.allFamilies, ∃ k, m.families.get? k = some cp := by
    intro cp hcp
    rcases List.mem_append.mp hcp with hcp | hcp
    · exact OrderedMap.mem_values.mp hcp
    · exact h.latest cp (Option.mem_toList.mp hcp)
  constructor
  · intro hfind
    exact ⟨by simpa using List.find?_some hfind, hall cp (List.mem_of_find?_eq_some hfind)⟩
  · rintro ⟨hname, k, hk⟩
    have hmem : cp ∈ m.allFamilies := List.mem_append_left _ (OrderedMap.mem_values.mpr ⟨k, hk⟩)
    cases hfind : m.allFamilies.find? fun cp => cp.snapshot.name = name with
    | none => exact absurd (List.find?_eq_none.mp hfind cp hmem) (by simpa using hname)
    | some cp' =>
      obtain ⟨k', hk'⟩ := hall cp' (List.mem_of_find?_eq_some hfind)
      have hname' : cp'.snapshot.name = name := by simpa using List.find?_some hfind
      obtain rfl := h.unique k k' cp cp' hk hk' (hname.trans hname'.symm)
      rw [← hk, hk']

/-- A commit under the own name leaves the manifest tidy. -/
lemma Manifest.Tidy.commit {m : Manifest} {stem : Stem} (h : m.Tidy stem) {f : SnapshotFamily}
    (hf : f.snapshot.name = FamilyFile.name ⟨stem, .snapshot⟩) : (m.commit stem f).Tidy stem := by
  have hget : ∀ k cp, (m.commit stem f).families.get? k = some cp →
      k = stem ∧ cp = f ∨ k ≠ stem ∧ m.families.get? k = some cp := by
    intro k cp hk
    rw [Manifest.commit, OrderedMap.get?_insert] at hk
    split at hk
    case isTrue heq => exact Or.inl ⟨heq.symm, (Option.some.inj hk).symm⟩
    case isFalse hne => exact Or.inr ⟨Ne.symm hne, hk⟩
  have hown : ∀ k cp, (m.commit stem f).families.get? k = some cp →
      (cp.snapshot.name = FamilyFile.name ⟨stem, .snapshot⟩ ↔ k = stem) := by
    intro k cp hk
    rcases hget k cp hk with ⟨rfl, rfl⟩ | ⟨-, hk⟩
    · exact iff_of_true hf rfl
    · exact h.own k cp hk
  refine ⟨fun k k' cp cp' hk hk' hname => ?_, fun cp hcp => ?_, hown⟩
  · by_cases hks : k = stem
    · rw [hks, (hown k' cp' hk').mp (hname ▸ (hown k cp hk).mpr hks)]
    · have hks' : k' ≠ stem := fun heq => hks ((hown k cp hk).mp (hname ▸ (hown k' cp' hk').mpr heq))
      rcases hget k cp hk with ⟨heq, -⟩ | ⟨-, hk⟩
      · exact absurd heq hks
      · rcases hget k' cp' hk' with ⟨heq, -⟩ | ⟨-, hk'⟩
        · exact absurd heq hks'
        · exact h.unique k k' cp cp' hk hk' hname
  · obtain rfl := Option.some.inj hcp
    exact ⟨stem, OrderedMap.get?_insert_self⟩

lemma Manifest.newEmpty_tidy (stem : Stem) : newEmpty.Tidy stem where
  unique _ _ _ _ h := by cases h
  latest _ h := by cases h
  own _ _ h := by cases h

/-! ## The disk between the saves -/

/-- The vector covers a record. -/
def coveredBy (m : OrderedMap InstanceId ℕ) (r : LogRecord F) : Bool :=
  (m.get? r.1).any fun n => r.2.1 ≤ n

/-- Covered is what the vector of its instance reaches. -/
lemma coveredBy_iff {m : OrderedMap InstanceId ℕ} {r : LogRecord F} :
    coveredBy m r = true ↔ ∃ n, m.get? r.1 = some n ∧ r.2.1 ≤ n := by
  simp [coveredBy, Option.any_eq_true]

/-- A family with a coverage vector covers what the vector does. -/
lemma LoadedSnapshots.coveredByFull_eq (hcp : s.family = some cp) {m : OrderedMap InstanceId ℕ}
    (hcov : cp.covered = m.entries.map fun e => (instHex e.1, e.2))
    (hkeys : ∀ k n, m.get? k = some n → k < 2 ^ 32) {k : InstanceId} {n : ℕ}
    (hsome : m.get? k = some n) (r : LogRecord F) : s.coveredByFull r.1 r.2.1 = coveredBy m r := by
  have hvector : coverageVector cp.covered r.1 = m.get? r.1 := by
    rw [hcov, coverageVector_entries hkeys]
  rw [coveredBy]
  cases hr : m.get? r.1 with
  | some max => rw [coveredByFull_of_some hcp (hvector.trans hr), Option.any_some]
  | none =>
    have hmem : (instHex k, n) ∈ cp.covered := by
      rw [hcov]
      exact List.mem_map_of_mem (f := fun e : InstanceId × ℕ => (instHex e.1, e.2))
        (OrderedMap.get?_eq_some.mp hsome)
    rw [coveredByFull_of_missing hcp (hvector.trans hr) hmem
      (by rw [fromStrRadix16_instHex (hkeys k n hsome)]; rfl)]
    rfl

lemma dot_notMem_instHex (inst : InstanceId) : '.' ∉ instHex inst := by
  intro h
  obtain ⟨n, hn, hdigit⟩ := List.mem_map.mp h
  have hlt : n < 16 := Positional.lt_of_mem_digits (by omega) hn
  interval_cases n <;> exact absurd hdigit (by decide)

namespace Disk

/-- The names of the files can be taken apart at their first dot. -/
def Named (d : Disk F) : Prop := ∀ f ∈ d.files.listing, '.' ∉ f.stem

/-- There is no snapshot on disk, and no manifest. -/
structure Unsaved (d : Disk F) : Prop where
  snapshots : ∀ stem, ⟨stem, .snapshot⟩ ∉ d.files.listing
  manifest : d.manifests.load = none

/-- There is one snapshot on disk, it holds these records, and the manifest has its family with this
coverage vector. -/
structure Saved (d : Disk F) (stem : Stem) (held : List (LogRecord F))
    (m : OrderedMap InstanceId ℕ) (seqno : ℕ) : Prop where
  snapshots : ∀ stem', ⟨stem', .snapshot⟩ ∈ d.files.listing ↔ stem' = stem
  peek : d.files.peekSeqno stem = some seqno
  held : d.held stem = held
  manifest : ∃ mf f, d.manifests.load = some mf ∧ mf.Tidy stem ∧ mf.families.get? stem = some f ∧
    f.covered = m.entries.map (fun e => (instHex e.1, e.2)) ∧ f.snapshotSeqno = seqno

variable {d d' : Disk F} {stem : Stem} {held : List (LogRecord F)} {m : OrderedMap InstanceId ℕ}
  {seqno : ℕ}

/-- Without a snapshot nothing is loaded. -/
lemma load_of_none (hnamed : d.Named) (h : ∀ stem, ⟨stem, .snapshot⟩ ∉ d.files.listing) :
    d.load = .ok none := by
  obtain ⟨loaded, hload, -⟩ := FamilyDir.exists_load d.manifests.load hnamed
    fun stem hstem => absurd hstem (h stem)
  cases loaded with
  | none => exact hload
  | some stem => exact absurd (FamilyDir.readable_of_load hload).1 (h stem)

/-- The only snapshot is the one that is loaded. -/
lemma load_of_one (hnamed : d.Named)
    (h : ∀ stem', ⟨stem', .snapshot⟩ ∈ d.files.listing ↔ stem' = stem)
    (hpeek : d.files.peekSeqno stem = some seqno) : d.load = .ok (some stem) := by
  obtain ⟨loaded, hload, hnone⟩ := FamilyDir.exists_load d.manifests.load hnamed
    fun stem' hstem' => by rw [(h stem').mp hstem', hpeek, Option.isSome_some]
  cases loaded with
  | none => exact absurd ((h stem).mpr rfl) (hnone rfl stem)
  | some stem' =>
    obtain rfl := (h stem').mp (FamilyDir.readable_of_load hload).1
    exact hload

/-- The family of the snapshot is found by its name. -/
lemma Saved.familyFor (h : d.Saved stem held m seqno) : ∃ f, d.familyFor stem = some f ∧
    f.covered = m.entries.map fun e => (instHex e.1, e.2) := by
  obtain ⟨mf, f, hload, htidy, hf, hcov, -⟩ := h.manifest
  refine ⟨f, ?_, hcov⟩
  rw [Disk.familyFor, hload, Option.bind_some]
  exact htidy.find_eq_some.mpr ⟨(htidy.own stem f hf).mpr rfl, stem, hf⟩

/-- What the snapshot is said to hold is what its coverage vector covers. -/
lemma Saved.covers_eq (h : d.Saved stem held m seqno)
    (hkeys : ∀ k n, m.get? k = some n → k < 2 ^ 32) {k : InstanceId} {n : ℕ}
    (hsome : m.get? k = some n) : d.covers (some stem) = coveredBy m := by
  obtain ⟨f, hf, hcov⟩ := h.familyFor
  have hfamily : (d.loadedWith (some stem)).family = some f.toCheckpointSet := by
    simp [loadedWith, hf]
  exact funext fun r => LoadedSnapshots.coveredByFull_eq hfamily hcov hkeys hsome r

/-! ### Sidecars -/

lemma mem_write (dir : FamilyDir) (f : FamilyFile) (size : ℕ) {f' : FamilyFile} :
    f' ∈ (dir.write f size).listing ↔ f' = f ∨ f' ∈ dir.listing := by
  rw [FamilyDir.write]
  dsimp only
  split
  case isTrue hmem =>
    rw [or_iff_right_of_imp]
    rintro rfl
    exact hmem
  case isFalse => rw [List.mem_append, List.mem_singleton, or_comm]

/-- The disks differ in sidecars only. -/
structure Alike (d d' : Disk F) : Prop where
  wal : d'.wal = d.wal
  held : d'.held = d.held
  manifests : d'.manifests = d.manifests
  peek : d'.files.peekSeqno = d.files.peekSeqno
  snapshots : ∀ stem, ⟨stem, .snapshot⟩ ∈ d'.files.listing ↔ ⟨stem, .snapshot⟩ ∈ d.files.listing

lemma Alike.refl (d : Disk F) : Alike d d := ⟨rfl, rfl, rfl, rfl, fun _ => Iff.rfl⟩

lemma Alike.trans {d'' : Disk F} (h : Alike d d') (h' : Alike d' d'') : Alike d d'' :=
  ⟨h'.wal.trans h.wal, h'.held.trans h.held, h'.manifests.trans h.manifests, h'.peek.trans h.peek,
    fun stem => (h'.snapshots stem).trans (h.snapshots stem)⟩

lemma alike_writeSidecar (d : Disk F) {f : FamilyFile} (size : ℕ) (hext : f.ext ≠ .snapshot) :
    Alike d (d.writeSidecar f size) := by
  refine ⟨rfl, rfl, rfl, rfl, fun stem => ?_⟩
  rw [Disk.writeSidecar, mem_write, or_iff_right]
  rintro rfl
  exact hext rfl

lemma Named.writeSidecar (h : d.Named) {f : FamilyFile} (size : ℕ) (hstem : '.' ∉ f.stem) :
    (d.writeSidecar f size).Named := by
  intro f' hf'
  rcases (mem_write _ _ size).mp hf' with rfl | hmem
  · exact hstem
  · exact h f' hmem

lemma Alike.unsaved (h : Alike d d') (hd : d.Unsaved) : d'.Unsaved :=
  ⟨fun stem hmem => hd.snapshots stem ((h.snapshots stem).mp hmem), h.manifests ▸ hd.manifest⟩

lemma Alike.saved (h : Alike d d') (hd : d.Saved stem held m seqno) : d'.Saved stem held m seqno :=
  ⟨fun stem' => (h.snapshots stem').trans (hd.snapshots stem'), h.peek ▸ hd.peek, h.held ▸ hd.held,
    h.manifests ▸ hd.manifest⟩

/-! ### The snapshot and its manifest -/

/-- Snapshots and families of the manifest are all of this stem, and the families are not newer. -/
structure Own (d : Disk F) (stem : Stem) (seqno : ℕ) : Prop where
  snapshots : ∀ stem', ⟨stem', .snapshot⟩ ∈ d.files.listing → stem' = stem
  tidy : ∀ mf, d.manifests.load = some mf → mf.Tidy stem
  newer : ∀ f, familyOf d.manifests.load stem = some f → f.snapshotSeqno ≤ seqno

lemma Unsaved.own (h : d.Unsaved) (stem : Stem) (seqno : ℕ) : d.Own stem seqno where
  snapshots stem' hmem := absurd hmem (h.snapshots stem')
  tidy mf hload := by
    rw [h.manifest] at hload
    cases hload
  newer f hf := by
    rw [h.manifest] at hf
    cases hf

lemma Saved.own (h : d.Saved stem held m seqno) {n : ℕ} (hle : seqno ≤ n) : d.Own stem n := by
  obtain ⟨mf, f, hload, htidy, hf, -, rfl⟩ := h.manifest
  refine ⟨fun stem' hmem => (h.snapshots stem').mp hmem, fun mf' hload' => ?_, fun f' hf' => ?_⟩
  · rw [hload] at hload'
    exact Option.some.inj hload' ▸ htidy
  · rw [hload, familyOf, Option.bind_some, hf] at hf'
    exact Option.some.inj hf' ▸ hle

/-- The snapshot was written, and the manifest does not say so yet. -/
structure Written (d : Disk F) (stem : Stem) (seqno : ℕ) (held : List (LogRecord F)) (d' : Disk F) :
    Prop where
  wal : d'.wal = d.wal
  manifests : d'.manifests = d.manifests
  held : d'.held stem = held
  peek : d'.files.peekSeqno stem = some seqno
  snapshots : ∀ stem', ⟨stem', .snapshot⟩ ∈ d'.files.listing ↔
    stem' = stem ∨ ⟨stem', .snapshot⟩ ∈ d.files.listing

lemma written_writeSnapshot (d : Disk F) (stem : Stem) (seqno size : ℕ) (held : List (LogRecord F)) :
    d.Written stem seqno held (d.writeSnapshot stem seqno size held) where
  wal := rfl
  manifests := rfl
  held := Function.update_self ..
  peek := Function.update_self ..
  snapshots stem' := (mem_write _ _ size).trans (or_congr_left (by simp))

lemma Written.alike {d'' : Disk F} (h : d.Written stem seqno held d') (h' : Alike d' d'') :
    d.Written stem seqno held d'' where
  wal := h'.wal.trans h.wal
  manifests := h'.manifests.trans h.manifests
  held := h'.held ▸ h.held
  peek := h'.peek ▸ h.peek
  snapshots stem' := (h'.snapshots stem').trans (h.snapshots stem')

lemma Written.of_alike {d₀ : Disk F} (h₀ : Alike d₀ d) (h : d.Written stem seqno held d') :
    d₀.Written stem seqno held d' where
  wal := h.wal.trans h₀.wal
  manifests := h.manifests.trans h₀.manifests
  held := h.held
  peek := h.peek
  snapshots stem' := (h.snapshots stem').trans (or_congr_right (h₀.snapshots stem'))

lemma Named.writeSnapshot (h : d.Named) (hstem : '.' ∉ stem) (size : ℕ) :
    (d.writeSnapshot stem seqno size held).Named := by
  intro f hf
  rcases (mem_write _ _ size).mp hf with rfl | hmem
  · exact hstem
  · exact h f hmem

lemma Written.snapshots_iff (h : d.Written stem seqno held d') (hown : d.Own stem seqno)
    (stem' : Stem) : ⟨stem', .snapshot⟩ ∈ d'.files.listing ↔ stem' = stem := by
  rw [h.snapshots, or_iff_left_of_imp (hown.snapshots stem')]

/-- A record is covered by the snapshot that was written, as long as the manifest does not know of
it. -/
def coversUncommitted (d : Disk F) (stem : Stem) (seqno : ℕ) (r : LogRecord F) : Bool :=
  LoadedSnapshots.coveredByFull ⟨seqno, seqno, (d.familyFor stem).map SnapshotFamily.toCheckpointSet,
    false⟩ r.1 r.2.1

/-- A crash before the commit pairs the snapshot with the coverage of the one that it replaced. -/
lemma Written.reopen (h : d.Written stem seqno held d') (hown : d.Own stem seqno)
    (hnamed : d'.Named) : d'.reopen =
      .ok (held ++ d.wal.filter fun r => !d.coversUncommitted stem seqno r) := by
  have hcovers : d'.covers (some stem) = d.coversUncommitted stem seqno := by
    funext r
    simp only [covers, coversUncommitted, loadedWith, Option.bind_some, h.peek, Option.getD_some,
      Disk.familyFor, h.manifests]
  rw [Disk.reopen, load_of_one hnamed (h.snapshots_iff hown) h.peek, Except.map, Disk.replayed, h.wal,
    hcovers, Option.map_some, Option.getD_some, h.held]

/-- The commit makes the snapshot and its coverage vector a family. -/
lemma Written.commit (h : d.Written stem seqno held d') (hown : d.Own stem seqno)
    (m : OrderedMap InstanceId ℕ) (segments : List SegmentInfo) (vectorSpaceId : ℕ) :
    (d'.commit stem seqno (m.entries.map fun e => (instHex e.1, e.2)) segments vectorSpaceId).Saved
      stem held m seqno := by
  set f := d'.family stem seqno (m.entries.map fun e => (instHex e.1, e.2)) segments vectorSpaceId
  have hload := load_save d'.manifests ⟨stem, f⟩ (by rw [h.manifests]; exact hown.newer)
  have htidy : ∀ mf, d'.manifests.load = some mf → mf.Tidy stem := by
    rw [h.manifests]
    exact hown.tidy
  refine ⟨h.snapshots_iff hown, h.peek, h.held, _, f, hload, ?_, Commit.families_onto_self, rfl, rfl⟩
  cases hm : d'.manifests.load with
  | none => exact (Manifest.newEmpty_tidy stem).commit rfl
  | some mf => exact (htidy mf hm).commit rfl

/-! ### What is removed -/

/-- The removal of old families leaves the saved one. -/
lemma Saved.removeOld (h : d.Saved stem held m seqno) (f : FamilyFile) :
    (d.removeOld stem f).Saved stem held m seqno := by
  unfold Disk.removeOld
  split
  · exact h
  rename_i hne
  refine ⟨fun stem' => ?_, h.peek, h.held, h.manifest⟩
  rw [← h.snapshots stem', List.mem_filter, and_iff_left_of_imp]
  intro hmem
  obtain rfl := (h.snapshots stem').mp hmem
  simpa using fun heq : _ = f => hne (heq ▸ rfl)

lemma Named.removeOld (h : d.Named) (f : FamilyFile) : (d.removeOld stem f).Named := by
  unfold Disk.removeOld
  split
  · exact h
  · exact fun f' hf' => h f' (List.mem_filter.mp hf').1

lemma Saved.removeSegment (h : d.Saved stem held m seqno) (segment : LogRecord F → Bool) :
    (d.removeSegment stem segment).Saved stem held m seqno := by
  unfold Disk.removeSegment
  split
  · exact ⟨h.snapshots, h.peek, h.held, h.manifest⟩
  · exact h

lemma Named.removeSegment (h : d.Named) (segment : LogRecord F → Bool) :
    (d.removeSegment stem segment).Named := by
  unfold Disk.removeSegment
  split <;> exact h

/-- Only records that the family covers are removed. -/
lemma filter_removeSegment (d : Disk F) (stem : Stem) (segment : LogRecord F → Bool) :
    ((d.removeSegment stem segment).wal.filter fun r => !d.covers (some stem) r) =
      d.wal.filter fun r => !d.covers (some stem) r := by
  unfold Disk.removeSegment
  split
  case isFalse => rfl
  case isTrue hall =>
    dsimp only
    rw [List.filter_filter]
    refine List.filter_congr fun r hr => ?_
    cases hseg : segment r with
    | false => simp
    | true =>
      have := List.all_eq_true.mp hall r (List.mem_filter.mpr ⟨hr, hseg⟩)
      simp [this]

end Disk

end ChittaField
