import ChittaField.Checkpoint.Manifest

/-!
# Selecting a snapshot family

A field that is opened loads one of the snapshot families on disk.  It prefers the family that the
manifest committed, then the one with the highest sequence number in its header, then the older
ones, and takes the first that passes the load fences.  Some sidecars are read next to the family
that loads.  But the embedding sidecars are read next to the one with the highest sequence number,
and it is this family, with the newest of the others, that the startup cleanup spares:
`loaded_family_whole_iff`.
-/

namespace ChittaField

/-- What a family is named after: the instance that saved it. -/
abbrev Stem := List Char

/-- The kinds of files of a family. -/
inductive FileExt where
  | snapshot
  | cortex
  | emb
  | bin
  | mu
  | shdr
  | hnsw
  | deltaHnsw
  | realmHnsw
  | pld
  | rsf
  | hdc
  | supJson
  | snapshotTmp
  | lsh
  | organs
  | turbo
  | turboMeta
  deriving DecidableEq, Repr

def FileExt.text : FileExt → String
  | .snapshot => "snapshot"
  | .cortex => "cortex"
  | .emb => "emb"
  | .bin => "bin"
  | .mu => "mu"
  | .shdr => "shdr"
  | .hnsw => "hnsw"
  | .deltaHnsw => "delta.hnsw"
  | .realmHnsw => "realm_hnsw"
  | .pld => "pld"
  | .rsf => "rsf"
  | .hdc => "hdc"
  | .supJson => "sup.json"
  | .snapshotTmp => "snapshot.tmp"
  | .lsh => "lsh"
  | .organs => "organs"
  | .turbo => "turbo"
  | .turboMeta => "turbo.meta"

/-- The kind of file with an extension. -/
def FileExt.ofText (text : List Char) : Option FileExt :=
  [snapshot, cortex, emb, bin, mu, shdr, hnsw, deltaHnsw, realmHnsw, pld, rsf, hdc, supJson,
    snapshotTmp, lsh, organs, turbo, turboMeta].find? fun e => e.text.toList = text

lemma FileExt.ofText_text (e : FileExt) : ofText e.text.toList = some e := by
  cases e <;> decide +kernel

/-- A file of a family. -/
structure FamilyFile where
  stem : Stem
  ext : FileExt
  deriving DecidableEq, Repr

/-- `chitta.{stem}.{ext}` -/
def FamilyFile.name (f : FamilyFile) : FileName :=
  "chitta.".toList ++ f.stem ++ '.' :: f.ext.text.toList

/-- The snapshot families of a data directory: their files in the order in which the directory lists
them, with their sizes, and the sequence number that can be read off a snapshot's header. -/
structure FamilyDir where
  listing : List FamilyFile
  nodup : listing.Nodup
  size : FamilyFile → ℕ
  peekSeqno : Stem → Option ℕ

namespace FamilyDir

/-- The size of a file by its name. -/
def sizeOf (dir : FamilyDir) (name : FileName) : Option ℕ :=
  (dir.listing.find? fun f => f.name = name).map dir.size

/-! ## The candidates -/

/-- What a scan of the snapshots has found: the highest sequence number, the snapshot with it, and
the others. -/
structure Scan where
  seqno : ℕ
  best : Option Stem
  stale : List Stem

/-- Look at the header of one more snapshot. -/
def Scan.add (dir : FamilyDir) (scan : Scan) (stem : Stem) : Scan :=
  match dir.peekSeqno stem with
  | some seqno =>
    if scan.seqno < seqno then ⟨seqno, some stem, scan.stale ++ scan.best.toList⟩
    else { scan with stale := scan.stale ++ [stem] }
  | none => { scan with stale := scan.stale ++ [stem] }

/-- The snapshots on disk. -/
def snapshots (dir : FamilyDir) : List Stem :=
  (dir.listing.filter fun f => f.ext = .snapshot).map FamilyFile.stem

/-- Scan the snapshots. -/
def scan (dir : FamilyDir) : Scan := dir.snapshots.foldl (Scan.add dir) ⟨0, none, []⟩

/-- `best_full_path` -/
def best (dir : FamilyDir) : Option Stem := dir.scan.best

/-- The other snapshots whose header can be read, the newest first. -/
def staleBySeqno (dir : FamilyDir) : List Stem :=
  ((dir.scan.stale.filterMap fun stem => (dir.peekSeqno stem).map fun seqno => (seqno, stem)).insertionSort
    fun a b => b.1 ≤ a.1).map Prod.snd

/-- The snapshots to try: the one that the manifest committed, the best, and the others. -/
def candidates (dir : FamilyDir) (manifest : Option Manifest) : List FamilyFile :=
  let files := (dir.best.toList ++ dir.staleBySeqno).map fun stem => ⟨stem, .snapshot⟩
  match manifest.bind (Manifest.validatedSnapshot dir.sizeOf) with
  | some committed =>
    (dir.listing.find? fun f => f.name = committed).toList ++
      files.filter fun f => f.name ≠ committed
  | none => files

/-- A snapshot loads if its header can be read and it passes the fences. -/
def loads (dir : FamilyDir) (passes : Stem → Bool) (f : FamilyFile) : Bool :=
  f.ext = .snapshot && (dir.peekSeqno f.stem).isSome && passes f.stem

/-- Load a family.  A store whose snapshots all fail to load does not start. -/
def loadSnapshots (dir : FamilyDir) (manifest : Option Manifest) (passes : Stem → Bool) :
    Except FieldError (Option Stem) :=
  match (dir.candidates manifest).find? (dir.loads passes) with
  | some f => .ok (some f.stem)
  | none =>
    if dir.snapshots.isEmpty then .ok none
    else .error (.manifest ("all full snapshots failed to load — refusing to start with empty store " ++
      "(this prevents data loss; fix the snapshot format or restore from backup)"))

/-! ## The cleanup -/

/-- The files that are removed with an old snapshot. -/
def staleExts : List FileExt :=
  [.snapshot, .emb, .bin, .mu, .shdr, .hnsw, .pld, .snapshotTmp, .lsh, .organs, .turbo, .turboMeta,
    .deltaHnsw]

/-- The files that are removed unless their family is kept. -/
def orphanExts : List FileExt :=
  [.emb, .bin, .hnsw, .pld, .deltaHnsw, .snapshotTmp, .lsh, .organs, .turbo, .turboMeta]

/-- The families that the cleanup keeps: the best, and the newest of the others. -/
def live (dir : FamilyDir) : List Stem := dir.best.toList ++ dir.staleBySeqno.head?.toList

/-- Old snapshots are removed with their sidecars. -/
def removesStale (dir : FamilyDir) (f : FamilyFile) : Bool :=
  dir.staleBySeqno.tail.contains f.stem && staleExts.contains f.ext

/-- Then the sidecars of all families that are not kept are removed. -/
def removesOrphan (dir : FamilyDir) (f : FamilyFile) : Bool :=
  !dir.live.contains f.stem && orphanExts.contains f.ext

/-- The files that the startup cleanup deletes. -/
def deleted (dir : FamilyDir) : List FamilyFile :=
  dir.listing.filter dir.removesStale ++
    (dir.listing.filter fun f => !dir.removesStale f).filter dir.removesOrphan

/-- The files that it leaves. -/
def left (dir : FamilyDir) : List FamilyFile :=
  (dir.listing.filter fun f => !dir.removesStale f).filter fun f => !dir.removesOrphan f

/-! ## The sidecars -/

/-- The sidecars that are read next to the family that loads. -/
def loadedExts : List FileExt := [.pld, .rsf, .supJson]

/-- The sidecars that are read next to the best family. -/
def bestExts : List FileExt := [.emb, .bin, .mu, .hnsw, .deltaHnsw, .hdc]

/-- The sidecars that an open reads: those that are there. -/
def sidecarsRead (dir : FamilyDir) (loaded : Stem) : List FamilyFile :=
  (loadedExts.map (FamilyFile.mk loaded) ++
    dir.best.toList.flatMap fun best => bestExts.map (FamilyFile.mk best)).filter (· ∈ dir.left)

/-- The manifest references a family with this stem. -/
def References (manifest : Option Manifest) (stem : Stem) : Prop :=
  ∃ m, manifest = some m ∧ ∃ cp ∈ m.allFamilies, cp.snapshot.name = FamilyFile.name ⟨stem, .snapshot⟩

/-- The open reads sidecars of the loaded family only, and the cleanup has deleted no file of it or
of a family that the manifest references. -/
structure LoadsWhole (dir : FamilyDir) (manifest : Option Manifest) (loaded : Stem) : Prop where
  sidecars : ∀ f ∈ dir.sidecarsRead loaded, f.stem = loaded
  loaded : ∀ f ∈ dir.deleted, f.stem ≠ loaded
  referenced : ∀ f ∈ dir.deleted, ¬References manifest f.stem

/-- The family has a file that the cleanup may delete: a snapshot with a readable header, or one of
the sidecars. -/
def HasRemovable (dir : FamilyDir) (stem : Stem) : Prop :=
  ⟨stem, .snapshot⟩ ∈ dir.listing ∧ (dir.peekSeqno stem).isSome ∨
    ∃ ext ∈ orphanExts, ⟨stem, ext⟩ ∈ dir.listing

/-! ## What the scan finds -/

variable {dir : FamilyDir}

variable {stem : Stem}

lemma mem_snapshots :
    stem ∈ dir.snapshots ↔ ⟨stem, .snapshot⟩ ∈ dir.listing := by
  simp only [snapshots, List.mem_map, List.mem_filter, decide_eq_true_eq]
  constructor
  · rintro ⟨⟨stem', ext⟩, ⟨hmem, rfl⟩, rfl⟩
    exact hmem
  · exact fun h => ⟨_, ⟨h, rfl⟩, rfl⟩

lemma nodup_snapshots : dir.snapshots.Nodup := by
  refine (dir.nodup.filter _).map_on fun f hf f' hf' heq => ?_
  have hext := (List.mem_filter.mp hf).2
  have hext' := (List.mem_filter.mp hf').2
  simp only [decide_eq_true_eq] at hext hext'
  cases f
  cases f'
  simp_all

/-- Each snapshot is the best or one of the others. -/
lemma scan_perm (dir : FamilyDir) : (dir.best.toList ++ dir.scan.stale).Perm dir.snapshots := by
  have hadd : ∀ (scan : Scan) (stem : Stem),
      ((scan.add dir stem).best.toList ++ (scan.add dir stem).stale).Perm
        ((scan.best.toList ++ scan.stale) ++ [stem]) := by
    intro scan stem
    unfold Scan.add
    cases dir.peekSeqno stem with
    | none => simp [List.append_assoc]
    | some seqno =>
      dsimp only
      split
      · exact (List.perm_append_comm.append_left _).trans List.perm_append_comm
      · simp [List.append_assoc]
  have hfold : ∀ (stems : List Stem) (scan : Scan),
      ((stems.foldl (Scan.add dir) scan).best.toList ++ (stems.foldl (Scan.add dir) scan).stale).Perm
        ((scan.best.toList ++ scan.stale) ++ stems) := by
    intro stems
    induction stems with
    | nil => exact fun scan => by simp
    | cons stem stems ih =>
      intro scan
      refine (ih (scan.add dir stem)).trans (((hadd scan stem).append_right stems).trans ?_)
      rw [List.append_assoc, List.singleton_append]
  exact hfold dir.snapshots ⟨0, none, []⟩

/-- The best snapshot has a header that can be read. -/
lemma peek_best (h : dir.best = some stem) : (dir.peekSeqno stem).isSome := by
  refine List.foldlRecOn
    (motive := fun scan : Scan => ∀ t, scan.best = some t → (dir.peekSeqno t).isSome)
    dir.snapshots (Scan.add dir) (fun _ ht => by cases ht) (fun scan hscan s _ t ht => ?_) stem h
  unfold Scan.add at ht
  cases hs : dir.peekSeqno s with
  | none =>
    rw [hs] at ht
    exact hscan t ht
  | some seqno =>
    rw [hs] at ht
    dsimp only at ht
    split at ht
    · rw [← Option.some.inj ht, hs]
      rfl
    · exact hscan t ht

lemma staleBySeqno_perm :
    dir.staleBySeqno.Perm (dir.scan.stale.filter fun stem => (dir.peekSeqno stem).isSome) := by
  refine ((List.perm_insertionSort _ _).map _).trans (List.Perm.of_eq ?_)
  induction dir.scan.stale with
  | nil => rfl
  | cons stem stems ih => cases h : dir.peekSeqno stem <;> simp [h, ih]

lemma mem_staleBySeqno :
    stem ∈ dir.staleBySeqno ↔ stem ∈ dir.scan.stale ∧ (dir.peekSeqno stem).isSome := by
  rw [staleBySeqno_perm.mem_iff, List.mem_filter]

/-- The families with a readable snapshot, each once. -/
lemma nodup_ranked : (dir.best.toList ++ dir.staleBySeqno).Nodup := by
  have h := (scan_perm dir).nodup_iff.mpr nodup_snapshots
  rw [List.nodup_append] at h ⊢
  refine ⟨h.1, staleBySeqno_perm.nodup_iff.mpr (h.2.1.filter _), fun a ha b hb => ?_⟩
  exact h.2.2 a ha b (mem_staleBySeqno.mp hb).1

lemma mem_ranked : stem ∈ dir.best.toList ++ dir.staleBySeqno ↔
    ⟨stem, .snapshot⟩ ∈ dir.listing ∧ (dir.peekSeqno stem).isSome := by
  rw [← mem_snapshots, ← (scan_perm dir).mem_iff, List.mem_append, List.mem_append,
    mem_staleBySeqno, or_and_right]
  refine or_congr_left ?_
  rw [iff_self_and]
  exact fun h => peek_best (Option.mem_toList.mp h)

/-- The readable snapshots are those that are kept and those that are removed. -/
lemma ranked_perm (dir : FamilyDir) :
    (dir.live ++ dir.staleBySeqno.tail).Perm (dir.best.toList ++ dir.staleBySeqno) := by
  rw [live, List.append_assoc]
  refine List.Perm.append_left _ (List.Perm.of_eq ?_)
  cases dir.staleBySeqno <;> rfl

lemma not_mem_live_of_mem_tail (h : stem ∈ dir.staleBySeqno.tail) : stem ∉ dir.live := by
  have hnodup := (ranked_perm dir).nodup_iff.mpr nodup_ranked
  exact fun hlive => (List.nodup_append.mp hnodup).2.2 stem hlive stem h rfl

/-! ## What the cleanup deletes -/

variable {f : FamilyFile}

lemma mem_deleted :
    f ∈ dir.deleted ↔ f ∈ dir.listing ∧ (dir.removesStale f ∨ dir.removesOrphan f) := by
  rw [deleted, List.mem_append, List.mem_filter, List.mem_filter, List.mem_filter]
  cases dir.removesStale f <;> simp

lemma mem_left : f ∈ dir.left ↔ f ∈ dir.listing ∧ f ∉ dir.deleted := by
  rw [mem_deleted, left, List.mem_filter, List.mem_filter]
  cases dir.removesStale f <;> cases dir.removesOrphan f <;> simp

lemma removesStale_iff :
    dir.removesStale f = true ↔ f.stem ∈ dir.staleBySeqno.tail ∧ f.ext ∈ staleExts := by
  simp [removesStale]

lemma removesOrphan_iff :
    dir.removesOrphan f = true ↔ f.stem ∉ dir.live ∧ f.ext ∈ orphanExts := by
  simp [removesOrphan]

/-- No file of a kept family is deleted. -/
lemma not_mem_deleted_of_live (h : f.stem ∈ dir.live) : f ∉ dir.deleted := by
  intro hf
  rcases (mem_deleted.mp hf).2 with hrem | hrem
  · exact not_mem_live_of_mem_tail (removesStale_iff.mp hrem).1 h
  · exact (removesOrphan_iff.mp hrem).1 h

/-- Of another family all that can be deleted is deleted. -/
lemma exists_deleted_iff (dir : FamilyDir) (stem : Stem) :
    (∃ f ∈ dir.deleted, f.stem = stem) ↔ stem ∉ dir.live ∧ dir.HasRemovable stem := by
  constructor
  · rintro ⟨f, hf, rfl⟩
    refine ⟨fun h => not_mem_deleted_of_live h hf, ?_⟩
    obtain ⟨hmem, hrem | hrem⟩ := mem_deleted.mp hf
    · have htail := (removesStale_iff.mp hrem).1
      exact Or.inl (mem_ranked.mp (List.mem_append_right _ (List.mem_of_mem_tail htail)))
    · exact Or.inr ⟨f.ext, (removesOrphan_iff.mp hrem).2, hmem⟩
  · rintro ⟨hlive, ⟨hmem, hpeek⟩ | ⟨ext, hext, hmem⟩⟩
    · have htail : stem ∈ dir.staleBySeqno.tail := by
        have h := (ranked_perm dir).mem_iff.mpr (mem_ranked.mpr ⟨hmem, hpeek⟩)
        exact (List.mem_append.mp h).resolve_left hlive
      refine ⟨⟨stem, .snapshot⟩, mem_deleted.mpr ⟨hmem, Or.inl ?_⟩, rfl⟩
      exact removesStale_iff.mpr ⟨htail, by simp [staleExts]⟩
    · refine ⟨⟨stem, ext⟩, mem_deleted.mpr ⟨hmem, Or.inr ?_⟩, rfl⟩
      exact removesOrphan_iff.mpr ⟨hlive, hext⟩

lemma mem_live_of_best (h : dir.best = some stem) : stem ∈ dir.live :=
  List.mem_append_left _ (Option.mem_toList.mpr h)

/-- The family that loads has a readable snapshot. -/
lemma readable_of_load {manifest : Option Manifest} {passes : Stem → Bool} {loaded : Stem}
    (h : dir.loadSnapshots manifest passes = .ok (some loaded)) :
    ⟨loaded, .snapshot⟩ ∈ dir.listing ∧ (dir.peekSeqno loaded).isSome := by
  unfold loadSnapshots at h
  split at h
  case h_1 f hf =>
    obtain rfl := Option.some.inj (Except.ok.inj h)
    have hloads := List.find?_some hf
    simp only [loads, Bool.and_eq_true, decide_eq_true_eq] at hloads
    refine ⟨?_, hloads.1.2⟩
    have hfile : f = ⟨f.stem, .snapshot⟩ := by rw [← hloads.1.1]
    have hranked : f ∈ (dir.best.toList ++ dir.staleBySeqno).map (FamilyFile.mk · .snapshot) →
        f ∈ dir.listing := by
      intro hmem
      obtain ⟨stem, hstem, rfl⟩ := List.mem_map.mp hmem
      exact (mem_ranked.mp hstem).1
    rw [← hfile]
    have hmem := List.mem_of_find?_eq_some hf
    unfold candidates at hmem
    dsimp only at hmem
    split at hmem
    · rcases List.mem_append.mp hmem with hmem | hmem
      · exact List.mem_of_find?_eq_some (Option.mem_toList.mp hmem)
      · exact hranked (List.mem_filter.mp hmem).1
    · exact hranked hmem
  case h_2 =>
    split at h
    · cases Except.ok.inj h
    · cases h

lemma dotted_injective {a b c d : List Char}
    (h : "chitta.".toList ++ a ++ '.' :: b = "chitta.".toList ++ c ++ '.' :: d) (ha : '.' ∉ a)
    (hc : '.' ∉ c) : a = c ∧ b = d := by
  rw [List.append_assoc, List.append_assoc] at h
  have hsplit := congrArg (splitOnce '.') (List.append_cancel_left h)
  rw [splitOnce_append ha, splitOnce_append hc] at hsplit
  exact Prod.mk.inj (Option.some.inj hsplit)

lemma FamilyFile.name_injective {f f' : FamilyFile} (h : f.name = f'.name) (hf : '.' ∉ f.stem)
    (hf' : '.' ∉ f'.stem) : f = f' := by
  obtain ⟨hstem, htext⟩ := dotted_injective h hf hf'
  have hext : some f.ext = some f'.ext := by
    rw [← FileExt.ofText_text f.ext, htext, FileExt.ofText_text]
  cases f
  cases f'
  exact congrArg₂ FamilyFile.mk hstem (Option.some.inj hext)

/-- A store whose snapshots are all in order loads one of them, if there is one. -/
lemma exists_load (manifest : Option Manifest) (hnames : ∀ f ∈ dir.listing, '.' ∉ f.stem)
    (hpeek : ∀ stem, ⟨stem, .snapshot⟩ ∈ dir.listing → (dir.peekSeqno stem).isSome) :
    ∃ loaded, dir.loadSnapshots manifest (fun _ => true) = .ok loaded ∧
      (loaded = none → ∀ stem, ⟨stem, .snapshot⟩ ∉ dir.listing) := by
  unfold loadSnapshots
  cases hfind : (dir.candidates manifest).find? (dir.loads fun _ => true) with
  | some f => exact ⟨some f.stem, rfl, fun h => by cases h⟩
  | none =>
    have hnone : ∀ stem, ⟨stem, .snapshot⟩ ∉ dir.listing := by
      intro stem hstem
      have hloads : dir.loads (fun _ => true) ⟨stem, .snapshot⟩ = true := by
        simp [loads, hpeek stem hstem]
      have hranked := List.mem_map_of_mem (f := fun stem => (⟨stem, .snapshot⟩ : FamilyFile))
        (mem_ranked.mpr ⟨hstem, hpeek stem hstem⟩)
      refine absurd hloads (List.find?_eq_none.mp hfind _ ?_)
      unfold candidates
      dsimp only
      split
      · rename_i committed _
        by_cases hname : FamilyFile.name ⟨stem, .snapshot⟩ = committed
        · refine List.mem_append_left _ ?_
          cases hf : dir.listing.find? fun f => f.name = committed with
          | none =>
            have h := List.find?_eq_none.mp hf _ hstem
            simp [hname] at h
          | some f =>
            have hmem := List.mem_of_find?_eq_some hf
            have hfname : f.name = committed := by simpa using List.find?_some hf
            have heq := FamilyFile.name_injective (hfname.trans hname.symm) (hnames f hmem)
              (hnames _ hstem)
            simp [heq]
        · exact List.mem_append_right _ (List.mem_filter.mpr ⟨hranked, by simpa using hname⟩)
      · exact hranked
    have hempty : dir.snapshots = [] :=
      List.eq_nil_iff_forall_not_mem.mpr fun stem h => hnone stem (mem_snapshots.mp h)
    exact ⟨none, by simp [hempty], fun _ => hnone⟩

/-- The sidecars that are read belong to the loaded family unless the best one is another and has
such sidecars. -/
lemma sidecars_iff {loaded : Stem} : (∀ f ∈ dir.sidecarsRead loaded, f.stem = loaded) ↔
    ∀ best, dir.best = some best → best = loaded ∨ ∀ ext ∈ bestExts, ⟨best, ext⟩ ∉ dir.listing := by
  constructor
  · intro h best hbest
    rw [or_iff_not_imp_left]
    intro hne ext hext hmem
    have hleft : ⟨best, ext⟩ ∈ dir.left :=
      mem_left.mpr ⟨hmem, not_mem_deleted_of_live (mem_live_of_best hbest)⟩
    refine hne (h ⟨best, ext⟩ (List.mem_filter.mpr ⟨List.mem_append_right _ ?_, ?_⟩))
    · exact List.mem_flatMap.mpr ⟨best, Option.mem_toList.mpr hbest, List.mem_map.mpr ⟨ext, hext, rfl⟩⟩
    · exact decide_eq_true hleft
  · intro h f hf
    obtain ⟨hf, hleft⟩ := List.mem_filter.mp hf
    rcases List.mem_append.mp hf with hf | hf
    · obtain ⟨ext, -, rfl⟩ := List.mem_map.mp hf
      rfl
    · obtain ⟨best, hbest, hf⟩ := List.mem_flatMap.mp hf
      obtain ⟨ext, hext, rfl⟩ := List.mem_map.mp hf
      rcases h best (Option.mem_toList.mp hbest) with heq | hnone
      · exact heq
      · exact absurd (mem_left.mp (of_decide_eq_true hleft)).1 (hnone ext hext)

/-- The loaded family is whole exactly if it is the one whose embedding sidecars are read, or there
are none, and if it and the families that the manifest references are kept, as far as they have files
that the cleanup may delete. -/
theorem loaded_family_whole_iff {manifest : Option Manifest} {passes : Stem → Bool} {loaded : Stem}
    (h : dir.loadSnapshots manifest passes = .ok (some loaded)) :
    dir.LoadsWhole manifest loaded ↔
      (∀ best, dir.best = some best →
        best = loaded ∨ ∀ ext ∈ bestExts, ⟨best, ext⟩ ∉ dir.listing) ∧
      loaded ∈ dir.live ∧
      ∀ stem, References manifest stem → stem ∈ dir.live ∨ ¬dir.HasRemovable stem := by
  have hdeleted : ∀ stem, (∀ f ∈ dir.deleted, f.stem ≠ stem) ↔
      stem ∈ dir.live ∨ ¬dir.HasRemovable stem := by
    intro stem
    rw [← not_iff_not]
    have hiff := exists_deleted_iff dir stem
    push Not
    exact hiff
  have hloaded : (∀ f ∈ dir.deleted, f.stem ≠ loaded) ↔ loaded ∈ dir.live := by
    rw [hdeleted]
    exact or_iff_left (not_not_intro (Or.inl (readable_of_load h)))
  constructor
  · intro hwhole
    refine ⟨sidecars_iff.mp hwhole.sidecars, hloaded.mp hwhole.loaded, fun stem href => ?_⟩
    rw [← hdeleted]
    rintro f hf rfl
    exact hwhole.referenced f hf href
  · rintro ⟨hbest, hlive, href⟩
    refine ⟨sidecars_iff.mpr hbest, hloaded.mpr hlive, fun f hf hfref => ?_⟩
    exact (hdeleted f.stem).mpr (href f.stem hfref) f hf rfl

/-! ## A fallback -/

/-- Three families, whose sequence numbers are 30, 20 and 10. -/
def threeFamilies : FamilyDir where
  listing := [⟨['a'], .snapshot⟩, ⟨['a'], .emb⟩, ⟨['b'], .snapshot⟩, ⟨['b'], .emb⟩,
    ⟨['c'], .snapshot⟩, ⟨['c'], .emb⟩]
  nodup := by decide
  size _ := 0
  peekSeqno stem :=
    if stem = ['a'] then some 30 else if stem = ['b'] then some 20
    else if stem = ['c'] then some 10 else none

/-- When only the oldest family passes the fences, it is loaded with the embeddings of another and
deleted. -/
theorem fallback_not_whole : ¬∀ (dir : FamilyDir) (manifest : Option Manifest)
    (passes : Stem → Bool) (loaded : Stem),
      dir.loadSnapshots manifest passes = .ok (some loaded) → dir.LoadsWhole manifest loaded := by
  intro h
  have hwhole := h threeFamilies none (· = ['c']) ['c'] (by rfl)
  have hemb := hwhole.sidecars ⟨['a'], .emb⟩ (by decide +kernel)
  exact absurd hemb (by decide)

/-- All families pass. -/
theorem loaded_family_whole_best : threeFamilies.LoadsWhole none ['a'] :=
  (loaded_family_whole_iff
    (by rfl : threeFamilies.loadSnapshots none (fun _ => true) = .ok (some ['a']))).mpr
    ⟨fun best h => Or.inl (Option.some.inj (h.symm.trans (by rfl))), by decide +kernel,
      fun _ ⟨_, h, _⟩ => by cases h⟩

end FamilyDir

end ChittaField
