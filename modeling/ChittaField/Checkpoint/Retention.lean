import Mathlib.Data.List.TakeWhile
import ChittaField.Checkpoint.Selection

/-!
# Snapshot retention

Behind a save old snapshot families are pruned, and then a janitor sweeps what instances that have
died left behind.  The families with the highest sequence numbers are to be kept, and with them the
best one that the running binary can load, whatever its rank; the janitor spares what the manifest
references.  But families that rank too low are removed without a look at either:
`retained_iff` says for which directories the promise is kept.
-/

namespace ChittaField

/-! ## The directory -/

/-- What a `.shdr` file says of the space of the vectors. -/
structure StoreHeader where
  embedDim : ℕ
  modelId : String
  vectorSpaceId : ℕ
  deriving DecidableEq, Repr

/-- The vectors are of the space that the binary was compiled for. -/
def StoreHeader.matchesCompiled (compiled h : StoreHeader) : Bool :=
  h.embedDim = compiled.embedDim && h.modelId = compiled.modelId &&
    h.vectorSpaceId = compiled.vectorSpaceId

/-- A file, with what a look into it finds: the sequence number of a snapshot, or a header.  Times
are in nanoseconds. -/
structure DataFile where
  name : FileName
  peekSeqno : Option ℕ
  header : Option StoreHeader
  modified : Option ℤ
  deriving DecidableEq

/-- The files of a data directory, in the order in which it lists them. -/
structure DataDir where
  files : List DataFile
  nodup : (files.map DataFile.name).Nodup

lemma nodup_filter_names {files : List DataFile} (h : (files.map DataFile.name).Nodup)
    (p : DataFile → Bool) : ((files.filter p).map DataFile.name).Nodup :=
  h.sublist (List.filter_sublist.map _)

namespace DataDir

/-- The name without a suffix that it has. -/
def stripSuffix (suffix name : FileName) : Option FileName :=
  if suffix.isSuffixOf name then some (name.take (name.length - suffix.length)) else none

/-- The name without a prefix that it has. -/
def stripPrefix (start name : FileName) : Option FileName :=
  if start.isPrefixOf name then some (name.drop start.length) else none

/-- `{stem}.{ext}` -/
def fileName (stem : FileName) (ext : FileExt) : FileName := stem ++ '.' :: ext.text.toList

/-- The files that are removed with a family: `SIDECAR_EXTS` and `delta_ext`. -/
def prunedExts : List FileExt :=
  [.snapshot, .cortex, .hdc, .emb, .bin, .mu, .shdr, .hnsw, .realmHnsw, .pld, .supJson, .rsf,
    .deltaHnsw]

/-- The name starts with `chitta.` -/
def isChitta (name : FileName) : Bool := "chitta.".toList.isPrefixOf name

/-- Remove some files. -/
def remove (dir : DataDir) (p : DataFile → Bool) : DataDir :=
  ⟨dir.files.filter fun f => !p f, nodup_filter_names dir.nodup _⟩

/-- The file of a name. -/
def find (dir : DataDir) (name : FileName) : Option DataFile :=
  dir.files.find? fun f => f.name = name

/-! ## Pruning -/

/-- The families with a snapshot: the sequence number and the stem. -/
def families (dir : DataDir) : List (ℕ × FileName) :=
  dir.files.filterMap fun f =>
    if isChitta f.name then
      (stripSuffix ".snapshot".toList f.name).map fun stem => (f.peekSeqno.getD 0, stem)
    else none

/-- The families, the highest sequence number first. -/
def ranked (dir : DataDir) : List (ℕ × FileName) :=
  dir.families.insertionSort fun a b => b.1 ≤ a.1

/-- The stems that rank first. -/
def top (dir : DataDir) (keep : ℕ) : List FileName := (dir.ranked.take keep).map Prod.snd

/-- The stems that rank behind. -/
def outranked (dir : DataDir) (keep : ℕ) : List FileName := (dir.ranked.drop keep).map Prod.snd

/-- The best family that the binary can load. -/
def bestCompiled (compiled : StoreHeader) (dir : DataDir) : Option FileName :=
  (dir.ranked.find? fun p =>
    ((dir.find (fileName p.2 .shdr)).bind (·.header)).any compiled.matchesCompiled).map Prod.snd

/-- The stems whose sidecars are no orphans. -/
def keepStems (compiled : StoreHeader) (dir : DataDir) (keep : ℕ) : List FileName :=
  dir.top keep ++ (dir.bestCompiled compiled).toList

/-- The first two parts of a name. -/
def stemOf (name : FileName) : FileName :=
  List.intercalate ['.'] ((name.splitOnP fun c => c = '.').take 2)

/-- A file of a family that ranks behind. -/
def isOutranked (dir : DataDir) (keep : ℕ) (f : DataFile) : Bool :=
  (dir.outranked keep).any fun stem => prunedExts.any fun ext => f.name = fileName stem ext

/-- A sidecar whose stem is not kept. -/
def isOrphan (stems : List FileName) (f : DataFile) : Bool :=
  isChitta f.name && !stems.contains (stemOf f.name) &&
    prunedExts.any fun ext => ('.' :: ext.text.toList).isSuffixOf f.name

/-- The cortical snapshots that are not among the newest. -/
def oldCortex (dir : DataDir) (keep : ℕ) : List FileName :=
  let cortex := dir.files.filterMap fun f =>
    if "cortex.".toList.isPrefixOf f.name && ".snapshot".toList.isSuffixOf f.name then
      f.modified.map fun mtime => (mtime, f.name)
    else none
  ((cortex.insertionSort fun a b => b.1 ≤ a.1).drop keep).map Prod.snd

/-- A second, in nanoseconds. -/
def second : ℤ := 1000000000

/-- A leftover of a migration, older than an hour. -/
def isEmbTmp (now : ℤ) (f : DataFile) : Bool :=
  ".emb.tmp".toList.isSuffixOf f.name && f.modified.getD 0 < now - 3600 * second

def pruneOldSnapshots (compiled : StoreHeader) (now : ℤ) (keep : ℕ) (dir : DataDir) : DataDir :=
  let stems := dir.keepStems compiled keep
  let dir := dir.remove (dir.isOutranked keep)
  let dir := dir.remove (isOrphan stems)
  let dir := dir.remove fun f => (dir.oldCortex keep).contains f.name
  dir.remove (isEmbTmp now)

/-! ## The janitor -/

/-- The stems of the snapshots that a manifest references. -/
def manifestStems (manifest : Option Manifest) : List FileName :=
  (manifest.map fun m =>
    m.allFamilies.filterMap fun cp => stripSuffix ".snapshot".toList cp.snapshot.name).getD []

/-- The stems that are there, or that a manifest references. -/
def familyStems (manifest : Option Manifest) (dir : DataDir) : List FileName :=
  manifestStems manifest ++ dir.families.map Prod.snd

/-- The part up to a dot. -/
def firstPart (name : FileName) : FileName := name.takeWhile (· ≠ '.')

def oldEnough (now : ℤ) (maxAgeSecs : ℕ) (f : DataFile) : Bool :=
  f.modified.any fun mtime => mtime ≤ now && maxAgeSecs ≤ (now - mtime) / second

/-- The janitor removes a file. -/
def kills (stems : List FileName) (now : ℤ) (ownHex : FileName) (maxAgeSecs : ℕ) (f : DataFile) :
    Bool :=
  match stripPrefix "seen_offsets.".toList f.name with
  | some rest =>
    (stripSuffix ".json".toList rest).any fun hex => hex ≠ ownHex && oldEnough now maxAgeSecs f
  | none =>
    match stripPrefix "cortex.".toList f.name with
    | some rest =>
      firstPart rest ≠ ownHex && !stems.contains ("chitta.".toList ++ firstPart rest) &&
        oldEnough now maxAgeSecs f
    | none =>
      match stripPrefix "chitta.".toList f.name with
      | some rest =>
        !".snapshot".toList.isSuffixOf f.name &&
          !stems.contains ("chitta.".toList ++ firstPart rest) && oldEnough now maxAgeSecs f
      | none => false

/-- Sweep a directory; what is left, and the names in the ledger of deleted files. -/
def janitorSweep (manifest : Option Manifest) (now : ℤ) (ownHex : FileName) (maxAgeSecs : ℕ)
    (ledger : List FileName) (dir : DataDir) : DataDir × List FileName :=
  let kill := kills (dir.familyStems manifest) now ownHex maxAgeSecs
  let deleted := (dir.files.filter kill).map DataFile.name
  (dir.remove kill, ledger.foldl (fun l n =>
    if 10000 ≤ l.length || l.contains n then l else l ++ [n]) deleted)

/-! ## The promise -/

/-- A pass of the two over a directory. -/
structure Cleanup where
  compiled : StoreHeader
  keep : ℕ
  manifest : Option Manifest
  prunedAt : ℤ
  sweptAt : ℤ
  ownHex : FileName
  maxAgeSecs : ℕ
  ledger : List FileName

/-- The directory behind the pruning. -/
def Cleanup.pruned (c : Cleanup) (dir : DataDir) : DataDir :=
  pruneOldSnapshots c.compiled c.prunedAt c.keep dir

/-- The directory behind the janitor. -/
def Cleanup.swept (c : Cleanup) (dir : DataDir) : DataDir :=
  (janitorSweep c.manifest c.sweptAt c.ownHex c.maxAgeSecs c.ledger (c.pruned dir)).1

/-- A file of a family. -/
def FileOf (f : DataFile) (stem : FileName) : Prop :=
  isChitta f.name = true ∧ ∃ ext ∈ prunedExts, f.name = fileName stem ext

/-- A family that ranks among the first, or is the best that the binary can load. -/
def Cleanup.Kept (c : Cleanup) (dir : DataDir) (stem : FileName) : Prop :=
  stem ∈ dir.top c.keep ∨ dir.bestCompiled c.compiled = some stem

/-- A family that is kept, or that the manifest references. -/
def Cleanup.Promised (c : Cleanup) (dir : DataDir) (stem : FileName) : Prop :=
  c.Kept dir stem ∨ stem ∈ manifestStems c.manifest

/-- No file of a family that is kept goes, and none of one that is referenced. -/
structure Cleanup.Retains (c : Cleanup) (dir : DataDir) : Prop where
  untouched : ∀ f ∈ dir.files, ∀ stem, c.Kept dir stem → FileOf f stem → f ∈ (c.swept dir).files
  only : ∀ f ∈ dir.files, f ∉ (c.swept dir).files → ∀ stem, FileOf f stem → ¬c.Promised dir stem

/-- The families that are promised rank first, the names of their files say so, and no family that
ranks behind has a file in common with them. -/
structure Cleanup.RankFirst (c : Cleanup) (dir : DataDir) : Prop where
  ranked : ∀ stem, c.Promised dir stem → stem ∈ dir.families.map Prod.snd → stem ∈ dir.top c.keep
  named : ∀ f ∈ dir.files, ∀ stem, c.Promised dir stem → FileOf f stem →
    stemOf f.name ∈ dir.top c.keep
  apart : ∀ f ∈ dir.files, ∀ stem, c.Promised dir stem → FileOf f stem →
    ∀ other ∈ dir.outranked c.keep, ¬FileOf f other

/-! ## Names -/

lemma stripSuffix_eq_some {suffix name stem : FileName} :
    stripSuffix suffix name = some stem ↔ name = stem ++ suffix := by
  unfold stripSuffix
  constructor
  · intro h
    split_ifs at h with hs
    obtain ⟨t, rfl⟩ := List.isSuffixOf_iff_suffix.mp hs
    have ht := Option.some.inj h
    rw [List.length_append, Nat.add_sub_cancel, List.take_left] at ht
    rw [ht]
  · rintro rfl
    rw [if_pos (List.isSuffixOf_iff_suffix.mpr (List.suffix_append _ _)), List.length_append,
      Nat.add_sub_cancel, List.take_left]

/-- A name with a prefix is the prefix with the rest. -/
lemma exists_rest {start name : FileName} (h : start.isPrefixOf name = true) :
    ∃ rest, name = start ++ rest := by
  obtain ⟨rest, hrest⟩ := List.isPrefixOf_iff_prefix.mp h
  exact ⟨rest, hrest.symm⟩

/-- The first two parts of a name that starts with `chitta`. -/
lemma stemOf_chitta (rest : FileName) :
    stemOf ("chitta.".toList ++ rest) = "chitta.".toList ++ firstPart rest := by
  have hsplit : ("chitta.".toList ++ rest).splitOnP (fun c => c = '.') =
      "chitta".toList :: rest.splitOnP fun c => c = '.' := by
    have hplain : ∀ c ∈ "chitta".toList, decide (c = '.') = false := by simp
    exact List.splitOnP_append_cons_of_forall_mem hplain '.' (decide_eq_true rfl) rest
  have hhead : ∃ parts, rest.splitOnP (fun c => c = '.') = firstPart rest :: parts := by
    by_cases hdot : '.' ∈ rest
    · obtain ⟨a, b, rfl, ha⟩ := List.eq_append_cons_of_mem hdot
      refine ⟨b.splitOnP fun c => c = '.', ?_⟩
      have hne : ∀ x ∈ a, decide (x ≠ '.') = true := fun x hx =>
        decide_eq_true (ne_of_mem_of_not_mem hx ha)
      rw [List.splitOnP_append_cons_of_forall_mem (by simpa using hne) '.' (by simp), firstPart,
        List.takeWhile_append_of_pos hne]
      simp
    · have hne : ∀ x ∈ rest, decide (x ≠ '.') = true := fun x hx =>
        decide_eq_true (ne_of_mem_of_not_mem hx hdot)
      refine ⟨[], ?_⟩
      rw [List.splitOnP_eq_singleton (by simpa using hne), firstPart,
        List.takeWhile_eq_self_iff.mpr hne]
  obtain ⟨parts, hparts⟩ := hhead
  rw [stemOf, hsplit, hparts]
  simp [List.intercalate]

/-! ## What is removed -/

variable {dir : DataDir} {c : Cleanup} {f : DataFile} {stem : FileName} {keep : ℕ}

lemma mem_remove {p : DataFile → Bool} : f ∈ (dir.remove p).files ↔ f ∈ dir.files ∧ p f = false := by
  simp [remove]

/-- The families are those of the snapshots. -/
lemma mem_families : stem ∈ dir.families.map Prod.snd ↔
    ∃ f ∈ dir.files, isChitta f.name = true ∧
      f.name = fileName stem .snapshot := by
  constructor
  · intro h
    obtain ⟨⟨n, stem⟩, hmem, rfl⟩ := List.mem_map.mp h
    obtain ⟨f, hf, hsome⟩ := List.mem_filterMap.mp hmem
    split_ifs at hsome with hpre
    obtain ⟨stem', hstrip, heq⟩ := Option.map_eq_some_iff.mp hsome
    obtain rfl : stem' = stem := congrArg Prod.snd heq
    exact ⟨f, hf, hpre, stripSuffix_eq_some.mp hstrip⟩
  · rintro ⟨f, hf, hpre, hname⟩
    refine List.mem_map.mpr ⟨(f.peekSeqno.getD 0, stem), List.mem_filterMap.mpr ⟨f, hf, ?_⟩, rfl⟩
    have hstrip : stripSuffix ".snapshot".toList f.name = some stem := stripSuffix_eq_some.mpr hname
    rw [if_pos hpre, hstrip, Option.map_some]

lemma mem_top_or_outranked : stem ∈ dir.families.map Prod.snd ↔
    stem ∈ dir.top keep ∨ stem ∈ dir.outranked keep := by
  have hperm : (dir.ranked.map Prod.snd).Perm (dir.families.map Prod.snd) :=
    (List.perm_insertionSort _ _).map _
  rw [← hperm.mem_iff, top, outranked, ← List.mem_append, ← List.map_append, List.take_append_drop]

/-- A family that is kept has a snapshot. -/
lemma mem_families_of_kept (h : c.Kept dir stem) : stem ∈ dir.families.map Prod.snd := by
  rcases h with htop | hbest
  · exact mem_top_or_outranked.mpr (Or.inl htop)
  · obtain ⟨p, hp, rfl⟩ := Option.map_eq_some_iff.mp hbest
    exact List.mem_map_of_mem ((List.mem_insertionSort _).mp (List.mem_of_find?_eq_some hp))

lemma isOutranked_iff (hpre : isChitta f.name = true) :
    dir.isOutranked keep f = true ↔ ∃ stem ∈ dir.outranked keep, FileOf f stem := by
  simp [isOutranked, FileOf, hpre]

/-- The names of the files of a family do not end in a `p`. -/
lemma getLast?_prunedExts {ext : FileExt} (h : ext ∈ prunedExts) :
    ('.' :: ext.text.toList).getLast? ≠ some 'p' := by
  have hall : (prunedExts.all fun ext => ('.' :: ext.text.toList).getLast? ≠ some 'p') = true := by
    decide +kernel
  exact of_decide_eq_true (List.all_eq_true.mp hall ext h)

/-- A file of a family is not a leftover of a migration. -/
lemma isEmbTmp_of_fileOf (h : FileOf f stem) (now : ℤ) : isEmbTmp now f = false := by
  obtain ⟨-, ext, hext, hname⟩ := h
  have hsuffix : ".emb.tmp".toList.isSuffixOf f.name = false := by
    rw [Bool.eq_false_iff]
    intro hsuf
    obtain ⟨t, ht⟩ := List.isSuffixOf_iff_suffix.mp hsuf
    have hlast := congrArg List.getLast? (ht.trans hname)
    rw [fileName, List.getLast?_append_of_ne_nil _ (List.cons_ne_nil _ _),
      List.getLast?_append_of_ne_nil _ (by simp)] at hlast
    exact getLast?_prunedExts hext (hlast.symm.trans rfl)
  rw [isEmbTmp, hsuffix, Bool.false_and]

/-- A file of a family is not a cortical snapshot. -/
lemma notMem_oldCortex (h : FileOf f stem) : (dir.oldCortex keep).contains f.name = false := by
  rw [Bool.eq_false_iff]
  intro hmem
  obtain ⟨p, hp, hname⟩ := List.mem_map.mp (List.contains_iff_mem.mp hmem)
  obtain ⟨g, -, hg⟩ :=
    List.mem_filterMap.mp ((List.mem_insertionSort _).mp (List.mem_of_mem_drop hp))
  split_ifs at hg with hcortex
  obtain ⟨mtime, -, rfl⟩ := Option.map_eq_some_iff.mp hg
  obtain ⟨rest, hrest⟩ := exists_rest h.1
  have hno : "cortex.".toList.isPrefixOf ("chitta.".toList ++ rest) = false := rfl
  rw [show g.name = "chitta.".toList ++ rest from hname.trans hrest, hno, Bool.false_and] at hcortex
  cases hcortex

/-- A file of a family stays behind the pruning if its family does not rank behind, and its name
tells of one that is kept. -/
lemma mem_pruned (h : FileOf f stem) : f ∈ (c.pruned dir).files ↔
    f ∈ dir.files ∧ (∀ other ∈ dir.outranked c.keep, ¬FileOf f other) ∧
      stemOf f.name ∈ dir.keepStems c.compiled c.keep := by
  have hext : (prunedExts.any fun ext => ('.' :: ext.text.toList).isSuffixOf f.name) = true := by
    obtain ⟨-, ext, hext, hname⟩ := h
    refine List.any_eq_true.mpr ⟨ext, hext, ?_⟩
    rw [hname, fileName]
    exact List.isSuffixOf_iff_suffix.mpr (List.suffix_append _ _)
  have horphan : isOrphan (dir.keepStems c.compiled c.keep) f = false ↔
      stemOf f.name ∈ dir.keepStems c.compiled c.keep := by
    simp [isOrphan, h.1, hext]
  have houtranked : dir.isOutranked c.keep f = false ↔
      ∀ other ∈ dir.outranked c.keep, ¬FileOf f other := by
    rw [Bool.eq_false_iff, Ne, isOutranked_iff h.1]
    push Not
    rfl
  simp only [Cleanup.pruned, pruneOldSnapshots, mem_remove, isEmbTmp_of_fileOf h,
    notMem_oldCortex h, horphan, houtranked]
  tauto

/-- A file of a family stays behind the janitor if its name tells of a family that is there. -/
lemma mem_swept_of_stem (h : FileOf f stem) (hf : f ∈ (c.pruned dir).files)
    (hstem : stemOf f.name ∈ (c.pruned dir).families.map Prod.snd) : f ∈ (c.swept dir).files := by
  obtain ⟨rest, hrest⟩ := exists_rest h.1
  refine mem_remove.mpr ⟨hf, ?_⟩
  have hmem : (familyStems c.manifest (c.pruned dir)).contains
      ("chitta.".toList ++ firstPart rest) = true := by
    rw [← stemOf_chitta, ← hrest]
    exact List.contains_iff_mem.mpr (List.mem_append_right _ hstem)
  have hseen : stripPrefix "seen_offsets.".toList f.name = none := by rw [hrest]; rfl
  have hcortex : stripPrefix "cortex.".toList f.name = none := by rw [hrest]; rfl
  have hchitta : stripPrefix "chitta.".toList f.name = some rest := by
    have hpre : "chitta.".toList.isPrefixOf f.name = true := h.1
    rw [stripPrefix, if_pos hpre, hrest, List.drop_left]
  simp only [kills, hseen, hcortex, hchitta, hmem, Bool.not_true, Bool.and_false, Bool.false_and]

/-! ## When the promise is kept -/

/-- Directories in which the promised families rank first lose none of their files. -/
lemma Cleanup.RankFirst.mem_swept (h : c.RankFirst dir) (hf : f ∈ dir.files)
    (hp : c.Promised dir stem) (hfile : FileOf f stem) : f ∈ (c.swept dir).files := by
  have hstays : ∀ g ∈ dir.files, ∀ s, c.Promised dir s → FileOf g s → g ∈ (c.pruned dir).files :=
    fun g hg s hs hgs => (mem_pruned hgs).mpr
      ⟨hg, h.apart g hg s hs hgs, List.mem_append_left _ (h.named g hg s hs hgs)⟩
  refine mem_swept_of_stem hfile (hstays f hf stem hp hfile) ?_
  -- the family that the name tells of keeps its snapshot
  have htop := h.named f hf stem hp hfile
  obtain ⟨g, hg, hpre, hname⟩ := mem_families.mp (mem_top_or_outranked.mpr (Or.inl htop))
  have hsnapshot : FileOf g (stemOf f.name) := ⟨hpre, .snapshot, List.mem_cons_self, hname⟩
  exact mem_families.mpr ⟨g, hstays g hg _ (Or.inl (Or.inl htop)) hsnapshot, hpre, hname⟩

/-- Retention keeps its promise exactly for the directories in which the promised families rank
first. -/
theorem retained_iff (c : Cleanup) (dir : DataDir) : c.Retains dir ↔ c.RankFirst dir := by
  constructor
  · intro h
    have hstays : ∀ f ∈ dir.files, ∀ stem, c.Promised dir stem → FileOf f stem →
        f ∈ (c.pruned dir).files := by
      intro f hf stem hp hfile
      by_contra hnot
      exact h.only f hf (fun hs => hnot (mem_remove.mp hs).1) stem hfile hp
    have hranked : ∀ stem, c.Promised dir stem → stem ∈ dir.families.map Prod.snd →
        stem ∈ dir.top c.keep := by
      intro stem hp hmem
      obtain ⟨f, hf, hpre, hname⟩ := mem_families.mp hmem
      have hfile : FileOf f stem := ⟨hpre, .snapshot, List.mem_cons_self, hname⟩
      rcases mem_top_or_outranked.mp hmem with htop | hout
      · exact htop
      · exact absurd hfile (((mem_pruned hfile).mp (hstays f hf stem hp hfile)).2.1 stem hout)
    refine ⟨hranked, ?_, ?_⟩
    · intro f hf stem hp hfile
      rcases List.mem_append.mp ((mem_pruned hfile).mp (hstays f hf stem hp hfile)).2.2 with
        htop | hbest
      · exact htop
      · have hkept : c.Kept dir (stemOf f.name) := Or.inr (Option.mem_toList.mp hbest)
        exact hranked _ (Or.inl hkept) (mem_families_of_kept hkept)
    · intro f hf stem hp hfile
      exact ((mem_pruned hfile).mp (hstays f hf stem hp hfile)).2.1
  · intro h
    exact ⟨fun f hf stem hk hfile => h.mem_swept hf (Or.inl hk) hfile,
      fun f hf hgone stem hfile hp => hgone (h.mem_swept hf hp hfile)⟩

/-! ## A foreign lineage -/

/-- A family of the compiled space that is outranked by one of another space. -/
def outrankedDir : DataDir where
  files :=
    [⟨"chitta.a.snapshot".toList, some 9, none, some 0⟩,
      ⟨"chitta.a.shdr".toList, none, some ⟨768, "old", 1⟩, some 0⟩,
      ⟨"chitta.b.snapshot".toList, some 5, none, some 0⟩,
      ⟨"chitta.b.shdr".toList, none, some ⟨1536, "new", 2⟩, some 0⟩]
  nodup := by decide +kernel

/-- Keep one family. -/
def keepOne : Cleanup := ⟨⟨1536, "new", 2⟩, 1, none, 0, 0, [], 604800, []⟩

/-- The only family that the binary can load goes. -/
theorem loadable_family_pruned : ¬∀ (c : Cleanup) (dir : DataDir), 1 ≤ c.keep → c.Retains dir := by
  intro h
  have hkept : keepOne.Kept outrankedDir "chitta.b".toList := Or.inr (by decide +kernel)
  have hmem := (h keepOne outrankedDir le_rfl).untouched
    ⟨"chitta.b.snapshot".toList, some 5, none, some 0⟩ (by decide +kernel) "chitta.b".toList hkept
    ⟨by decide +kernel, .snapshot, by decide, by decide +kernel⟩
  exact absurd hmem (by decide +kernel)

end DataDir

end ChittaField
