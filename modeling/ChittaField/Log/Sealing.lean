import ChittaField.Log.Certificate

/-!
# The life of a certificate

A certificate is kept long after it was made, in the inventories of the logs and in the families of
the manifest, and it counts as long as the segment has the size that it tells.

`Sealing.Reachable` is every state of the segments directory with the certificates made so far:
segments are created under new names, grow, are replayed, scanned, archived and removed.  A segment
only grows, and a replay cuts nothing off that a certificate tells of.  So a certificate of the right
size tells of the segment as it is (`Sealing.Reachable.attests`).
-/

namespace ChittaField

variable {F : Type}

/-! ## Reading on -/

/-- A header is read the same, whatever follows. -/
lemma readHeader_append_of_header {bs rest : Bytes} {version first : ℕ}
    (h : readHeader bs = .header version first rest) (tail : Bytes) :
    readHeader (bs ++ tail) = .header version first (rest ++ tail) := by
  unfold readHeader at h
  split at h
  · cases h
  rename_i magic bs₁ h₁
  split at h
  · cases h
  rename_i hversion
  split at h
  · cases h
  rename_i h₂
  simp only [readHeader, framed_readExact 8 _ _ _ h₁ tail, hversion,
    framed_readExact 8 _ _ _ h₂ tail]
  split at h
  · rename_i hchained
    split at h
    · cases h
    rename_i h₃
    simp only [framed_readHash _ _ _ h₃ tail, if_pos hchained]
    split at h
    · rename_i hv3
      split at h
      · cases h
      rename_i h₄
      cases h
      simp only [framed_readExact 8 _ _ _ h₄ tail, if_pos hv3]
    · rename_i hv3
      cases h
      simp only [if_neg hv3]
  · rename_i hchained
    cases h
    simp only [if_neg hchained]

/-- A walk cuts nothing off in front of where it starts. -/
lemma le_of_walk_torn (W : Wire F) {version fileLen : ℕ} {bs : Bytes} {st st' : Walk F} {k : ℕ}
    (h : walk W version 0 fileLen bs st = (st', .torn k)) : fileLen - bs.length ≤ k := by
  induction hn : bs.length using Nat.strong_induction_on generalizing bs st with
  | _ n ih =>
    subst hn
    rw [walk_eq] at h
    cases hread : readFrame version bs with
    | eof => simp [hread] at h
    | torn =>
      simp only [hread, Prod.mk.injEq, WalkEnd.torn.injEq] at h
      exact h.2.le
    | frame f rest =>
      have hlt := readFrame_rest_lt hread
      by_cases hcrc : f.computedCrc W version = f.storedCrc
      · cases hop : decodeOp W f with
        | error e => simp [hread, hcrc, hop] at h
        | ok op =>
          simp only [hread, hcrc, hop, ne_eq, not_true_eq_false, if_false, Nat.not_lt_zero] at h
          exact (Nat.sub_le_sub_left hlt.le _).trans (ih rest.length hlt h rfl)
      · by_cases hrest : rest.isEmpty = true
        · simp only [hread, ne_eq, hcrc, not_false_eq_true, if_true, hrest, Prod.mk.injEq,
            WalkEnd.torn.injEq] at h
          exact h.2.le
        · simp [hread, hcrc, hrest] at h

/-- A walk cuts nothing off in front of where the records end. -/
lemma Frames.le_of_walk_torn {W : Wire F} {version fileLen : ℕ} {bs : Bytes}
    {fs : List (Frame × Op F)} (h : Frames W version bs fs) {tail : Bytes} {st st' : Walk F} {k : ℕ}
    (hwalk : walk W version 0 fileLen (bs ++ tail) st = (st', .torn k)) :
    fileLen - tail.length ≤ k := by
  induction h generalizing st with
  | done => exact ChittaField.le_of_walk_torn W hwalk
  | @frame bs rest f op fs hread hcrc _ _ ih =>
    rw [ChittaField.walk_eq, readFrame_append hread] at hwalk
    cases hop : decodeOp W f with
    | error e => simp [hcrc, hop] at hwalk
    | ok op' =>
      simp only [hcrc, hop, ne_eq, not_true_eq_false, if_false, Nat.not_lt_zero] at hwalk
      exact ih hwalk

/-! ## What a certificate attests -/

/-- A certificate attests the contents of a segment: it accounts for them, and has their size. -/
structure Attests (W : Wire F) (log : LogView) (e : SegmentInfo) (name : FileName)
    (file : Bytes) : Prop where
  accounted : ∃ dir, Accounted W log dir e name file
  size : e.sizeBytes = file.length

variable {e : SegmentInfo} {dir : SegDir} {name : FileName}

/-- A certificate attests the segment that it is made from. -/
lemma Certified.attests {W : Wire F} {log : LogView} (h : Certified W log dir e) :
    ∃ name file, dir.read name = some file ∧ Attests W log e name file := by
  cases h with
  | scanned h =>
    obtain ⟨file, hacc, hsize⟩ := Certified.of_scan h
    exact ⟨_, file, hacc.read, ⟨dir, hacc⟩, hsize⟩
  | replayed hfile hown h =>
    obtain ⟨hacc, hsize⟩ := Certified.of_replay hfile hown h
    exact ⟨_, _, hfile, ⟨dir, hacc⟩, hsize⟩

/-- A replay keeps what a certificate attests of the beginning of a segment. -/
lemma Attests.isInitial_replay {W : Wire F} {log : LogView} {file₀ file : Bytes}
    (h : Attests W log e name file₀) (hfile : file₀ <+: file) (head : ChainHash) :
    file₀ <+: (replaySegmentInventoried W name file 0 head).file := by
  obtain ⟨tail, rfl⟩ := hfile
  obtain ⟨dir, hacc⟩ := h.accounted
  obtain ⟨version, first, rest, hheader, hframes⟩ := hacc.frames
  unfold replaySegmentInventoried
  rw [readHeader_append_of_header hheader tail]
  simp only
  cases hwalk : walk W version 0 (file₀ ++ tail).length (rest ++ tail)
      (.start head ((file₀ ++ tail).length - (rest ++ tail).length)) with
  | mk st' wend =>
    cases wend with
    | complete => exact List.prefix_append _ _
    | failed err => exact List.prefix_append _ _
    | torn k =>
      have hk := hframes.le_of_walk_torn hwalk
      rw [List.length_append, Nat.add_sub_cancel] at hk
      simp only [SegmentReplay.ofWalk]
      rw [List.take_append, List.take_of_length_le hk]
      exact List.prefix_append _ _

/-! ## Runs -/

/-- The segments directory, the names that were ever used in it, and the certificates made so
far. -/
structure Sealing where
  dir : SegDir
  used : List FileName
  made : List SegmentInfo

namespace Sealing

/-- An empty directory. -/
def start : Sealing := ⟨.empty, [], []⟩

/-- The certificate of a replay. -/
def certificateOf : Except FieldError (ChainHash × Option SegmentInfo) → List SegmentInfo
  | .ok (_, certificate) => certificate.toList
  | .error _ => []

/-- What happens to the segments. -/
inductive Step (W : Wire F) (log : LogView) (s : Sealing) : Sealing → Prop
  | create {name : FileName} (file : Bytes) (h : name ∉ s.used) :
    Step W log s ⟨s.dir.write name file, name :: s.used, s.made⟩
  | extend {name : FileName} {file : Bytes} (h : s.dir.read name = some file) (bytes : Bytes) :
    Step W log s { s with dir := s.dir.write name (file ++ bytes) }
  | replay {name : FileName} {file : Bytes} (h : s.dir.read name = some file)
    (hown : isForeign log file = false) (head : ChainHash) :
    Step W log s
      { s with
        dir := s.dir.repair name file (replaySegmentInventoried W name file 0 head).file
        made := certificateOf (replaySegmentInventoried W name file 0 head).result ++ s.made }
  | scan {name writerPath : FileName} {e : SegmentInfo}
    (h : scanSealedSegment W s.dir name writerPath log.vectorSpaceId = some e) :
    Step W log s { s with made := e :: s.made }
  | archive {name : FileName} {dir : SegDir} (h : archiveForeignSegment s.dir name = .ok dir) :
    Step W log s { s with dir := dir }
  | remove (name : FileName) : Step W log s { s with dir := s.dir.remove name }

/-- The states that the directory can come to. -/
def Reachable (W : Wire F) (log : LogView) (s : Sealing) : Prop :=
  Relation.ReflTransGen (Step W log) start s

/-- A certificate attests how the segment of its name begins. -/
def Holds (W : Wire F) (log : LogView) (s : Sealing) (e : SegmentInfo) : Prop :=
  ∃ name file₀, Attests W log e name file₀ ∧ name ∈ s.used ∧
    ∀ file, s.dir.read name = some file → file₀ <+: file

/-- Names of segments are in use, and certificates attest how segments begin. -/
structure Invariant (W : Wire F) (log : LogView) (s : Sealing) : Prop where
  used : ∀ name file, s.dir.read name = some file → name ∈ s.used
  made : ∀ e ∈ s.made, s.Holds W log e

variable {W : Wire F} {log : LogView} {s s' : Sealing}

lemma Invariant.start : start.Invariant W log where
  used _ _ h := by cases h
  made _ h := absurd h List.not_mem_nil

/-- A certificate that was just made. -/
lemma Invariant.holds_of_certified (h : s.Invariant W log) (he : Certified W log s.dir e) :
    s.Holds W log e := by
  obtain ⟨name, file, hread, hattests⟩ := he.attests
  refine ⟨name, file, hattests, h.used name file hread, fun file' hread' => ?_⟩
  rw [Option.some.inj (hread.symm.trans hread')]

/-- A step that touches one segment and keeps how it begins. -/
lemma Invariant.update (h : s.Invariant W log)
    (hname : name ∈ s.used) (hother : ∀ name' ≠ name, dir.read name' = s.dir.read name')
    (hself : ∀ e file₀ file, Attests W log e name file₀ →
      (∀ file, s.dir.read name = some file → file₀ <+: file) → dir.read name = some file →
        file₀ <+: file) : Invariant W log { s with dir := dir } where
  used name' file hread := by
    by_cases hne : name' = name
    · exact hne ▸ hname
    · exact h.used name' file ((hother name' hne).symm.trans hread)
  made e he := by
    obtain ⟨name', file₀, hattests, hused, hkept⟩ := h.made e he
    refine ⟨name', file₀, hattests, hused, fun file hread => ?_⟩
    by_cases hne : name' = name
    · subst hne
      exact hself e file₀ file hattests hkept hread
    · exact hkept file ((hother name' hne).symm.trans hread)

/-- A step after which a segment is gone. -/
lemma Invariant.erase (h : s.Invariant W log) (hself : dir.read name = none)
    (hother : ∀ name' ≠ name, dir.read name' = s.dir.read name') :
    Invariant W log { s with dir := dir } := by
  have hkept : ∀ name' file, dir.read name' = some file → s.dir.read name' = some file := by
    intro name' file hread
    have hne : name' ≠ name := fun heq => absurd (hself.symm.trans (heq ▸ hread)) (by simp)
    exact (hother name' hne).symm.trans hread
  refine ⟨fun name' file hread => h.used name' file (hkept name' file hread), fun e he => ?_⟩
  obtain ⟨name', file₀, hattests, hused, hinitial⟩ := h.made e he
  exact ⟨name', file₀, hattests, hused, fun file hread => hinitial file (hkept name' file hread)⟩

/-- A step keeps the invariant. -/
lemma Invariant.step (h : s.Invariant W log) (hstep : Step W log s s') : s'.Invariant W log := by
  cases hstep with
  | @create name file hnew =>
    refine ⟨fun name' file' hread => ?_, fun e he => ?_⟩
    · by_cases hne : name' = name
      · exact hne ▸ List.mem_cons_self
      · rw [SegDir.read_write_of_ne _ _ hne] at hread
        exact List.mem_cons_of_mem _ (h.used name' file' hread)
    · obtain ⟨name', file₀, hattests, hused, hkept⟩ := h.made e he
      refine ⟨name', file₀, hattests, List.mem_cons_of_mem _ hused, fun file' hread => ?_⟩
      have hne : name' ≠ name := fun heq => hnew (heq ▸ hused)
      exact hkept file' ((SegDir.read_write_of_ne _ _ hne).symm.trans hread)
  | @extend name file hread bytes =>
    refine h.update (h.used name file hread) (fun _ hne => SegDir.read_write_of_ne _ _ hne) ?_
    intro e file₀ file' _ hkept hread'
    rw [SegDir.read_write_self, Option.some.injEq] at hread'
    exact hread' ▸ (hkept file hread).trans (List.prefix_append _ _)
  | @replay name file hread hown head =>
    have hdir : Invariant W log { s with
        dir := s.dir.repair name file (replaySegmentInventoried W name file 0 head).file } :=
      h.update (h.used name file hread) (fun _ hne => SegDir.read_repair_of_ne _ _ _ hne) (by
        intro e file₀ file' hattests hkept hread'
        rw [SegDir.read_repair_self _ hread, Option.some.injEq] at hread'
        exact hread' ▸ hattests.isInitial_replay (hkept file hread) head)
    refine ⟨hdir.used, fun e he => ?_⟩
    rcases List.mem_append.mp he with he | he
    · -- a certificate is made of a segment that nothing is cut off from
      obtain ⟨next, hresult⟩ : ∃ next,
          (replaySegmentInventoried W name file 0 head).result = .ok (next, some e) := by
        unfold certificateOf at he
        split at he
        · rename_i next certificate hresult
          exact ⟨next, by rw [hresult, Option.mem_toList.mp he]⟩
        · exact absurd he List.not_mem_nil
      have hattests : Attests W log e name file :=
        ⟨⟨s.dir, (Certified.of_replay hread hown hresult).1⟩, (Certified.of_replay hread hown hresult).2⟩
      refine ⟨name, file, hattests, h.used name file hread, fun file' hread' => ?_⟩
      rw [SegDir.read_repair_self _ hread, Option.some.injEq] at hread'
      exact hread' ▸ hattests.isInitial_replay (List.prefix_refl _) head
    · exact hdir.made e he
  | scan hscan =>
    exact ⟨h.used, List.forall_mem_cons.mpr ⟨h.holds_of_certified (.scanned hscan), h.made⟩⟩
  | @archive name dir hok =>
    unfold archiveForeignSegment at hok
    split at hok
    · cases hok
    · cases hok
      exact h.erase (SegDir.read_remove_self s.dir name) fun _ => SegDir.read_remove_of_ne s.dir
  | remove name =>
    exact h.erase (SegDir.read_remove_self s.dir name) fun _ => SegDir.read_remove_of_ne s.dir

lemma Reachable.invariant (h : s.Reachable W log) : s.Invariant W log := by
  induction h with
  | refl => exact .start
  | tail _ hstep ih => exact ih.step hstep

/-- A certificate of the right size attests the segment as it is. -/
theorem Reachable.attests (h : s.Reachable W log) (he : e ∈ s.made) {file : Bytes}
    (hpath : e.path = relativePath name) (hread : s.dir.read name = some file)
    (hsize : file.length = e.sizeBytes) : Attests W log e name file := by
  obtain ⟨name', file₀, hattests, -, hkept⟩ := h.invariant.made e he
  obtain ⟨dir, hacc⟩ := hattests.accounted
  have hname : name' = name := by
    have := hacc.path.symm.trans hpath
    exact List.append_cancel_left this
  subst hname
  have hinitial := hkept file hread
  rw [← hinitial.eq_of_length (hattests.size.symm.trans hsize.symm)]
  exact hattests

end Sealing

end ChittaField
