import ChittaField.Log.Coverage

/-!
# A walk that skips and one that does not

`InStep` keeps a walk that skips certified segments in step with one that replays them.  The two
agree on the directory, on the hash chain, and on all writers but those that are skipped; of these
the one walk has the records and the other the certificates.  The segments of a writer stand
together in the order of the names, so the chain of another writer never runs across a skipped
segment.

`certified_skipping_iff` says when the two cannot be told apart behind the coverage filter.
-/

namespace ChittaField

variable {F : Type}

/-! ## Coverage as a maximum -/

/-- The coverage of a writer that was raised by these numbers. -/
def coverageOf (ns : List ℕ) : Option ℕ := ns.foldl (fun c n => some (max (c.getD 0) n)) none

lemma coverageOf_eq {ns : List ℕ} (h : ns ≠ []) : coverageOf ns = some (ns.foldl max 0) := by
  have hfold : ∀ (ns : List ℕ) (k : ℕ), ns.foldl (fun c n => some (max (c.getD 0) n)) (some k) =
      some (ns.foldl max k) := by
    intro ns
    induction ns with
    | nil => exact fun k => rfl
    | cons n ns ih => exact fun k => ih (max k n)
  cases ns with
  | nil => exact absurd rfl h
  | cons n ns => exact hfold ns (max 0 n)

variable {inst : InstanceId}

lemma raiseCoverage_self {c : InstanceId → Option ℕ} {ns : List ℕ} (h : c inst = coverageOf ns)
    (n : ℕ) : raiseCoverage c inst n inst = coverageOf (ns ++ [n]) := by
  simp [raiseCoverage, coverageOf, h]

lemma raiseCoverage_of_ne (c : InstanceId → Option ℕ) {inst inst' : InstanceId} (n : ℕ)
    (h : inst' ≠ inst) : raiseCoverage c inst n inst' = c inst' :=
  Function.update_of_ne h _ _

lemma foldl_raiseCoverage_of_ne (c : InstanceId → Option ℕ) {inst inst' : InstanceId}
    (h : inst' ≠ inst) (ns : List ℕ) :
    ns.foldl (fun c n => raiseCoverage c inst n) c inst' = c inst' := by
  induction ns generalizing c with
  | nil => rfl
  | cons n ns ih => exact (ih _).trans (raiseCoverage_of_ne c n h)

lemma foldl_raiseCoverage_self {c : InstanceId → Option ℕ} {ns : List ℕ} (h : c inst = coverageOf ns)
    (ns' : List ℕ) :
    ns'.foldl (fun c n => raiseCoverage c inst n) c inst = coverageOf (ns ++ ns') := by
  induction ns' generalizing c ns with
  | nil => simpa using h
  | cons n ns' ih =>
    have := ih (raiseCoverage_self h n)
    rwa [List.append_assoc] at this

/-- Raising the coverage of a writer depends on what it was of that writer. -/
lemma foldl_raiseCoverage_congr (c c' : InstanceId → Option ℕ) {inst' : InstanceId}
    (h : c inst' = c' inst') (inst : InstanceId) (ns : List ℕ) :
    ns.foldl (fun c n => raiseCoverage c inst n) c inst' =
      ns.foldl (fun c n => raiseCoverage c inst n) c' inst' := by
  induction ns generalizing c c' with
  | nil => exact h
  | cons n ns ih =>
    refine ih _ _ ?_
    by_cases heq : inst' = inst
    · subst heq
      simp [raiseCoverage, h]
    · exact (raiseCoverage_of_ne c n heq).trans (h.trans (raiseCoverage_of_ne c' n heq).symm)

/-! ## Collecting without the skipped writers -/

/-- One stamper has collected what the other one has of the writers that are not skipped. -/
structure Stamper.Without (skips : InstanceId → Bool) (s s' : Stamper F) : Prop where
  lastTs : ∀ inst, skips inst = false → s'.lastTs inst = s.lastTs inst
  buf : s'.buf = s.buf.filter fun a => !skips a.inst

lemma Stamper.Without.pushAll {skips : InstanceId → Bool} {s s' : Stamper F}
    (h : s.Without skips s') (ops : List (InstanceId × ℕ × Op F)) :
    (s.pushAll ops).Without skips (s'.pushAll (ops.filter fun o => !skips o.1)) := by
  induction ops generalizing s s' with
  | nil => exact h
  | cons o ops ih =>
    cases hskip : skips o.1 with
    | true =>
      have hops : (o :: ops).filter (fun o => !skips o.1) = ops.filter fun o => !skips o.1 := by
        simp [hskip]
      rw [hops]
      refine ih (s := s.push o.1 o.2.1 o.2.2) ⟨fun inst hinst => ?_, ?_⟩
      · have hne : inst ≠ o.1 := by
          rintro rfl
          rw [hskip] at hinst
          cases hinst
        rw [h.lastTs inst hinst]
        exact (Function.update_of_ne hne _ _).symm
      · rw [h.buf]
        simp [push, hskip]
    | false =>
      have hops : (o :: ops).filter (fun o => !skips o.1) =
          o :: ops.filter fun o => !skips o.1 := by
        simp [hskip]
      rw [hops]
      refine ih (?_ : (s.push o.1 o.2.1 o.2.2).Without skips (s'.push o.1 o.2.1 o.2.2))
      refine ⟨fun inst hinst => ?_, ?_⟩
      · simp only [push, h.lastTs o.1 hskip]
        by_cases hne : inst = o.1
        · subst hne
          simp
        · rw [Function.update_of_ne hne, Function.update_of_ne hne, h.lastTs inst hinst]
      · simp [push, h.buf, h.lastTs o.1 hskip, hskip]

/-! ## One segment of the two walks -/

/-- The chain tip that a segment is replayed with. -/
def Merge.headFor (m : Merge F) (name : FileName) : ChainHash :=
  if writerPart name = m.currentInstance then m.chainHead else zeroHash

/-- The records of a segment, as they are handed on. -/
def heldRecords (W : Wire F) (dir : SegDir) (name : FileName) : List (ℕ × Op F) :=
  (segmentFrames W ((dir.read name).getD [])).map recordOf

/-- The numbers by which a walk that replays the segments raises the coverage of a writer. -/
def walkedNumbers (W : Wire F) (dir : SegDir) (names : List FileName) (inst : InstanceId) :
    List ℕ :=
  (names.filter (instOf · = inst)).flatMap fun name => 0 :: (heldRecords W dir name).map Prod.fst

/-- The last sequence number that the certificate of a segment tells. -/
def certifiedLast (log : LogView) (cp : CheckpointSet) (dir : SegDir) (name : FileName) : ℕ :=
  ((skippedEntry log dir (some cp) (collectAllSegments dir) name).map (·.lastSeqno)).getD 0

/-- The numbers by which a walk that skips the segments raises the coverage of a writer. -/
def certifiedNumbers (log : LogView) (cp : CheckpointSet) (dir : SegDir) (names : List FileName)
    (inst : InstanceId) : List ℕ :=
  (names.filter (instOf · = inst)).map (certifiedLast log cp dir)

/-- Replaying a segment that is a header and records of the right types. -/
lemma Merge.replaySegment_frames {W : Wire F} {file rest : Bytes} {version first : ℕ}
    (hheader : readHeader file = .header version first rest) {fs : List (Frame × Op F)}
    (hfs : Frames W version rest fs) (htyped : Typed fs) (log : LogView) (name : FileName)
    (m : Merge F) :
    ∃ tip certificate, m.replaySegment W log name file =
      ({ dir := m.dir
         chainHead := tip
         currentInstance := writerPart name
         ownChainHead := if writerPart name = some (instHex log.inst) then tip else m.ownChainHead
         stamper := m.stamper.pushAll ((fs.map recordOf).map fun r => (instOf name, r.1, r.2))
         coverage := ((fs.map recordOf).map Prod.fst).foldl
           (fun c n => raiseCoverage c (instOf name) n) (raiseCoverage m.coverage (instOf name) 0)
         inventory := m.inventory ++ certificate }, none) := by
  obtain ⟨tip, certificate, hres⟩ := hfs.replaySegment_eq hheader htyped name
    (if writerPart name = m.currentInstance then m.chainHead else zeroHash)
  simp only [replaySegment, hres, SegDir.repair, if_true, List.foldl_map]
  exact ⟨_, _, rfl⟩

/-! ## The two walks in step -/

/-- A walk that skips and one that does not, after the segments `done` and before `rest`. -/
structure InStep (W : Wire F) (log : LogView) (cp : CheckpointSet) (dir : SegDir)
    (done rest : List FileName) (m m' : Merge F) : Prop where
  dir_eq : m'.dir = m.dir
  read : ∀ name ∈ rest, m.dir.read name = dir.read name
  own : m'.ownChainHead = m.ownChainHead
  head : ∀ name ∈ rest, name ∉ skippedSegments log cp dir → m'.headFor name = m.headFor name
  /-- The current writer of the walk that skips is that of an earlier segment. -/
  current : ∀ w, m'.currentInstance = some w →
    ∃ b, writerPart b = some w ∧ ∀ name ∈ rest, b < name
  stamper : m.stamper.Without (skipsInst log cp dir) m'.stamper
  skippedOps : (m.stamper.buf.map Stamped.handed).filter (fun o => skipsInst log cp dir o.1) =
    segmentOps (heldRecords W dir) (done.filter (· ∈ skippedSegments log cp dir))
  coverage : ∀ inst, skipsInst log cp dir inst = false → m'.coverage inst = m.coverage inst
  walked : ∀ inst, skipsInst log cp dir inst = true →
    m.coverage inst = coverageOf (walkedNumbers W dir done inst)
  certified : ∀ inst, skipsInst log cp dir inst = true →
    m'.coverage inst = coverageOf (certifiedNumbers log cp dir done inst)

namespace InStep

variable {W : Wire F} {log : LogView} {cp : CheckpointSet} {dir : SegDir}
  {done rest : List FileName} {name : FileName} {m m' : Merge F}

/-- The numbers of a writer do not change at a segment of another one. -/
lemma walkedNumbers_of_ne (h : instOf name ≠ inst) :
    walkedNumbers W dir (done ++ [name]) inst = walkedNumbers W dir done inst := by
  simp [walkedNumbers, h]

lemma certifiedNumbers_of_ne (h : instOf name ≠ inst) :
    certifiedNumbers log cp dir (done ++ [name]) inst = certifiedNumbers log cp dir done inst := by
  simp [certifiedNumbers, h]

/-- A fenced segment only changes the directory. -/
lemma fenced (h : InStep W log cp dir done (name :: rest) m m')
    (hinst : skipsInst log cp dir (instOf name) = false)
    (hname : name ∉ skippedSegments log cp dir) (dir' : SegDir)
    (hread : ∀ name' ∈ rest, dir'.read name' = m.dir.read name') :
    InStep W log cp dir (done ++ [name]) rest { m with dir := dir' } { m' with dir := dir' } where
  dir_eq := rfl
  read name' hname' := (hread name' hname').trans (h.read name' (List.mem_cons_of_mem _ hname'))
  own := h.own
  head name' hname' := h.head name' (List.mem_cons_of_mem _ hname')
  current w hw := by
    obtain ⟨b, hb, hlt⟩ := h.current w hw
    exact ⟨b, hb, (List.forall_mem_cons.mp hlt).2⟩
  stamper := h.stamper
  skippedOps := by simpa [hname] using h.skippedOps
  coverage := h.coverage
  walked inst hskip := by
    have hne : instOf name ≠ inst := fun heq => by simp [← heq, hinst] at hskip
    rw [walkedNumbers_of_ne hne]
    exact h.walked inst hskip
  certified inst hskip := by
    have hne : instOf name ≠ inst := fun heq => by simp [← heq, hinst] at hskip
    rw [certifiedNumbers_of_ne hne]
    exact h.certified inst hskip

/-- A segment of a writer that is not skipped is replayed alike. -/
lemma replayed (h : InStep W log cp dir done (name :: rest) m m')
    (hsorted : ∀ name' ∈ rest, name < name')
    (hinst : skipsInst log cp dir (instOf name) = false)
    (hname : name ∉ skippedSegments log cp dir) (file : Bytes) :
    ∃ m₁ m₁' err, m.replaySegment W log name file = (m₁, err) ∧
      m'.replaySegment W log name file = (m₁', err) ∧
      (err = none → InStep W log cp dir (done ++ [name]) rest m₁ m₁') := by
  have hhead := h.head name List.mem_cons_self hname
  have hm : (if writerPart name = m.currentInstance then m.chainHead else zeroHash) =
      m.headFor name := rfl
  have hm' : (if writerPart name = m'.currentInstance then m'.chainHead else zeroHash) =
      m.headFor name := hhead
  simp only [Merge.replaySegment, hm, hm', h.dir_eq]
  generalize hres : replaySegmentInventoried W name file 0 (m.headFor name) = res
  cases hresult : res.result with
  | error e => exact ⟨_, _, _, rfl, rfl, by simp⟩
  | ok out =>
    obtain ⟨tip, certificate⟩ := out
    refine ⟨_, _, _, rfl, rfl, fun _ => ?_⟩
    have hne : ∀ inst, skipsInst log cp dir inst = true → instOf name ≠ inst := by
      rintro inst hskip rfl
      rw [hinst] at hskip
      cases hskip
    have hfilter : (res.delivered.map fun r => (instOf name, r.1, r.2)).filter
        (fun o => !skipsInst log cp dir o.1) =
          res.delivered.map fun r => (instOf name, r.1, r.2) :=
      List.filter_eq_self.mpr fun o ho => by
        obtain ⟨r, -, rfl⟩ := List.mem_map.mp ho
        simp [hinst]
    have hnone : (res.delivered.map fun r => (instOf name, r.1, r.2)).filter
        (fun o => skipsInst log cp dir o.1) = [] :=
      List.filter_eq_nil_iff.mpr fun o ho => by
        obtain ⟨r, -, rfl⟩ := List.mem_map.mp ho
        simp [hinst]
    have hcov : ∀ (c : InstanceId → Option ℕ) (inst : InstanceId), instOf name ≠ inst →
        res.delivered.foldl (fun c r => raiseCoverage c (instOf name) r.1)
          (raiseCoverage c (instOf name) 0) inst = c inst := by
      intro c inst hinst
      have := foldl_raiseCoverage_of_ne (raiseCoverage c (instOf name) 0) hinst.symm
        (res.delivered.map Prod.fst)
      rw [List.foldl_map] at this
      exact this.trans (raiseCoverage_of_ne c 0 hinst.symm)
    constructor
    case dir_eq => rfl
    case read =>
      intro name' hname'
      refine (SegDir.read_repair_of_ne m.dir _ _ (hsorted name' hname').ne').trans ?_
      exact h.read name' (List.mem_cons_of_mem _ hname')
    case own => simp only [h.own]
    case head => exact fun _ _ _ => rfl
    case current => exact fun w hw => ⟨name, hw, hsorted⟩
    case stamper =>
      have := h.stamper.pushAll (res.delivered.map fun r => (instOf name, r.1, r.2))
      rwa [hfilter] at this
    case skippedOps =>
      rw [Stamper.pushAll_handed, List.filter_append, hnone, List.append_nil, h.skippedOps]
      simp [hname]
    case coverage =>
      intro inst hskip
      have := foldl_raiseCoverage_congr m'.coverage m.coverage (h.coverage inst hskip)
        (instOf name) (0 :: res.delivered.map Prod.fst)
      simpa [List.foldl_map] using this
    case walked =>
      intro inst hskip
      rw [walkedNumbers_of_ne (hne inst hskip)]
      exact (hcov _ _ (hne inst hskip)).trans (h.walked inst hskip)
    case certified =>
      intro inst hskip
      rw [certifiedNumbers_of_ne (hne inst hskip)]
      exact (hcov _ _ (hne inst hskip)).trans (h.certified inst hskip)

/-- The walk that replays a skipped segment only learns of a writer that is skipped. -/
lemma skipped (h : InStep W log cp dir done (name :: rest) m m') (hplace : log.InPlace dir)
    (hlisted : ∀ name' ∈ name :: rest, name' ∈ collectAllSegments dir)
    (hsorted : ∀ name' ∈ rest, name < name') {e : SegmentInfo} {file : Bytes}
    (hentry : skippedEntry log dir (some cp) (collectAllSegments dir) name = some e)
    (hsk : Skipped W log cp dir name e file) (htyped : Typed (segmentFrames W file)) :
    ∃ m₁ m₁', m.step W log (fun _ => none) name = (m₁, none) ∧
      m'.step W log (skippedEntry log dir (some cp) (collectAllSegments dir)) name = (m₁', none) ∧
      InStep W log cp dir (done ++ [name]) rest m₁ m₁' := by
  have hname : name ∈ skippedSegments log cp dir :=
    List.mem_filter.mpr ⟨hlisted name List.mem_cons_self, by simp [hentry]⟩
  have hinst : skipsInst log cp dir (instOf name) = true :=
    (mem_skippedSegments_iff hplace (hlisted name List.mem_cons_self)).mp hname
  have hread : m.dir.read name = some file :=
    (h.read name List.mem_cons_self).trans hsk.accounted.read
  have hradix : (writerPart name).bind fromStrRadix16 = some (instOf name) := by
    obtain ⟨inst, first, hlt, rfl⟩ := hplace.named name (hlisted name List.mem_cons_self)
    simp [writerPart_segmentPath, fromStrRadix16_instHex hlt, instOf_segmentPath hlt]
  obtain ⟨version, first, bs, hheader, hfs⟩ := hsk.accounted.frames
  obtain ⟨tip, certificate, hreplay⟩ := Merge.replaySegment_frames hheader hfs htyped log name m
  have hheld : heldRecords W dir name = (segmentFrames W file).map recordOf := by
    simp [heldRecords, hsk.accounted.read]
  have hlast : certifiedLast log cp dir name = e.lastSeqno := by simp [certifiedLast, hentry]
  have hstep : m.step W log (fun _ => none) name = m.replaySegment W log name file := by
    simp only [Merge.step, hread, hsk.accounted.own, Bool.false_eq_true, if_false]
  have hstep' : m'.step W log (skippedEntry log dir (some cp) (collectAllSegments dir)) name =
      ({ m' with coverage := raiseCoverage m'.coverage (instOf name) e.lastSeqno }, none) := by
    simp only [Merge.step, hentry, hradix]
  refine ⟨_, _, hstep.trans hreplay, hstep', ?_⟩
  have hnone : ((segmentFrames W file).map recordOf |>.map fun r => (instOf name, r.1, r.2)).filter
      (fun o => !skipsInst log cp dir o.1) = [] :=
    List.filter_eq_nil_iff.mpr fun o ho => by
      obtain ⟨r, -, rfl⟩ := List.mem_map.mp ho
      simp [hinst]
  have hall : ((segmentFrames W file).map recordOf |>.map fun r => (instOf name, r.1, r.2)).filter
      (fun o => skipsInst log cp dir o.1) =
        ((segmentFrames W file).map recordOf |>.map fun r => (instOf name, r.1, r.2)) :=
    List.filter_eq_self.mpr fun o ho => by
      obtain ⟨r, -, rfl⟩ := List.mem_map.mp ho
      simp [hinst]
  constructor
  case dir_eq => exact h.dir_eq
  case read => exact (List.forall_mem_cons.mp h.read).2
  case own => rw [if_neg hsk.not_own]; exact h.own
  case head =>
    intro name' hname' hother
    have hlisted' := hlisted name' (List.mem_cons_of_mem _ hname')
    have hw : writerPart name' ≠ writerPart name := fun heq =>
      hother (mem_skippedSegments_of_writerPart hname hlisted' heq)
    have hzero : writerPart name' ≠ m'.currentInstance := by
      intro heq
      obtain ⟨inst, first, -, hpath⟩ := hplace.named name' hlisted'
      have hsome : writerPart name' = some (instHex inst) := by
        rw [hpath, writerPart_segmentPath]
      obtain ⟨b, hb, hlt⟩ := h.current (instHex inst) (heq ▸ hsome)
      -- the segments of a writer stand together, so the skipped one would be among them
      exact hw (hsome.trans (writerPart_between (hlt name List.mem_cons_self)
        (hsorted name' hname') hb hsome).symm)
    simp only [Merge.headFor, if_neg hw, if_neg hzero]
  case current =>
    intro w hcur
    obtain ⟨b, hb, hlt⟩ := h.current w hcur
    exact ⟨b, hb, (List.forall_mem_cons.mp hlt).2⟩
  case stamper =>
    have := h.stamper.pushAll
      ((segmentFrames W file).map recordOf |>.map fun r => (instOf name, r.1, r.2))
    rwa [hnone] at this
  case skippedOps =>
    rw [Stamper.pushAll_handed, List.filter_append, hall, h.skippedOps]
    simp [segmentOps, hname, hheld]
  case coverage =>
    intro inst hskip
    have hne : inst ≠ instOf name := by
      rintro rfl
      rw [hinst] at hskip
      cases hskip
    refine (raiseCoverage_of_ne _ _ hne).trans ((h.coverage inst hskip).trans ?_)
    exact ((foldl_raiseCoverage_of_ne _ hne _).trans (raiseCoverage_of_ne _ _ hne)).symm
  case walked =>
    intro inst hskip
    by_cases hne : instOf name = inst
    · subst hne
      have hcov := foldl_raiseCoverage_self (raiseCoverage_self (h.walked _ hskip) 0)
        (((segmentFrames W file).map recordOf).map Prod.fst)
      refine hcov.trans (congrArg coverageOf ?_)
      simp [walkedNumbers, hheld]
    · rw [walkedNumbers_of_ne hne]
      exact (foldl_raiseCoverage_of_ne _ (Ne.symm hne) _).trans
        ((raiseCoverage_of_ne _ _ (Ne.symm hne)).trans (h.walked inst hskip))
  case certified =>
    intro inst hskip
    by_cases hne : instOf name = inst
    · subst hne
      refine (raiseCoverage_self (h.certified _ hskip) e.lastSeqno).trans (congrArg coverageOf ?_)
      simp [certifiedNumbers, hlast]
    · rw [certifiedNumbers_of_ne hne]
      exact (raiseCoverage_of_ne _ _ (Ne.symm hne)).trans (h.certified inst hskip)

/-- One segment of the two walks: both fail alike, or they stay in step. -/
lemma step (h : InStep W log cp dir done (name :: rest) m m') (hplace : log.InPlace dir)
    (hlisted : ∀ name' ∈ name :: rest, name' ∈ collectAllSegments dir)
    (hsorted : ∀ name' ∈ rest, name < name')
    (hskipped : ∀ e, skippedEntry log dir (some cp) (collectAllSegments dir) name = some e →
      ∃ file, Skipped W log cp dir name e file ∧ Typed (segmentFrames W file)) :
    ∃ m₁ m₁' err, m.step W log (fun _ => none) name = (m₁, err) ∧
      m'.step W log (skippedEntry log dir (some cp) (collectAllSegments dir)) name = (m₁', err) ∧
      (err = none → InStep W log cp dir (done ++ [name]) rest m₁ m₁') := by
  have hmem := hlisted name List.mem_cons_self
  cases hentry : skippedEntry log dir (some cp) (collectAllSegments dir) name with
  | some e =>
    obtain ⟨file, hsk, htyped⟩ := hskipped e hentry
    obtain ⟨m₁, m₁', hstep, hstep', hin⟩ := h.skipped hplace hlisted hsorted hentry hsk htyped
    exact ⟨m₁, m₁', none, hstep, hstep', fun _ => hin⟩
  | none =>
    have hname : name ∉ skippedSegments log cp dir := fun hname => by
      simpa [hentry] using (List.mem_filter.mp hname).2
    have hinst : skipsInst log cp dir (instOf name) = false := by
      rw [← Bool.not_eq_true]
      exact fun hinst => hname ((mem_skippedSegments_iff hplace hmem).mpr hinst)
    simp only [Merge.step, hentry, h.dir_eq]
    cases hread : m.dir.read name with
    | none => exact ⟨_, _, _, rfl, rfl, by simp⟩
    | some file =>
      cases hforeign : isForeign log file with
      | false =>
        simp only [hforeign, Bool.false_eq_true, if_false]
        exact h.replayed hsorted hinst hname file
      | true =>
        have hsame : ∀ name' ∈ rest, name' ≠ name := fun name' hname' =>
          (hsorted name' hname').ne'
        cases hsealed : sealedCandidate log name with
        | false =>
          have hin := h.fenced hinst hname m.dir fun _ _ => rfl
          have hm' : { m' with dir := m.dir } = m' := by rw [← h.dir_eq]
          rw [hm'] at hin
          simp only [hforeign, if_true, Bool.false_eq_true, if_false]
          exact ⟨m, m', none, rfl, rfl, fun _ => hin⟩
        | true =>
          by_cases harchive : name ∈ m.dir.archive
          · simp only [hforeign, archiveForeignSegment, harchive, if_true]
            exact ⟨_, _, _, rfl, rfl, by simp⟩
          · simp only [hforeign, archiveForeignSegment, harchive, if_true, if_false]
            exact ⟨_, _, _, rfl, rfl, fun _ => h.fenced hinst hname _ fun name' hname' =>
              SegDir.read_remove_of_ne m.dir (hsame name' hname')⟩

/-- The two walks fail alike, or they end in step. -/
lemma loop (hplace : log.InPlace dir) (names : List FileName)
    (hlisted : ∀ name ∈ names, name ∈ collectAllSegments dir) (hsorted : names.Pairwise (· < ·))
    (hskipped : ∀ name ∈ names, ∀ e,
      skippedEntry log dir (some cp) (collectAllSegments dir) name = some e →
        ∃ file, Skipped W log cp dir name e file ∧ Typed (segmentFrames W file))
    (h : InStep W log cp dir done names m m') :
    ∃ m₁ m₁' err, m.loop W log (fun _ => none) names = (m₁, err) ∧
      m'.loop W log (skippedEntry log dir (some cp) (collectAllSegments dir)) names = (m₁', err) ∧
      (err = none → InStep W log cp dir (done ++ names) [] m₁ m₁') := by
  induction names generalizing done m m' with
  | nil => exact ⟨m, m', none, rfl, rfl, fun _ => by simpa using h⟩
  | cons name names ih =>
    rw [List.pairwise_cons] at hsorted
    obtain ⟨m₁, m₁', err, hstep, hstep', hin⟩ := h.step hplace hlisted hsorted.1
      (hskipped name List.mem_cons_self)
    cases err with
    | some e => exact ⟨m₁, m₁', some e, by simp [Merge.loop, hstep], by simp [Merge.loop, hstep'],
        by simp⟩
    | none =>
      obtain ⟨m₂, m₂', err, hloop, hloop', hend⟩ := ih
        (List.forall_mem_cons.mp hlisted).2 hsorted.2
        (List.forall_mem_cons.mp hskipped).2 (hin rfl)
      refine ⟨m₂, m₂', err, by simp [Merge.loop, hstep, hloop],
        by simp [Merge.loop, hstep', hloop'], fun herr => ?_⟩
      simpa using hend herr

end InStep

/-! ## What can be told apart -/

/-- Skipping cannot be told from replaying: the records of the skipped segments name the types of
their operations, the cortical operations among them are below the cortical watermark, and a
segment without records starts right behind a record of its writer. -/
structure CheckpointSet.Invisible (W : Wire F) (log : LogView) (dir : SegDir) (cp : CheckpointSet)
    (s : LoadedSnapshots) : Prop where
  typed : ∀ name ∈ skippedSegments log cp dir, ∀ file, dir.read name = some file →
    Typed (segmentFrames W file)
  cortical : ∀ name ∈ skippedSegments log cp dir, ∀ r ∈ heldRecords W dir name,
    isCortical r.2 = true → r.1 ≤ s.snapshotSeqno
  reserved : ∀ name ∈ skippedSegments log cp dir, heldRecords W dir name = [] →
    ∀ first, segmentIdentity name = some (instOf name, first) →
      first ≤ 1 ∨ ∃ name' ∈ skippedSegments log cp dir, instOf name' = instOf name ∧
        ∃ r ∈ heldRecords W dir name', first ≤ r.1 + 1

/-- The two replays fail alike, or their walks end in step. -/
lemma replayCertified_inStep {W : Wire F} {log : LogView} {dir : SegDir} {cp : CheckpointSet}
    (hplace : log.InPlace dir) (hcert : ∀ e ∈ cp.segments, Certified W log dir e)
    (htyped : ∀ name ∈ skippedSegments log cp dir, ∀ file, dir.read name = some file →
      Typed (segmentFrames W file)) :
    (∃ e, (replayCertified W log none dir).result = .error e ∧
        (replayCertified W log (some cp) dir).result = .error e) ∨
      ∃ m m', InStep W log cp dir (collectAllSegments dir) [] m m' ∧
        (replayCertified W log none dir).result = .ok (m.finish none) ∧
        (replayCertified W log (some cp) dir).result = .ok (m'.finish (some cp)) := by
  have hnone : skippedEntry log dir none (collectAllSegments dir) = fun _ => none := rfl
  have hstart : InStep W log cp dir [] (collectAllSegments dir)
      (.start dir ((collectAllSegments dir).filterMap fun _ => none))
      (.start dir ((collectAllSegments dir).filterMap
        (skippedEntry log dir (some cp) (collectAllSegments dir)))) :=
    { dir_eq := rfl, read := fun _ _ => rfl, own := rfl, head := fun _ _ _ => rfl
      current := fun _ h => by cases h
      stamper := ⟨fun _ _ => rfl, rfl⟩
      skippedOps := rfl, coverage := fun _ _ => rfl, walked := fun _ _ => rfl
      certified := fun _ _ => rfl }
  obtain ⟨m, m', err, hloop, hloop', hend⟩ := InStep.loop hplace (collectAllSegments dir)
    (fun _ h => h) (collectAllSegments_sorted dir) (fun name hname e he => by
      obtain ⟨file, hsk⟩ := exists_skipped hplace hcert hname he
      have hmem : name ∈ skippedSegments log cp dir :=
        List.mem_filter.mpr ⟨hname, by simp [he]⟩
      exact ⟨file, hsk, htyped name hmem file hsk.accounted.read⟩) hstart
  simp only [replayCertified, hnone, hloop, hloop']
  cases err with
  | some e => exact Or.inl ⟨e, rfl, rfl⟩
  | none => exact Or.inr ⟨m, m', by simpa using hend rfl, rfl, rfl⟩

/-- A replay that skips nothing and does not fail finds records of the right types. -/
lemma typed_of_replayCertified {W : Wire F} {log : LogView} {dir : SegDir} {cp : CheckpointSet}
    (hplace : log.InPlace dir) (hcert : ∀ e ∈ cp.segments, Certified W log dir e)
    {r : Replayed F} (hok : (replayCertified W log none dir).result = .ok r) :
    ∀ name ∈ skippedSegments log cp dir, ∀ file, dir.read name = some file →
      Typed (segmentFrames W file) := by
  intro name hname file hread
  obtain ⟨hlisted, hsome⟩ := List.mem_filter.mp hname
  obtain ⟨e, he⟩ := Option.isSome_iff_exists.mp hsome
  obtain ⟨file', hsk⟩ := exists_skipped hplace hcert hlisted he
  obtain rfl : file = file' := Option.some.inj (hread.symm.trans hsk.accounted.read)
  obtain ⟨version, first, rest, hheader, hfs⟩ := hsk.accounted.frames
  obtain ⟨m, hloop, -⟩ := exists_loop_of_replayCertified W hok
  have hnodup : (collectAllSegments dir).Nodup :=
    (collectAllSegments_sorted dir).imp fun h => h.ne
  obtain ⟨head, ⟨out, hout⟩, -⟩ := Merge.loop_read_file W log hsk.accounted.own hnodup hlisted
    (m := Merge.start dir []) hread hloop
  exact hfs.typed_of_replaySegment hheader hout

lemma filter_eq_filter_filter {α : Type*} {p q : α → Bool} {l : List α} :
    (l.filter q).filter p = l.filter p ↔ ∀ a ∈ l, p a = true → q a = true := by
  rw [List.filter_filter]
  constructor
  · intro h a ha hp
    have hmem : a ∈ l.filter p := List.mem_filter.mpr ⟨ha, hp⟩
    rw [← h] at hmem
    exact ((Bool.and_eq_true _ _).mp (List.mem_filter.mp hmem).2).2
  · intro h
    refine List.filter_congr fun a ha => ?_
    cases hp : p a with
    | false => rfl
    | true => simp [h a ha hp]

namespace InStep

variable {W : Wire F} {log : LogView} {cp : CheckpointSet} {dir : SegDir} {m m' : Merge F}

/-- The walk that skips hands on what the other one does, without the skipped writers. -/
lemma handed_eq (h : InStep W log cp dir (collectAllSegments dir) [] m m') :
    (m'.finish (some cp)).handed =
      (m.finish none).handed.filter fun o => !skipsInst log cp dir o.1 := by
  simp only [Merge.finish, h.stamper.buf, List.filter_map]
  rw [← Lists.filter_insertionSort]
  rfl

/-- The operations of skipped writers are the records of the skipped segments. -/
lemma mem_handed (h : InStep W log cp dir (collectAllSegments dir) [] m m')
    {o : InstanceId × ℕ × Op F} :
    o ∈ (m.finish none).handed ∧ skipsInst log cp dir o.1 = true ↔
      ∃ name ∈ skippedSegments log cp dir, ∃ r ∈ heldRecords W dir name,
        (instOf name, r.1, r.2) = o := by
  have hperm : (m.finish none).handed.Perm (m.stamper.buf.map Stamped.handed) :=
    (List.perm_insertionSort mergeLE _).map _
  have hsub : ∀ name ∈ skippedSegments log cp dir, name ∈ collectAllSegments dir :=
    fun name hname => (List.mem_filter.mp hname).1
  have hops : o ∈ m.stamper.buf.map Stamped.handed ∧ skipsInst log cp dir o.1 = true ↔
      o ∈ segmentOps (heldRecords W dir)
        ((collectAllSegments dir).filter (· ∈ skippedSegments log cp dir)) := by
    rw [← h.skippedOps, List.mem_filter]
  rw [hperm.mem_iff, hops]
  simp only [segmentOps, List.mem_flatMap, List.mem_filter, decide_eq_true_eq, List.mem_map]
  constructor
  · rintro ⟨name, ⟨-, hname⟩, hr⟩
    exact ⟨name, hname, hr⟩
  · rintro ⟨name, hname, hr⟩
    exact ⟨name, ⟨hsub name hname, hname⟩, hr⟩

end InStep

lemma le_getLast_of_pairwise {l : List ℕ} (h : l.Pairwise (· < ·)) {a : ℕ} (ha : a ∈ l) (d : ℕ) :
    a ≤ l.getLast?.getD d := by
  have hne := List.ne_nil_of_mem ha
  rw [List.getLast?_eq_getLast_of_ne_nil hne, Option.getD_some]
  rw [← List.dropLast_append_getLast hne, List.mem_append] at ha
  rcases ha with ha | ha
  · rw [← List.dropLast_append_getLast hne, List.pairwise_append] at h
    exact (h.2.2 a ha _ (by simp)).le
  · exact (List.mem_singleton.mp ha).le

namespace Skipped

variable {W : Wire F} {log : LogView} {cp : CheckpointSet} {dir : SegDir} {name : FileName}
  {e : SegmentInfo} {file : Bytes}

lemma heldRecords_map_fst (h : Skipped W log cp dir name e file) :
    (heldRecords W dir name).map Prod.fst = seqnos (segmentFrames W file) := by
  rw [heldRecords, h.accounted.read, List.map_map]
  rfl

/-- The certificate bounds the sequence numbers. -/
lemma seqno_le (h : Skipped W log cp dir name e file) {r : ℕ × Op F}
    (hr : r ∈ heldRecords W dir name) : r.1 ≤ e.lastSeqno := by
  have hmem : r.1 ∈ seqnos (segmentFrames W file) := by
    rw [← h.heldRecords_map_fst]
    exact List.mem_map_of_mem hr
  rw [h.accounted.last]
  exact le_getLast_of_pairwise h.accounted.increasing hmem _

/-- Only a cortical operation above the cortical watermark passes the coverage filter. -/
lemma passes_iff (h : Skipped W log cp dir name e file) {s : LoadedSnapshots}
    (hfamily : s.family = some cp) {r : ℕ × Op F} (hr : r ∈ heldRecords W dir name) :
    s.passes (instOf name) r.1 r.2 = true ↔
      isCortical r.2 = true ∧ s.snapshotSeqno < r.1 := by
  obtain ⟨full, hfull, hle⟩ := h.covered
  have hcovered : s.coveredByFull (instOf name) r.1 = true := by
    simp [LoadedSnapshots.coveredByFull, hfamily, hfull, (h.seqno_le hr).trans hle]
  simp [LoadedSnapshots.passes, hcovered]

end Skipped

/-- The two walks raise the coverage of a skipped writer alike if no certificate tells more than the
records. -/
lemma coverageOf_eq_iff {W : Wire F} {log : LogView} {cp : CheckpointSet} {dir : SegDir}
    (hplace : log.InPlace dir) (hcert : ∀ e ∈ cp.segments, Certified W log dir e)
    (hskip : skipsInst log cp dir inst = true) :
    coverageOf (certifiedNumbers log cp dir (collectAllSegments dir) inst) =
        coverageOf (walkedNumbers W dir (collectAllSegments dir) inst) ↔
      ∀ name ∈ skippedSegments log cp dir, instOf name = inst → heldRecords W dir name = [] →
        ∀ first, segmentIdentity name = some (instOf name, first) →
          first ≤ 1 ∨ ∃ name' ∈ skippedSegments log cp dir, instOf name' = instOf name ∧
            ∃ r ∈ heldRecords W dir name', first ≤ r.1 + 1 := by
  -- what is known of the segments of the writer
  have hsk : ∀ name ∈ collectAllSegments dir, instOf name = inst →
      ∃ e file, Skipped W log cp dir name e file ∧ certifiedLast log cp dir name = e.lastSeqno := by
    intro name hname hinst
    have hmem := (mem_skippedSegments_iff hplace hname).mpr (hinst ▸ hskip)
    obtain ⟨e, he⟩ := Option.isSome_iff_exists.mp (List.mem_filter.mp hmem).2
    obtain ⟨file, hsk⟩ := exists_skipped hplace hcert hname he
    exact ⟨e, file, hsk, by simp [certifiedLast, he]⟩
  have hwalked : ∀ {a}, a ∈ walkedNumbers W dir (collectAllSegments dir) inst ↔
      ∃ name ∈ collectAllSegments dir, instOf name = inst ∧
        (a = 0 ∨ ∃ r ∈ heldRecords W dir name, r.1 = a) := by
    simp [walkedNumbers, and_assoc]
  have hcertified : ∀ {a}, a ∈ certifiedNumbers log cp dir (collectAllSegments dir) inst ↔
      ∃ name ∈ collectAllSegments dir, instOf name = inst ∧ certifiedLast log cp dir name = a := by
    simp [certifiedNumbers, and_assoc]
  obtain ⟨name₀, hname₀, hinst₀⟩ := List.any_eq_true.mp hskip
  have hinst₀ : instOf name₀ = inst := by simpa using hinst₀
  have hlisted₀ := (List.mem_filter.mp hname₀).1
  rw [coverageOf_eq (List.ne_nil_of_mem (hcertified.mpr ⟨name₀, hlisted₀, hinst₀, rfl⟩)),
    coverageOf_eq (List.ne_nil_of_mem (hwalked.mpr ⟨name₀, hlisted₀, hinst₀, Or.inl rfl⟩)),
    Option.some.injEq]
  generalize hV : (walkedNumbers W dir (collectAllSegments dir) inst).foldl max 0 = V
  have hle : ∀ name ∈ collectAllSegments dir, instOf name = inst →
      ∀ r ∈ heldRecords W dir name, r.1 ≤ V := fun name hname hinst r hr =>
    hV ▸ Lists.le_foldl_max (Or.inl (hwalked.mpr ⟨name, hname, hinst, Or.inr ⟨r, hr, rfl⟩⟩))
  constructor
  · intro heq name hname hinst hheld first hfirst
    have hlisted := (List.mem_filter.mp hname).1
    obtain ⟨e, file, hs, hlast⟩ := hsk name hlisted hinst
    have hlt : certifiedLast log cp dir name ≤ V :=
      heq ▸ Lists.le_foldl_max (Or.inl (hcertified.mpr ⟨name, hlisted, hinst, rfl⟩))
    have hempty : seqnos (segmentFrames W file) = [] := by
      rw [← hs.heldRecords_map_fst, hheld]
      rfl
    have hfirst' : first = e.firstSeqno :=
      congrArg Prod.snd (Option.some.inj (hfirst.symm.trans hs.identity))
    rw [hlast, hs.accounted.last, hempty] at hlt
    have hlt' : first - 1 ≤ V := hfirst' ▸ hlt
    rcases Lists.foldl_max_mem (walkedNumbers W dir (collectAllSegments dir) inst) 0
      with hV' | hV'
    · exact Or.inl (by omega)
    · obtain ⟨name', hname', hinst', hval⟩ := hwalked.mp hV'
      rw [hV] at hval
      rcases hval with hval | ⟨r, hr, hval⟩
      · exact Or.inl (by omega)
      · exact Or.inr ⟨name', (mem_skippedSegments_iff hplace hname').mpr (hinst' ▸ hskip),
          hinst'.trans hinst.symm, r, hr, by omega⟩
  · intro hreserved
    refine le_antisymm (Lists.foldl_max_le (fun a ha => ?_) (Nat.zero_le _)) ?_
    · obtain ⟨name, hname, hinst, rfl⟩ := hcertified.mp ha
      obtain ⟨e, file, hs, hlast⟩ := hsk name hname hinst
      have hmem := (mem_skippedSegments_iff hplace hname).mpr (hinst ▸ hskip)
      rw [hlast, hs.accounted.last, ← hs.heldRecords_map_fst]
      cases hheld : heldRecords W dir name with
      | nil =>
        rcases hreserved name hmem hinst hheld e.firstSeqno hs.identity with hone | ⟨name', hname',
          hinst', r, hr, hr'⟩
        · simp only [List.map_nil, List.getLast?_nil, Option.getD_none]
          omega
        · have := hle name' (List.mem_filter.mp hname').1 (hinst'.trans hinst) r hr
          simp only [List.map_nil, List.getLast?_nil, Option.getD_none]
          omega
      | cons r rs =>
        have hne : (r :: rs).map Prod.fst ≠ [] := by simp
        rw [List.getLast?_eq_getLast_of_ne_nil hne, Option.getD_some]
        obtain ⟨r', hr', heq⟩ := List.mem_map.mp (List.getLast_mem hne)
        rw [← heq]
        exact hle name hname hinst r' (hheld ▸ hr')
    · rw [← hV]
      refine Lists.foldl_max_le (fun a ha => ?_) (Nat.zero_le _)
      obtain ⟨name, hname, hinst, hval⟩ := hwalked.mp ha
      rcases hval with rfl | ⟨r, hr, rfl⟩
      · exact Nat.zero_le _
      · obtain ⟨e, file, hs, hlast⟩ := hsk name hname hinst
        refine (hs.seqno_le hr).trans (Lists.le_foldl_max (Or.inl ?_))
        exact hcertified.mpr ⟨name, hname, hinst, hlast⟩

/-- Skipping certified segments cannot be told from replaying them if the records of the skipped
segments name the right types, their cortical operations are below the cortical watermark, and the
empty ones among them start right behind a record.  Where the full replay succeeds, it can be told
otherwise. -/
theorem certified_skipping_iff {W : Wire F} {log : LogView} {dir : SegDir} {cp : CheckpointSet}
    (hplace : log.InPlace dir) (hcert : ∀ e ∈ cp.segments, Certified W log dir e)
    {s : LoadedSnapshots} (hfamily : s.family = some cp) :
    (cp.Invisible W log dir s →
        s.replayFiltered W log (some cp) dir = s.replayFiltered W log none dir) ∧
      ∀ r, s.replayFiltered W log none dir = .ok r →
        s.replayFiltered W log (some cp) dir = .ok r → cp.Invisible W log dir s := by
  have hinStep : ∀ {m m' : Merge F}, InStep W log cp dir (collectAllSegments dir) [] m m' →
      (((m'.finish (some cp)).handed.filter fun o => s.passes o.1 o.2.1 o.2.2) =
          (m.finish none).handed.filter (fun o => s.passes o.1 o.2.1 o.2.2) ↔
        ∀ name ∈ skippedSegments log cp dir, ∀ r ∈ heldRecords W dir name,
          isCortical r.2 = true → r.1 ≤ s.snapshotSeqno) := by
    intro m m' h
    rw [h.handed_eq, filter_eq_filter_filter]
    have hpasses : ∀ name ∈ skippedSegments log cp dir, ∀ r ∈ heldRecords W dir name,
        (s.passes (instOf name) r.1 r.2 = true ↔
          isCortical r.2 = true ∧ s.snapshotSeqno < r.1) := by
      intro name hname r hr
      obtain ⟨hlisted, hsome⟩ := List.mem_filter.mp hname
      obtain ⟨e, he⟩ := Option.isSome_iff_exists.mp hsome
      obtain ⟨file, hsk⟩ := exists_skipped hplace hcert hlisted he
      exact hsk.passes_iff hfamily hr
    constructor
    · intro hall name hname r hr hcortical
      by_contra hlt
      have hmem := h.mem_handed.mpr ⟨name, hname, r, hr, rfl⟩
      have := hall _ hmem.1 ((hpasses name hname r hr).mpr ⟨hcortical, by omega⟩)
      rw [hmem.2] at this
      cases this
    · intro hall o ho hpass
      cases hskip : skipsInst log cp dir o.1 with
      | false => rfl
      | true =>
        obtain ⟨name, hname, r, hr, rfl⟩ := h.mem_handed.mp ⟨ho, hskip⟩
        obtain ⟨hcortical, hlt⟩ := (hpasses name hname r hr).mp hpass
        exact absurd (hall name hname r hr hcortical) (by omega)
  have hcoverage : ∀ {m m' : Merge F}, InStep W log cp dir (collectAllSegments dir) [] m m' →
      (m'.coverage = m.coverage ↔ ∀ inst, skipsInst log cp dir inst = true →
        coverageOf (certifiedNumbers log cp dir (collectAllSegments dir) inst) =
          coverageOf (walkedNumbers W dir (collectAllSegments dir) inst)) := by
    intro m m' h
    constructor
    · intro heq inst hskip
      rw [← h.certified inst hskip, ← h.walked inst hskip, heq]
    · intro hall
      funext inst
      cases hskip : skipsInst log cp dir inst with
      | false => exact h.coverage inst hskip
      | true => rw [h.certified inst hskip, h.walked inst hskip, hall inst hskip]
  refine ⟨fun hinv => ?_, fun r hnone hsome => ?_⟩
  · unfold LoadedSnapshots.replayFiltered
    rcases replayCertified_inStep hplace hcert hinv.typed with ⟨e, hnone, hsome⟩ |
      ⟨m, m', h, hnone, hsome⟩
    · rw [hnone, hsome]
    · rw [hnone, hsome]
      refine congrArg Except.ok (Filtered.ext ((hinStep h).mpr hinv.cortical) ?_ h.own)
      refine (hcoverage h).mpr fun inst hskip => (coverageOf_eq_iff hplace hcert hskip).mpr ?_
      exact fun name hname _ => hinv.reserved name hname
  · unfold LoadedSnapshots.replayFiltered at hnone hsome
    cases hok : (replayCertified W log none dir).result with
    | error e => simp [hok, Except.map] at hnone
    | ok r' =>
      have htyped := typed_of_replayCertified hplace hcert hok
      rcases replayCertified_inStep hplace hcert htyped with ⟨e, herr, -⟩ |
        ⟨m, m', h, hnone', hsome'⟩
      · rw [herr] at hok
        cases hok
      · rw [hnone'] at hnone
        rw [hsome'] at hsome
        have heq := (Except.ok.inj hsome).trans (Except.ok.inj hnone).symm
        refine ⟨htyped, (hinStep h).mp (congrArg Filtered.applied heq), ?_⟩
        intro name hname
        have hskip := (mem_skippedSegments_iff hplace (List.mem_filter.mp hname).1).mp hname
        exact (coverageOf_eq_iff hplace hcert hskip).mp
          ((hcoverage h).mp (congrArg Filtered.coverage heq) _ hskip) name hname rfl

/-! ## A writer that trained the quantizer -/

/-- The segments of instance `2`, which trained the quantizer at sequence number `3`, and of
instance `3`, which is about to write. -/
def trainedDir : SegDir :=
  (SegDir.empty.write (segmentPath 2 1) (headerV3 1 zeroHash 0 ++
    encodeAll (Reference.wire ℚ) (records [Reference.training ℚ 3 zeroHash]))).write
    (segmentPath 3 1) (headerV3 1 zeroHash 0)

/-- Both snapshots of this number cover instance `2` up to its training. -/
def trainedFamily (snapshotSeqno : ℕ) : CheckpointSet where
  snapshotSeqno
  covered := [(instHex 2, 3)]
  corticalCovered := [(instHex 2, 3)]
  segments := [⟨relativePath (segmentPath 2 1), 1, 3, 116⟩]
  vectorSpaceId := some 0

/-- The loaded snapshots; the cortical one is bound to the family by its number. -/
def trainedSnapshots (snapshotSeqno : ℕ) : LoadedSnapshots :=
  ⟨snapshotSeqno, 3, some (trainedFamily snapshotSeqno), true⟩

lemma trained_inPlace : sampleLog.InPlace trainedDir where
  listed := by decide +kernel
  own := by decide +kernel
  named := by
    have hlisted : collectAllSegments trainedDir = [segmentPath 2 1, segmentPath 3 1] := by
      decide +kernel
    intro name hname
    rw [hlisted] at hname
    rcases List.mem_pair.mp hname with rfl | rfl
    · exact ⟨2, 1, by decide, rfl⟩
    · exact ⟨3, 1, by decide, rfl⟩

lemma trained_certified (n : ℕ) : ∀ e ∈ (trainedFamily n).segments,
    Certified (Reference.wire ℚ) sampleLog trainedDir e := by
  intro e he
  rw [List.mem_singleton.mp he]
  have hscan : scanSealedSegment (Reference.wire ℚ) trainedDir (segmentPath 2 1) (segmentPath 3 1)
      sampleLog.vectorSpaceId = (trainedFamily 0).segments.head? := by
    decide +kernel
  exact .scanned hscan

/-- With a cortical watermark below the training, the certified replay drops it and the full replay
applies it. -/
theorem certified_skipping_drops_training :
    (∀ e ∈ (trainedFamily 2).segments, Certified (Reference.wire ℚ) sampleLog trainedDir e) ∧
      ((trainedSnapshots 2).replayFiltered (Reference.wire ℚ) sampleLog (some (trainedFamily 2))
        trainedDir).toOption.map (·.applied.map (·.2.1)) = some [] ∧
      ((trainedSnapshots 2).replayFiltered (Reference.wire ℚ) sampleLog none
        trainedDir).toOption.map (·.applied.map (·.2.1)) = some [3] :=
  ⟨trained_certified 2, by decide +kernel, by decide +kernel⟩

/-- With a cortical watermark that reaches the training, both replays drop it. -/
theorem certified_skipping_training_covered :
    (trainedSnapshots 3).replayFiltered (Reference.wire ℚ) sampleLog (some (trainedFamily 3))
        trainedDir =
      (trainedSnapshots 3).replayFiltered (Reference.wire ℚ) sampleLog none trainedDir := by
  have hskipped : skippedSegments sampleLog (trainedFamily 3) trainedDir = [segmentPath 2 1] := by
    decide +kernel
  refine (certified_skipping_iff trained_inPlace (trained_certified 3)
    (s := trainedSnapshots 3) rfl).1 ⟨?_, ?_, ?_⟩
  · intro name hname file hread
    rw [hskipped] at hname
    obtain rfl := List.mem_singleton.mp hname
    have hfile : trainedDir.read (segmentPath 2 1) = some (headerV3 1 zeroHash 0 ++
        encodeAll (Reference.wire ℚ) (records [Reference.training ℚ 3 zeroHash])) := by
      decide +kernel
    obtain rfl := Option.some.inj (hread.symm.trans hfile)
    unfold Typed
    decide +kernel
  · rw [hskipped]
    decide +kernel
  · rw [hskipped]
    intro name hname hempty
    obtain rfl := List.mem_singleton.mp hname
    have hheld : (heldRecords (Reference.wire ℚ) trainedDir (segmentPath 2 1)).length = 1 := by
      decide +kernel
    rw [hempty] at hheld
    cases hheld

end ChittaField
