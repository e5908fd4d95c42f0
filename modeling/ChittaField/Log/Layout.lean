import ChittaField.Log.Recovery

/-!
# The segments of one log

The layout of a directory that belongs to one log: the open segment and the others, in the order of
their names.  Appending adds an entry to the open segment or starts a new one, and replay hands on
the records of all segments in order, as long as nothing was appended behind a torn record.
-/

namespace ChittaField

variable {F : Type}

/-! ## The directory while records are appended -/

/-- A segment: its name, its bytes before the run with the entries they hold, and the entries
appended since. -/
structure Piece (F : Type) where
  name : FileName
  old : Bytes
  had : List (Entry F)
  new : List (Entry F)

/-- The bytes of a segment. -/
def Piece.bytes (W : Wire F) (p : Piece F) : Bytes := p.old ++ encodeAll W (records p.new)

/-- The segment with one more entry. -/
def Piece.push (p : Piece F) (e : Entry F) : Piece F := { p with new := p.new ++ [e] }

@[simp] lemma Piece.push_name (p : Piece F) (e : Entry F) : (p.push e).name = p.name := rfl

@[simp] lemma Piece.push_bytes (W : Wire F) (p : Piece F) (e : Entry F) :
    (p.push e).bytes W = p.bytes W ++ e.record.encode W := by
  simp [push, bytes]

/-- The segments of the log: those in front of the open one, the open one, and those behind it. -/
structure Pieces (F : Type) where
  closed : List (Piece F)
  cur : Piece F
  behind : List (Piece F)

/-- All segments in the order of their names. -/
def Pieces.all (ps : Pieces F) : List (Piece F) := ps.closed ++ ps.cur :: ps.behind

/-- The segments other than the open one. -/
def Pieces.others (ps : Pieces F) : List (Piece F) := ps.closed ++ ps.behind

lemma Pieces.mem_all {ps : Pieces F} {p : Piece F} :
    p ∈ ps.all ↔ p ∈ ps.others ∨ p = ps.cur := by
  simp only [all, others, List.mem_append, List.mem_cons]
  tauto

/-- The segments with one more entry in the open one. -/
def Pieces.push (ps : Pieces F) (e : Entry F) : Pieces F := { ps with cur := ps.cur.push e }

/-- A new segment that starts with the entry `e`. -/
def Piece.start (inst : InstanceId) (vectorSpaceId n : ℕ) (head : ChainHash)
    (new : List (Entry F)) : Piece F :=
  ⟨segmentPath inst n, headerV3 n head vectorSpaceId, [], new⟩

/-- An entry is appended to the open segment, or to a new one. -/
inductive Grow (inst : InstanceId) (vectorSpaceId : ℕ) (ps : Pieces F) (e : Entry F) :
    Pieces F → Prop
  | extend : Grow inst vectorSpaceId ps e (ps.push e)
  | rotate (n : ℕ) (hn : n < 256 ^ 8) (head : ChainHash) :
    Grow inst vectorSpaceId ps e ⟨ps.all, .start inst vectorSpaceId n head [e], []⟩

/-- The directory holds the segments, in the order of their names, and the log writes behind the
open one. -/
structure Layout (W : Wire F) (log : OpLog F) (dir : SegDir) (ps : Pieces F) : Prop where
  listed : collectAllSegments dir = ps.all.map (·.name)
  others : ∀ p ∈ ps.others, dir.read p.name = some (p.bytes W)
  current : log.At dir (ps.cur.bytes W)
  path : log.currentSegmentPath = ps.cur.name
  /-- The names are in use: a new segment gets a larger one. -/
  named : ∀ p ∈ ps.all, ∃ n ≤ log.nextSeqno, p.name = segmentPath log.instanceId n ∧
    (maxSegmentSize ≤ log.currentSegmentSize → n < log.nextSeqno)
  suppresses : ∀ op, log.suppresses op = false

namespace Layout

variable {W : Wire F} {log : OpLog F} {dir : SegDir} {ps : Pieces F}

lemma ne_of_mem_others (h : Layout W log dir ps) {p : Piece F} (hp : p ∈ ps.others) :
    p.name ≠ log.currentSegmentPath := by
  have hsorted := collectAllSegments_sorted dir
  rw [h.listed, Pieces.all, List.map_append, List.map_cons, List.pairwise_append,
    List.pairwise_cons] at hsorted
  rw [h.path]
  rcases List.mem_append.mp hp with hp | hp
  · exact (hsorted.2.2 _ (List.mem_map_of_mem hp) _ List.mem_cons_self).ne
  · exact (hsorted.2.1.1 _ (List.mem_map_of_mem hp)).ne'

lemma read (h : Layout W log dir ps) {p : Piece F} (hp : p ∈ ps.all) :
    dir.read p.name = some (p.bytes W) := by
  rcases Pieces.mem_all.mp hp with hp | rfl
  · exact h.others p hp
  · rw [← h.path, h.current.read]

/-- The name of the next segment is larger than all names in use. -/
lemma lt_rotated (h : Layout W log dir ps) (hfull : maxSegmentSize ≤ log.currentSegmentSize)
    (hseqno : log.nextSeqno < 10 ^ 12) :
    ∀ p ∈ ps.all, p.name < log.rotated.currentSegmentPath := by
  intro p hp
  obtain ⟨n, -, hname, hlt⟩ := h.named p hp
  rw [hname]
  exact segmentPath_lt _ (hlt hfull) hseqno

/-- A rotation finds its name free. -/
lemma not_blocked (h : Layout W log dir ps) (hseqno : log.nextSeqno < 10 ^ 12) :
    ¬ log.RotationBlocked dir := by
  rintro ⟨hfull, hsome | hpath⟩
  · have hmem : log.rotated.currentSegmentPath ∈ collectAllSegments dir :=
      mem_collectAllSegments.mpr ⟨hsome, isValidSegmentName_segmentPath _ hseqno⟩
    rw [h.listed] at hmem
    obtain ⟨p, hp, hname⟩ := List.mem_map.mp hmem
    exact (h.lt_rotated hfull hseqno p hp).ne hname
  · rw [h.path] at hpath
    exact (h.lt_rotated hfull hseqno ps.cur (Pieces.mem_all.mpr (Or.inr rfl))).ne hpath.symm

/-- The listing of a directory with the same segments. -/
lemma listed_of_isSome (h : Layout W log dir ps) (dir' : SegDir)
    (hsome : ∀ name, (dir'.read name).isSome = (dir.read name).isSome) :
    collectAllSegments dir' = ps.all.map (·.name) := by
  rw [← h.listed]
  refine collectAllSegments_eq (collectAllSegments_sorted dir) fun name => ?_
  rw [mem_collectAllSegments, hsome]

/-- The listing of a directory with one more segment. -/
lemma listed_rotated (h : Layout W log dir ps)
    (hfull : maxSegmentSize ≤ log.currentSegmentSize) (hseqno : log.nextSeqno < 10 ^ 12)
    {dir' : SegDir} (hnew : (dir'.read log.rotated.currentSegmentPath).isSome)
    (hold : (dir'.read log.currentSegmentPath).isSome)
    (hothers : ∀ name ≠ log.currentSegmentPath, name ≠ log.rotated.currentSegmentPath →
      dir'.read name = dir.read name) :
    collectAllSegments dir' = ps.all.map (·.name) ++ [log.rotated.currentSegmentPath] := by
  refine collectAllSegments_eq ?_ fun name => ?_
  · rw [List.pairwise_append, ← h.listed]
    refine ⟨collectAllSegments_sorted dir, List.pairwise_singleton _ _, fun a ha b hb => ?_⟩
    rw [h.listed] at ha
    obtain ⟨p, hp, rfl⟩ := List.mem_map.mp ha
    rw [List.mem_singleton.mp hb]
    exact h.lt_rotated hfull hseqno p hp
  · rw [List.mem_append, List.mem_singleton, ← h.listed, mem_collectAllSegments]
    have hvalid : isValidSegmentName log.rotated.currentSegmentPath = true :=
      isValidSegmentName_segmentPath _ hseqno
    by_cases hname' : name = log.rotated.currentSegmentPath
    · subst hname'
      simp [hnew, hvalid]
    · by_cases hname : name = log.currentSegmentPath
      · subst hname
        simp [hold, h.current.read, hname']
      · rw [hothers name hname hname']
        simp [hname']

/-- The layout after a record went behind the open segment. -/
lemma extend (h : Layout W log dir ps) {log' : OpLog F} {dir' : SegDir} {e : Entry F}
    (hack : (log.acknowledge W e.record).Touched log') (hseqno : log.nextSeqno < 10 ^ 12)
    (hat : log'.At dir' (ps.cur.bytes W ++ e.record.encode W))
    (hothers : log.OthersKept dir dir') : Layout W log' dir' (ps.push e) := by
  obtain ⟨_, _, _, _, rfl⟩ := hack
  have hread : dir'.read log.currentSegmentPath = _ := hat.read
  have hmod : (log.nextSeqno + 1) % 2 ^ 64 = log.nextSeqno + 1 := Nat.mod_eq_of_lt (by omega)
  refine ⟨?_, ?_, by simpa [Pieces.push] using hat, h.path, ?_, h.suppresses⟩
  · have hlisted := h.listed_of_isSome dir' fun name => by
      by_cases hname : name = log.currentSegmentPath
      · rw [hname, hread, h.current.read]
        rfl
      · rw [hothers name hname]
    simpa [Pieces.all, Pieces.push] using hlisted
  · intro p hp
    rw [hothers p.name (h.ne_of_mem_others hp)]
    exact h.others p hp
  · intro p hp
    obtain ⟨q, hq, hname⟩ : ∃ q ∈ ps.all, p.name = q.name := by
      rcases Pieces.mem_all.mp hp with hp | rfl
      · exact ⟨p, Pieces.mem_all.mpr (Or.inl hp), rfl⟩
      · exact ⟨ps.cur, Pieces.mem_all.mpr (Or.inr rfl), rfl⟩
    obtain ⟨n, hle, hn, -⟩ := h.named q hq
    simp only [OpLog.acknowledge, hmod]
    exact ⟨n, by omega, hname.trans hn, fun _ => by omega⟩

/-- The layout after a record started a new segment. -/
lemma rotate (h : Layout W log dir ps) {log' : OpLog F} {dir' : SegDir} {e : Entry F}
    (hack : (log.rotated.acknowledge W e.record).Touched log') (hseqno : log.nextSeqno < 10 ^ 12)
    (hat : log'.At dir' (log.rotated.acceptedPrefix ++ e.record.encode W))
    (hfull : maxSegmentSize ≤ log.currentSegmentSize)
    (hold : dir'.read log.currentSegmentPath = some (ps.cur.bytes W))
    (hothers : ∀ name ≠ log.currentSegmentPath, name ≠ log.rotated.currentSegmentPath →
      dir'.read name = dir.read name) :
    Layout W log' dir' ⟨ps.all,
      .start log.instanceId log.vectorSpaceId log.nextSeqno log.chainHead [e], []⟩ := by
  obtain ⟨_, _, _, _, rfl⟩ := hack
  have hread : dir'.read log.rotated.currentSegmentPath = _ := hat.read
  have hmod : (log.nextSeqno + 1) % 2 ^ 64 = log.nextSeqno + 1 := Nat.mod_eq_of_lt (by omega)
  refine ⟨?_, ?_, ?_, rfl, ?_, h.suppresses⟩
  · rw [h.listed_rotated hfull hseqno (by rw [hread]; rfl) (by rw [hold]; rfl) hothers]
    simp [Pieces.all, Piece.start, OpLog.rotated]
  · intro p hp
    rw [Pieces.others, List.append_nil] at hp
    have hlt := h.lt_rotated hfull hseqno p hp
    rcases Pieces.mem_all.mp hp with hp | rfl
    · rw [hothers p.name (h.ne_of_mem_others hp) hlt.ne]
      exact h.others p hp
    · rw [← h.path]
      exact hold
  · simpa [Piece.bytes, Piece.start, OpLog.rotated] using hat
  · intro p hp
    simp only [OpLog.acknowledge, OpLog.rotated, hmod]
    rcases Pieces.mem_all.mp hp with hp | rfl
    · obtain ⟨n, hle, hname, -⟩ := h.named p (by simpa [Pieces.others] using hp)
      exact ⟨n, by omega, hname, fun _ => by omega⟩
    · exact ⟨log.nextSeqno, by omega, rfl, fun _ => by omega⟩

/-- An append adds an entry to the layout. -/
lemma append (h : Layout W log dir ps) {op : Op F} {payload : Bytes}
    (hvec : W.toVec op = .ok payload) (hseqno : log.nextSeqno < 10 ^ 12) :
    ∃ log' dir' ps', log.append W dir Io.clean op = ((log', dir'), .ok log.nextSeqno) ∧
      Layout W log' dir' ps' ∧ log'.nextSeqno = log.nextSeqno + 1 ∧
      log'.instanceId = log.instanceId ∧ log'.vectorSpaceId = log.vectorSpaceId ∧
      Grow log.instanceId log.vectorSpaceId ps ⟨log.record op payload, op⟩ ps' ∧
      (log.currentSegmentSize < maxSegmentSize → ps' = ps.push ⟨log.record op payload, op⟩) := by
  obtain ⟨base, baseBytes, hcont, happ⟩ := OpLog.append_spec W (Or.inl h.current)
    (rfl : Io.clean.vanish = none) (Or.inl ⟨rfl, rfl⟩) (h.suppresses op)
  generalize log.append W dir Io.clean op = out at hcont happ
  obtain ⟨⟨log', dir'⟩, res⟩ := out
  have hmod : (log.nextSeqno + 1) % 2 ^ 64 = log.nextSeqno + 1 := Nat.mod_eq_of_lt (by omega)
  rcases happ with ⟨-, -, -, hblocked | ⟨e, herr⟩⟩ | ⟨payload', hvec', hres, hack, hat⟩
  · exact absurd hblocked (h.not_blocked hseqno)
  · rw [hvec] at herr
    cases herr
  · rw [hvec] at hvec'
    cases hvec'
    dsimp only at hres hack hat hcont
    obtain ⟨_, _, _, _, hlog⟩ := hack
    rcases hcont with ⟨rfl, rfl, hothers⟩ | ⟨rfl, rfl, hfull, hne, hold, hothers⟩
    · have hlayout := h.extend (e := ⟨base.record op payload, op⟩) ⟨_, _, _, _, hlog⟩ hseqno hat
        hothers
      refine ⟨log', dir', _, by rw [hres], hlayout, ?_, ?_, ?_, .extend, fun _ => rfl⟩
      · rw [hlog]
        exact hmod
      · rw [hlog]
        rfl
      · rw [hlog]
        rfl
    · have hlayout := h.rotate (e := ⟨log.record op payload, op⟩) ⟨_, _, _, _, hlog⟩ hseqno hat
        hfull hold hothers
      refine ⟨log', dir', _, by rw [hres]; rfl, hlayout, ?_, ?_, ?_,
        .rotate _ (by omega) _, fun hlt => absurd hfull (by omega)⟩
      · rw [hlog]
        exact hmod
      · rw [hlog]
        rfl
      · rw [hlog]
        rfl

end Layout

/-- Entries are appended one after the other. -/
inductive Grown (inst : InstanceId) (vectorSpaceId : ℕ) :
    Pieces F → List (Entry F) → Pieces F → Prop
  | nil (ps : Pieces F) : Grown inst vectorSpaceId ps [] ps
  | cons {ps ps' ps'' : Pieces F} {e : Entry F} {es : List (Entry F)}
    (hgrow : Grow inst vectorSpaceId ps e ps') (hgrown : Grown inst vectorSpaceId ps' es ps'') :
    Grown inst vectorSpaceId ps (e :: es) ps''

namespace Grown

variable {inst : InstanceId} {vectorSpaceId : ℕ} {ps ps' : Pieces F} {es : List (Entry F)}

/-- What holds of the open segment stays true of it if an appended entry keeps it and a new segment
has it. -/
lemma forall_pieces {P Q : Piece F → Prop} {R : Entry F → Prop}
    (h : Grown inst vectorSpaceId ps es ps') (hes : ∀ e ∈ es, R e) (hQP : ∀ p, Q p → P p)
    (hpush : ∀ p e, Q p → R e → Q (p.push e))
    (hstart : ∀ n head e, n < 256 ^ 8 → R e → Q (.start inst vectorSpaceId n head [e]))
    (hothers : ∀ p ∈ ps.others, P p) (hcur : Q ps.cur) :
    (∀ p ∈ ps'.others, P p) ∧ Q ps'.cur := by
  induction h with
  | nil ps => exact ⟨hothers, hcur⟩
  | cons hgrow _ ih =>
    have he := hes _ List.mem_cons_self
    have hes' := (List.forall_mem_cons.mp hes).2
    cases hgrow with
    | extend => exact ih hes' hothers (hpush _ _ hcur he)
    | rotate n hn head =>
      refine ih hes' (fun p hp => ?_) (hstart n head _ hn he)
      rw [Pieces.others, List.append_nil] at hp
      rcases Pieces.mem_all.mp hp with hp | rfl
      · exact hothers p hp
      · exact hQP _ hcur

/-- The first segment only gets longer. -/
lemma head (h : Grown inst vectorSpaceId ps es ps') (p : Piece F) (rest : List (Piece F))
    (hhead : ps.all = p :: rest) :
    ∃ new rest', ps'.all = { p with new := p.new ++ new } :: rest' := by
  induction h generalizing p rest with
  | nil ps => exact ⟨[], rest, by simpa using hhead⟩
  | @cons ps₀ _ _ e _ hgrow _ ih =>
    cases hgrow with
    | rotate n hn head =>
      refine ih p (rest ++ [.start inst vectorSpaceId n head [e]]) ?_
      rw [Pieces.all, hhead]
      rfl
    | extend =>
      cases hc : ps₀.closed with
      | nil =>
        rw [Pieces.all, hc, List.nil_append, List.cons.injEq] at hhead
        obtain ⟨new, rest', hnew⟩ := ih (ps₀.cur.push e) ps₀.behind (by simp [Pieces.all, Pieces.push, hc])
        refine ⟨e :: new, rest', ?_⟩
        rw [hnew, ← hhead.1]
        simp [Piece.push]
      | cons q qs =>
        rw [Pieces.all, hc, List.cons_append, List.cons.injEq] at hhead
        obtain ⟨new, rest', hnew⟩ := ih q (qs ++ ps₀.cur.push e :: ps₀.behind)
          (by simp [Pieces.all, Pieces.push, hc])
        exact ⟨new, rest', by rw [hnew, hhead.1]⟩

end Grown

/-- Append operations one after the other. -/
def OpLog.appendAll (W : Wire F) :
    List (Op F) → OpLog F → SegDir → Except FieldError (OpLog F × SegDir)
  | [], log, dir => .ok (log, dir)
  | op :: ops, log, dir =>
    match log.append W dir Io.clean op with
    | (_, .error e) => .error e
    | ((log, dir), .ok _) => appendAll W ops log dir

/-- Operations whose encodings can be written and read back. -/
def Storable (W : Wire F) (op : Op F) : Prop :=
  ∃ payload, W.toVec op = .ok payload ∧ W.fromSlice payload = .ok op ∧ payload.length < 256 ^ 4

variable {log : OpLog F}

/-- Appending operations adds their entries to the layout. -/
lemma Layout.appendAll {W : Wire F} {ops : List (Op F)} (hops : ∀ op ∈ ops, Storable W op)
    {dir : SegDir} {ps : Pieces F} (h : Layout W log dir ps)
    (hseqno : log.nextSeqno + ops.length ≤ 10 ^ 12) :
    ∃ log' dir' ps' es, log.appendAll W ops dir = .ok (log', dir') ∧ Layout W log' dir' ps' ∧
      log'.instanceId = log.instanceId ∧ log'.vectorSpaceId = log.vectorSpaceId ∧
      Grown log.instanceId log.vectorSpaceId ps es ps' ∧ (∀ e ∈ es, e.Valid W) ∧
      es.map (·.op) = ops ∧
      es.map (·.record.seqno) = List.range' log.nextSeqno ops.length ∧
      (log.currentSegmentSize < maxSegmentSize → ops ≠ [] →
        ∃ e es', es = e :: es' ∧ Grown log.instanceId log.vectorSpaceId (ps.push e) es' ps') := by
  induction ops generalizing log dir ps with
  | nil =>
    exact ⟨log, dir, ps, [], rfl, h, rfl, rfl, .nil ps, by simp, rfl, rfl,
      fun _ hne => absurd rfl hne⟩
  | cons op ops ih =>
    obtain ⟨payload, hvec, hslice, hlen⟩ := hops op List.mem_cons_self
    rw [List.length_cons] at hseqno
    obtain ⟨log₁, dir₁, ps₁, happ, hlayout, hnext, hinst, hvsid, hgrow, hsize⟩ :=
      h.append hvec (by omega)
    obtain ⟨log₂, dir₂, ps₂, es, happ₂, hlayout₂, hinst₂, hvsid₂, hgrown, hvalid, hop, hrange, -⟩ :=
      ih (List.forall_mem_cons.mp hops).2 hlayout (by omega)
    rw [hinst, hvsid] at hgrown
    refine ⟨log₂, dir₂, ps₂, ⟨log.record op payload, op⟩ :: es, ?_, hlayout₂, hinst₂.trans hinst,
      hvsid₂.trans hvsid, .cons hgrow hgrown, ?_, ?_, ?_, ?_⟩
    · simp only [OpLog.appendAll, happ, happ₂]
    · exact List.forall_mem_cons.mpr
        ⟨⟨hlen, by simp only [OpLog.record]; omega, hslice, rfl⟩, hvalid⟩
    · simp [hop]
    · rw [List.map_cons, hrange, hnext, List.length_cons, List.range'_succ]
      rfl
    · intro hlt _
      rw [hsize hlt] at hgrown
      exact ⟨_, es, rfl, hgrown⟩

/-! ## Replaying the layout -/

/-- The records of a segment. -/
def Piece.recs (p : Piece F) : List (ℕ × Op F) :=
  (p.had ++ p.new).map fun e => (e.record.seqno, e.op)

/-- The segment can be read: behind a header of the log's lineage and valid records there is at most
a torn one, and nothing was appended behind that. -/
def Piece.Reads (W : Wire F) (vectorSpaceId : ℕ) (p : Piece F) : Prop :=
  ∃ version first hdr tail, ChainedHeader version first hdr ∧
    (segmentVectorSpaceId hdr).all (· = vectorSpaceId) ∧ (∀ e ∈ p.had ++ p.new, e.Valid W) ∧
    p.old = hdr ++ (encodeAll W (records p.had) ++ tail) ∧
    Records W version tail [] ∧ (tail = [] ∨ p.new = [])

/-- The segment can be read and continued. -/
def Piece.Whole (W : Wire F) (vectorSpaceId : ℕ) (p : Piece F) : Prop :=
  ∃ version first hdr, ChainedHeader version first hdr ∧
    (segmentVectorSpaceId hdr).all (· = vectorSpaceId) ∧ (∀ e ∈ p.had ++ p.new, e.Valid W) ∧
    p.old = hdr ++ encodeAll W (records p.had)

namespace Piece

variable {W : Wire F} {vectorSpaceId : ℕ} {p : Piece F}

lemma Whole.reads (h : p.Whole W vectorSpaceId) : p.Reads W vectorSpaceId := by
  obtain ⟨version, first, hdr, hhdr, hstamp, hvalid, hold⟩ := h
  exact ⟨version, first, hdr, [], hhdr, hstamp, hvalid, by simpa using hold, .done (by simp),
    Or.inl rfl⟩

lemma Whole.push (h : p.Whole W vectorSpaceId) {e : Entry F} (he : e.Valid W) :
    (p.push e).Whole W vectorSpaceId := by
  obtain ⟨version, first, hdr, hhdr, hstamp, hvalid, hold⟩ := h
  refine ⟨version, first, hdr, hhdr, hstamp, fun e' he' => ?_, hold⟩
  have hmem : e' ∈ p.had ++ p.new ∨ e' = e := by
    simpa [Piece.push, or_assoc] using he'
  rcases hmem with hmem | rfl
  · exact hvalid e' hmem
  · exact he

lemma Whole.start {inst : InstanceId} {n : ℕ} (hn : n < 256 ^ 8) (hvsid : vectorSpaceId < 256 ^ 8)
    (head : ChainHash) {new : List (Entry F)} (hnew : ∀ e ∈ new, e.Valid W) :
    (Piece.start inst vectorSpaceId n head new).Whole W vectorSpaceId := by
  refine ⟨3, n, _, .v3 hn head vectorSpaceId, ?_, hnew, by simp [Piece.start]⟩
  have hstamp := segmentVectorSpaceId_headerV3 n head vectorSpaceId []
  rw [List.append_nil, beNat_beBytes hvsid] at hstamp
  simp [hstamp]

lemma Reads.segmentFile (h : p.Reads W vectorSpaceId) : SegmentFile W (p.bytes W) p.recs := by
  obtain ⟨version, first, hdr, tail, hhdr, -, hvalid, hold, htail, htail'⟩ := h
  rcases htail' with rfl | hnew
  · have hbytes : p.bytes W = hdr ++ encodeAll W (records (p.had ++ p.new)) := by
      simp [bytes, hold]
    rw [hbytes]
    exact hhdr.segmentFile_encodeAll hvalid
  · have hbytes : p.bytes W = hdr ++ (encodeAll W (records p.had) ++ tail) := by
      simp [bytes, hold, hnew]
    have hall := Records.encodeAll hhdr.two_le
      (List.forall_mem_append.mp hvalid).1 htail
    rw [hbytes, recs, hnew, List.append_nil]
    rw [List.append_nil] at hall
    exact hhdr.segmentFile hall

lemma not_foreign_of_header {version first : ℕ} {hdr : Bytes}
    (hhdr : ChainedHeader version first hdr)
    (hstamp : (segmentVectorSpaceId hdr).all (· = vectorSpaceId)) (bs : Bytes) {view : LogView}
    (hview : view.vectorSpaceId = vectorSpaceId) : isForeign view (hdr ++ bs) = false := by
  rw [isForeign, hhdr.vectorSpaceId_append]
  cases hv : segmentVectorSpaceId hdr with
  | none => rfl
  | some v =>
    have heq : v = vectorSpaceId := by simpa [hv] using hstamp
    simp [hview, heq]

lemma Reads.not_foreign (h : p.Reads W vectorSpaceId) (view : LogView)
    (hview : view.vectorSpaceId = vectorSpaceId) : isForeign view (p.bytes W) = false := by
  obtain ⟨version, first, hdr, tail, hhdr, hstamp, -, hold, -⟩ := h
  rw [bytes, hold, List.append_assoc]
  exact not_foreign_of_header hhdr hstamp _ hview

end Piece

/-- The entries stand in the segments in the order they were appended, if no segment stands behind
the open one. -/
lemma Grown.flatMap_recs {inst : InstanceId} {vectorSpaceId : ℕ} {ps ps' : Pieces F}
    {es : List (Entry F)} (h : Grown inst vectorSpaceId ps es ps') (hbehind : ps.behind = []) :
    ps'.all.flatMap Piece.recs =
      ps.all.flatMap Piece.recs ++ es.map fun e => (e.record.seqno, e.op) := by
  induction h with
  | nil ps => simp
  | cons hgrow _ ih =>
    cases hgrow with
    | extend =>
      rw [ih hbehind]
      simp [Pieces.all, Pieces.push, Piece.push, Piece.recs, hbehind]
    | rotate =>
      rw [ih rfl]
      simp [Pieces.all, Piece.start, Piece.recs]

/-- The entries stand in the segments. -/
lemma Grown.perm_recs {inst : InstanceId} {vectorSpaceId : ℕ} {ps ps' : Pieces F}
    {es : List (Entry F)} (h : Grown inst vectorSpaceId ps es ps') :
    (ps'.all.flatMap Piece.recs).Perm
      (ps.all.flatMap Piece.recs ++ es.map fun e => (e.record.seqno, e.op)) := by
  induction h with
  | nil ps => simp
  | @cons ps _ _ e es hgrow _ ih =>
    refine ih.trans ?_
    rw [List.map_cons, List.append_cons]
    refine List.Perm.append_right _ ?_
    cases hgrow with
    | extend =>
      simp only [Pieces.all, Pieces.push, List.flatMap_append, List.flatMap_cons, Piece.recs,
        Piece.push, List.map_append, List.append_assoc]
      exact List.Perm.append_left _ (List.Perm.append_left _ (List.Perm.append_left _
        List.perm_append_comm))
    | rotate => simp [Pieces.all, Piece.start, Piece.recs]

/-- The records of the segment with a name. -/
def recsOf (pieces : List (Piece F)) (name : FileName) : List (ℕ × Op F) :=
  ((pieces.find? (·.name = name)).map Piece.recs).getD []

lemma recsOf_name {pieces : List (Piece F)} (hnodup : (pieces.map (·.name)).Nodup) {p : Piece F}
    (hp : p ∈ pieces) : recsOf pieces p.name = p.recs := by
  induction pieces with
  | nil => simp at hp
  | cons q pieces ih =>
    rw [List.map_cons, List.nodup_cons] at hnodup
    by_cases hq : q.name = p.name
    · rcases List.mem_cons.mp hp with rfl | hp
      · simp [recsOf]
      · exact absurd (hq ▸ List.mem_map_of_mem hp) hnodup.1
    · have hp' : p ∈ pieces := (List.mem_cons.mp hp).resolve_left fun h => hq (h ▸ rfl)
      simpa [recsOf, hq] using ih hnodup.2 hp'

/-- Replay of readable segments of one writer sorts their records. -/
lemma replay_pieces_sorted {W : Wire F} (view : LogView) {dir : SegDir} {pieces : List (Piece F)}
    (hlisted : collectAllSegments dir = pieces.map (·.name))
    (hread : ∀ p ∈ pieces, dir.read p.name = some (p.bytes W))
    (hreads : ∀ p ∈ pieces, p.Reads W view.vectorSpaceId) {inst : InstanceId}
    (hinst : inst < 2 ^ 32) (hnamed : ∀ p ∈ pieces, ∃ n, p.name = segmentPath inst n) :
    ∃ r, (replayCertified W view none dir).result = .ok r ∧ r.handed =
      ((carryForward inst 0 (pieces.flatMap Piece.recs)).insertionSort mergeLE).map Stamped.handed := by
  have hnodup : (pieces.map (·.name)).Nodup := by
    rw [← hlisted]
    exact (collectAllSegments_sorted dir).imp fun h => h.ne
  have hadmitted : admittedSegments view dir = pieces.map (·.name) := by
    rw [admittedSegments, hlisted]
    refine List.filter_eq_self.mpr fun name hname => ?_
    obtain ⟨p, hp, rfl⟩ := List.mem_map.mp hname
    simp [hread p hp, (hreads p hp).not_foreign view rfl]
  have hone : ∀ name ∈ pieces.map (·.name), instOf name = inst := by
    intro name hname
    obtain ⟨p, hp, rfl⟩ := List.mem_map.mp hname
    obtain ⟨n, hn⟩ := hnamed p hp
    rw [hn, instOf_segmentPath hinst]
  have hflat : (pieces.map (·.name)).flatMap (recsOf pieces) = pieces.flatMap Piece.recs := by
    rw [List.flatMap_map]
    exact List.flatMap_congr fun p hp => recsOf_name hnodup hp
  obtain ⟨m, hresult, hstamper⟩ := replayCertified_collected W view none dir (recsOf pieces)
    (by
      rw [hadmitted]
      intro name hname
      obtain ⟨p, hp, rfl⟩ := List.mem_map.mp hname
      exact ⟨_, hread p hp, by rw [recsOf_name hnodup hp]; exact (hreads p hp).segmentFile⟩)
    (by
      intro name hname hnot
      rw [hadmitted, ← hlisted] at hnot
      exact absurd hname hnot)
  rw [visibleSegments_none, hadmitted] at hstamper
  have hwriter : writerOps (recsOf pieces) (pieces.map (·.name)) inst = pieces.flatMap Piece.recs := by
    rw [writerOps, List.filter_eq_self.mpr fun name hname => by simpa using hone name hname, hflat]
  have hbuf : m.stamper.buf = carryForward inst 0 (pieces.flatMap Piece.recs) := by
    have hfilter := Stamper.pushAll_filter (Stamper.empty (F := F))
      (segmentOps (recsOf pieces) (pieces.map (·.name))) inst
    rw [← hstamper, segmentOps_filter, hwriter] at hfilter
    have hall : m.stamper.buf.filter (·.inst = inst) = m.stamper.buf := by
      refine List.filter_eq_self.mpr fun a ha => ?_
      have hmem : a.handed ∈ m.stamper.buf.map Stamped.handed := List.mem_map_of_mem ha
      rw [hstamper, Stamper.pushAll_handed] at hmem
      obtain ⟨name, hname, hr⟩ := List.mem_flatMap.mp hmem
      obtain ⟨r, -, heq⟩ := List.mem_map.mp hr
      have hinst' : instOf name = a.inst := congrArg Prod.fst heq
      simpa [← hinst'] using hone name hname
    rw [hall] at hfilter
    exact hfilter
  exact ⟨m.finish none, hresult, by rw [← hbuf]; rfl⟩

section

variable {W : Wire F} (view : LogView) {dir : SegDir} {pieces : List (Piece F)}
  (hlisted : collectAllSegments dir = pieces.map (·.name))
  (hread : ∀ p ∈ pieces, dir.read p.name = some (p.bytes W))
  (hreads : ∀ p ∈ pieces, p.Reads W view.vectorSpaceId) {inst : InstanceId}
  (hinst : inst < 2 ^ 32) (hnamed : ∀ p ∈ pieces, ∃ n, p.name = segmentPath inst n)

include hlisted hread hreads hinst hnamed

/-- Replay of readable segments of one writer hands on their records in order. -/
lemma replay_pieces (hseqno : ((pieces.flatMap Piece.recs).map Prod.fst).Pairwise (· < ·)) :
    ∃ r, (replayCertified W view none dir).result = .ok r ∧
      r.handed.map Prod.snd = pieces.flatMap Piece.recs := by
  obtain ⟨r, hr, hhanded⟩ := replay_pieces_sorted view hlisted hread hreads hinst hnamed
  refine ⟨r, hr, ?_⟩
  rw [hhanded, (carryForward_pairwise inst 0 hseqno).insertionSort_eq, carryForward_handed,
    List.map_map]
  exact List.map_id _

/-- Replay of readable segments of one writer hands on their records by their sequence numbers if no
clock is ahead of the first one. -/
lemma replay_pieces_latest {first : ℕ × Op F} {rest sorted : List (ℕ × Op F)}
    (hfirst : pieces.flatMap Piece.recs = first :: rest)
    (hlatest : ∀ r ∈ rest, effectiveTs 0 r.2 ≤ effectiveTs 0 first.2)
    (hperm : sorted.Perm (pieces.flatMap Piece.recs))
    (hseqno : (sorted.map Prod.fst).Pairwise (· < ·)) :
    ∃ r, (replayCertified W view none dir).result = .ok r ∧ r.handed.map Prod.snd = sorted := by
  obtain ⟨r, hr, hhanded⟩ := replay_pieces_sorted view hlisted hread hreads hinst hnamed
  refine ⟨r, hr, ?_⟩
  rw [hhanded, hfirst, carryForward_latest hlatest, ← hfirst,
    insertionSort_stamped hperm hseqno, List.map_map, List.map_map]
  exact List.map_id _

end

/-- Replay of the layout hands on the records of the segments in order. -/
lemma Layout.replay_handed {W : Wire F} {dir : SegDir} {ps : Pieces F} (h : Layout W log dir ps)
    (hreads : ∀ p ∈ ps.all, p.Reads W log.vectorSpaceId) (hinst : log.instanceId < 2 ^ 32)
    (hseqno : ((ps.all.flatMap Piece.recs).map Prod.fst).Pairwise (· < ·)) (older : FileName → Bool) :
    ∃ r, (log.replay W dir older).2.result = .ok r ∧
      r.handed.map Prod.snd = ps.all.flatMap Piece.recs :=
  replay_pieces (log.view older) h.listed (fun _ hp => h.read hp) hreads hinst
    (fun p hp => (h.named p hp).imp fun _ hn => hn.2.1) hseqno

/-- A segment to which nothing was appended, cut off anywhere behind its header. -/
structure Piece.Cut (W : Wire F) (vectorSpaceId : ℕ) (hdr tail : Bytes) (p : Piece F) : Prop where
  header : ∃ version first, ChainedHeader version first hdr ∧
    (tail.length < 4 ∨ readFrame version tail = .torn)
  stamp : (segmentVectorSpaceId hdr).all (· = vectorSpaceId)
  valid : ∀ e ∈ p.had, e.Valid W
  old : p.old = hdr ++ (encodeAll W (records p.had) ++ tail)
  new : p.new = []

namespace Piece.Cut

variable {W : Wire F} {vectorSpaceId : ℕ} {hdr tail : Bytes} {p : Piece F}

lemma reads (h : p.Cut W vectorSpaceId hdr tail) : p.Reads W vectorSpaceId := by
  obtain ⟨version, first, hhdr, htail⟩ := h.header
  exact ⟨version, first, hdr, tail, hhdr, h.stamp, by simpa [h.new] using h.valid, h.old,
    htail.elim .done .torn, Or.inr h.new⟩

/-- A segment that was cut between two records can be continued. -/
lemma whole (h : p.Cut W vectorSpaceId hdr []) : p.Whole W vectorSpaceId := by
  obtain ⟨version, first, hhdr, -⟩ := h.header
  exact ⟨version, first, hdr, hhdr, h.stamp, by simpa [h.new] using h.valid,
    by simpa using h.old⟩

/-- The beginning of a record goes if it holds a complete length field. -/
lemma file (h : p.Cut W vectorSpaceId hdr tail) (head : ChainHash) :
    (replaySegmentInventoried W p.name p.old 0 head).file =
      hdr ++ (encodeAll W (records p.had) ++ if tail.length < 4 then tail else []) := by
  obtain ⟨version, first, hhdr, htail⟩ := h.header
  rw [h.old]
  exact (replaySegment_tail W p.name hhdr h.valid htail head).2.1

end Piece.Cut

/-- What replay leaves of a segment to which nothing was appended. -/
def Piece.repaired (W : Wire F) (p : Piece F) : Piece F :=
  { p with old := (replaySegmentInventoried W p.name p.old 0 zeroHash).file }

/-- What replay leaves of all segments. -/
def Pieces.repaired (W : Wire F) (ps : Pieces F) : Pieces F :=
  ⟨ps.closed.map (·.repaired W), ps.cur.repaired W, ps.behind.map (·.repaired W)⟩

lemma Pieces.repaired_all (W : Wire F) (ps : Pieces F) :
    (ps.repaired W).all = ps.all.map (·.repaired W) := by
  simp [repaired, all]

lemma Pieces.repaired_recs (W : Wire F) (ps : Pieces F) :
    (ps.repaired W).all.flatMap Piece.recs = ps.all.flatMap Piece.recs := by
  rw [repaired_all, List.flatMap_map]
  rfl

lemma Piece.Cut.repaired {W : Wire F} {vectorSpaceId : ℕ} {hdr tail : Bytes} {p : Piece F}
    (h : p.Cut W vectorSpaceId hdr tail) :
    (p.repaired W).Cut W vectorSpaceId hdr (if tail.length < 4 then tail else []) := by
  obtain ⟨version, first, hhdr, htail⟩ := h.header
  refine ⟨⟨version, first, hhdr, Or.inl ?_⟩, h.stamp, h.valid, h.file zeroHash, h.new⟩
  split
  · assumption
  · simp

/-- Replay repairs every segment of the layout. -/
lemma Layout.replay {W : Wire F} {dir : SegDir} {ps : Pieces F} (h : Layout W log dir ps)
    (hcut : ∀ p ∈ ps.all, ∃ hdr tail, p.Cut W log.vectorSpaceId hdr tail)
    (hpos : log.currentSegment.pos = none ∨ (ps.cur.repaired W).old = ps.cur.old)
    (hseqno : ((ps.all.flatMap Piece.recs).map Prod.fst).Pairwise (· < ·))
    (hinst : log.instanceId < 2 ^ 32) (older : FileName → Bool) :
    Layout W (log.replay W dir older).1 (log.replay W dir older).2.dir (ps.repaired W) := by
  have hreads : ∀ p ∈ ps.all, p.Reads W log.vectorSpaceId := fun p hp => by
    obtain ⟨hdr, tail, hp⟩ := hcut p hp
    exact hp.reads
  obtain ⟨r, hresult, -⟩ := h.replay_handed hreads hinst hseqno older
  obtain ⟨_, _, _, _, hlog⟩ := log.exists_afterReplay_eq
    (replayCertified W (log.view older) none dir)
  obtain ⟨m, hloop, hdir, -⟩ := exists_loop_of_replayCertified W hresult
  have hnodup : (collectAllSegments dir).Nodup :=
    (collectAllSegments_sorted dir).imp fun h => h.ne
  have hread : ∀ p ∈ ps.all, m.dir.read p.name = some ((p.repaired W).bytes W) := by
    intro p hp
    obtain ⟨hdr, tail, hp'⟩ := hcut p hp
    have hforeign := hp'.reads.not_foreign (log.view older) rfl
    obtain ⟨head, -, hhead⟩ := Merge.loop_read_file W _ hforeign hnodup
      (by rw [h.listed]; exact List.mem_map_of_mem hp) (h.read hp) hloop
    have hbytes : p.bytes W = p.old := by simp [Piece.bytes, hp'.new]
    have hbytes' : (p.repaired W).bytes W = (p.repaired W).old := by
      simp [Piece.bytes, Piece.repaired, hp'.new]
    rw [hhead, hbytes, hp'.file, hbytes', Piece.repaired, hp'.file]
  have hsome : ∀ name, (m.dir.read name).isSome = (dir.read name).isSome := by
    intro name
    by_cases hname : name ∈ collectAllSegments dir
    · rw [h.listed] at hname
      obtain ⟨p, hp, rfl⟩ := List.mem_map.mp hname
      rw [hread p hp, h.read hp]
      rfl
    · have hkept := (Merge.start dir []).loop_read_of_notMem W (log.view older) (fun _ => none) hname
      rw [hloop] at hkept
      rw [hkept]
      rfl
  simp only [OpLog.replay, hlog]
  rw [hdir]
  have hcur : ps.cur ∈ ps.all := Pieces.mem_all.mpr (Or.inr rfl)
  refine ⟨?_, ?_, ⟨h.current.linked, ?_, ?_⟩, h.path, ?_, h.suppresses⟩
  · rw [h.listed_of_isSome _ hsome, Pieces.repaired_all, List.map_map]
    rfl
  · intro p hp
    rw [Pieces.others, Pieces.repaired, ← List.map_append] at hp
    obtain ⟨q, hq, rfl⟩ := List.mem_map.mp hp
    exact hread q (Pieces.mem_all.mpr (Or.inl hq))
  · rw [h.path]
    exact hread ps.cur hcur
  · rcases hpos with hpos | hpos
    · exact Or.inl hpos
    · have hsame : (ps.cur.repaired W).bytes W = ps.cur.bytes W :=
        congrArg (· ++ encodeAll W (records ps.cur.new)) hpos
      exact hsame ▸ h.current.pos
  · intro p hp
    rw [Pieces.repaired_all] at hp
    obtain ⟨q, hq, rfl⟩ := List.mem_map.mp hp
    exact h.named q hq

/-- A larger next sequence number keeps the layout. -/
lemma Layout.setNextSeqno {W : Wire F} {dir : SegDir} {ps : Pieces F} (h : Layout W log dir ps)
    (seqno : ℕ) : Layout W (log.setNextSeqno seqno) dir ps := by
  rw [OpLog.setNextSeqno_eq]
  refine ⟨h.listed, h.others, ⟨h.current.linked, h.current.read, h.current.pos⟩, h.path, ?_,
    h.suppresses⟩
  intro p hp
  obtain ⟨n, hle, hname, hlt⟩ := h.named p hp
  exact ⟨n, le_max_of_le_left hle, hname, fun hfull => lt_max_of_lt_left (hlt hfull)⟩

end ChittaField
