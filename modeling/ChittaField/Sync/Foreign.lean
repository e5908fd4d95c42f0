import ChittaField.Sync.Stream

/-!
# Foreign sync

A sync reads what peers appended to their segments since the last one (`syncForeignCollect`), and
later hands the collected operations on to be applied (`syncForeignApply`).  The collect advances
the offset of each segment as soon as it has read it, but its operations only become pending when
all segments have been read.

`sync_exactly_once` says when every record is handed on exactly once: in every run in which no read
fails behind one of the same collect that yields a record.
-/

namespace ChittaField

variable {F : Type}

/-! ## Collect and apply -/

/-- Operations that were collected and not yet applied. -/
structure PendingForeign (F : Type) where
  ops : List (InstanceId × Op F)
  coverage : InstanceId → Option ℕ

/-- The part of a field that syncing reads and writes. -/
structure SyncState (F : Type) where
  seenOffsets : FileName → Option ℕ
  pendingForeign : PendingForeign F
  walCoverage : InstanceId → Option ℕ

/-- A coverage vector raised to another one. -/
def mergeCoverage (coverage fresh : InstanceId → Option ℕ) : InstanceId → Option ℕ := fun inst =>
  match fresh inst with
  | none => coverage inst
  | some n => some (max ((coverage inst).getD 0) n)

/-- The loop of a collect: the offsets, the operations and their coverage so far. -/
structure Collecting (F : Type) where
  seen : FileName → Option ℕ
  ops : List (InstanceId × Op F)
  freshCoverage : InstanceId → Option ℕ

/-- Read a segment on from its offset. -/
def readOn (W : Wire F) (seen : FileName → Option ℕ) (read : FileName → Except FieldError Bytes)
    (name : FileName) : Except FieldError (ℕ × List (ℕ × Op F)) :=
  match read name with
  | .error e => .error e
  | .ok file => replayFromOffset W name file ((seen name).getD 0)

/-- Read the segments one after the other, up to the first error. -/
def collectLoop (W : Wire F) (read : FileName → Except FieldError Bytes) :
    List FileName → Collecting F → Collecting F × Option FieldError
  | [], c => (c, none)
  | name :: names, c =>
    match readOn W c.seen read name with
    | .error e => (c, some e)
    | .ok (newOffset, rs) =>
      collectLoop W read names
        { seen := Function.update c.seen name (some newOffset)
          ops := c.ops ++ rs.map fun r => (instOf name, r.2)
          freshCoverage := rs.foldl (fun c r => raiseCoverage c (instOf name) r.1)
            c.freshCoverage }

/-- Collect what the peers appended.  `foreignSegs` is the listing of their segments, and `read`
what reading each of them shows.  An error drops the operations that were read before it, but their
offsets stay. -/
def syncForeignCollect (W : Wire F) (foreignSegs : Except FieldError (List FileName))
    (read : FileName → Except FieldError Bytes) (s : SyncState F) :
    SyncState F × Except FieldError ℕ :=
  match foreignSegs with
  | .error e => (s, .error e)
  | .ok segs =>
    match collectLoop W read segs ⟨s.seenOffsets, [], fun _ => none⟩ with
    | (c, some e) => ({ s with seenOffsets := c.seen }, .error e)
    | (c, none) =>
      let pending : PendingForeign F :=
        ⟨s.pendingForeign.ops ++ c.ops, mergeCoverage s.pendingForeign.coverage c.freshCoverage⟩
      ({ s with seenOffsets := c.seen, pendingForeign := pending }, .ok pending.ops.length)

/-- Hand the pending operations on to be applied. -/
def syncForeignApply (s : SyncState F) : SyncState F × List (InstanceId × Op F) :=
  if s.pendingForeign.ops.isEmpty then (s, [])
  else
    ({ s with
       pendingForeign := ⟨[], fun _ => none⟩
       walCoverage := mergeCoverage s.walCoverage s.pendingForeign.coverage },
      s.pendingForeign.ops)

/-! ## Peers that write -/

/-- The segments of the peers and what the peers write into them. -/
structure Peers (W : Wire F) where
  names : List FileName
  nodup : names.Nodup
  stream : FileName → Stream W

/-- How much the peers have written, and what a field has synced and applied of it. -/
structure World (F : Type) where
  written : FileName → ℕ
  sync : SyncState F
  applied : List (InstanceId × Op F)

/-- What happens: a peer writes some more bytes, or the field collects or applies. -/
inductive SyncStep where
  | write (name : FileName) (n : ℕ)
  | collect (foreignSegs : Except FieldError (List FileName))
      (read : FileName → Except FieldError Bytes)
  | apply

/-- One step. -/
def World.step (W : Wire F) (w : World F) : SyncStep → World F
  | .write name n => { w with written := Function.update w.written name (w.written name + n) }
  | .collect foreignSegs read => { w with sync := (syncForeignCollect W foreignSegs read w.sync).1 }
  | .apply =>
    { w with
      sync := (syncForeignApply w.sync).1
      applied := w.applied ++ (syncForeignApply w.sync).2 }

/-- A run. -/
def World.run (W : Wire F) (w : World F) (steps : List SyncStep) : World F :=
  steps.foldl (World.step W) w

/-- The magic of a file is not that of a segment. -/
def BadMagic (file : Bytes) : Prop :=
  ∃ magic bs, readExact 8 file = some (magic, bs) ∧ segmentVersion magic = none

namespace Peers

variable {W : Wire F} (P : Peers W)

/-- What reading a segment can show: an error, what its peer had written at some time, or something
that is no segment at all. -/
def Shows (w : World F) (name : FileName) (shown : Except FieldError Bytes) : Prop :=
  (∃ e, shown = .error e) ∨ (∃ n ≤ w.written name, shown = .ok ((P.stream name).view n)) ∨
    ∃ file, shown = .ok file ∧ BadMagic file

/-- A step that can happen. -/
def Possible (w : World F) : SyncStep → Prop
  | .collect (.ok segs) read => segs.Nodup ∧ ∀ name ∈ segs, name ∈ P.names ∧
      P.Shows w name (read name)
  | _ => True

/-- In a collect no read fails behind one that yields records, and a file that has lost its magic
does not pass for records of a V1 segment. -/
def Undropped (W : Wire F) (w : World F) : SyncStep → Prop
  | .collect (.ok segs) read =>
    (∀ before name after e, segs = before ++ name :: after →
      readOn W w.sync.seenOffsets read name = .error e →
        ∀ b ∈ before, ∀ r, readOn W w.sync.seenOffsets read b = .ok r → r.2 = []) ∧
    ∀ name ∈ segs, ∀ file, read name = .ok file → BadMagic file →
      ∀ off, w.sync.seenOffsets name = some off → off ≠ 0 → (follow W 1 (file.drop off)).2 = []
  | _ => True

/-- The records of all segments from one position up to another, as they are handed on. -/
def handed (start pos : FileName → ℕ) : List (InstanceId × Op F) :=
  P.names.flatMap fun name =>
    ((P.stream name).recs (start name) (pos name)).map fun r => (instOf name, r.2)

/-- The offset of a segment stands behind its first `pos` records. -/
def SeenAt (seen : FileName → Option ℕ) (name : FileName) (pos : ℕ) : Prop :=
  (seen name).getD 0 = (P.stream name).offset pos ∨ (seen name).getD 0 = 0 ∧ pos = 0

/-- A field just opened: nothing is collected, and every segment ends behind its first `start`
records, where its offset stands, or is still empty. -/
structure Opened (start : FileName → ℕ) (w : World F) : Prop where
  applied : w.applied = []
  pending : w.sync.pendingForeign.ops = []
  start_le : ∀ name ∈ P.names, start name ≤ (P.stream name).entries.length
  written : ∀ name ∈ P.names, w.written name = (P.stream name).offset (start name) ∨
    w.written name = 0 ∧ start name = 0
  seen : ∀ name ∈ P.names, (w.sync.seenOffsets name).getD 0 = w.written name

/-- The records marked as seen since the opening are those applied or pending. -/
structure Synced (start pos : FileName → ℕ) (w : World F) : Prop where
  seen : ∀ name ∈ P.names, P.SeenAt w.sync.seenOffsets name (pos name)
  start_le : ∀ name ∈ P.names, start name ≤ pos name
  le_complete : ∀ name ∈ P.names, pos name ≤ (P.stream name).complete (w.written name)
  ops : (w.applied ++ w.sync.pendingForeign.ops).Perm (P.handed start pos)

/-! ## One read -/

lemma not_badMagic_view (s : Stream W) (n : ℕ) : ¬ BadMagic (s.view n) := by
  rintro ⟨magic, bs, hread, hversion⟩
  by_cases hn : 8 ≤ n
  · obtain ⟨magic', bs', hread', hversion', -⟩ := s.readExact_view hn
    rw [hread] at hread'
    cases hread'
    rw [hversion] at hversion'
    cases hversion'
  · rw [readExact, if_neg (by rw [Stream.view, List.length_take]; omega)] at hread
    cases hread

variable {read : FileName → Except FieldError Bytes} {w : World F}

/-- A read fails, or it yields the records behind the position that it shows complete. -/
lemma readOn_shown {name : FileName} {seen : FileName → Option ℕ} {pos : ℕ}
    (hseen : P.SeenAt seen name pos) (hle : pos ≤ (P.stream name).complete (w.written name)) (hshows : P.Shows w name (read name))
    (hgarbled : ∀ file, read name = .ok file → BadMagic file →
      ∀ off, seen name = some off → off ≠ 0 → (follow W 1 (file.drop off)).2 = []) :
    (∃ e, readOn W seen read name = .error e) ∨
      ∃ off pos', readOn W seen read name = .ok (off, (P.stream name).recs pos pos') ∧
        (off = (P.stream name).offset pos' ∨ off = 0 ∧ pos' = 0) ∧ pos ≤ pos' ∧
        pos' ≤ (P.stream name).complete (w.written name) ∧
        ∀ n, read name = .ok ((P.stream name).view n) →
          pos' = max pos ((P.stream name).complete n) := by
  rcases hshows with ⟨e, he⟩ | ⟨n, hn, hview⟩ | ⟨file, hfile, hbad⟩
  · exact Or.inl ⟨e, by simp only [readOn, he]⟩
  · obtain ⟨off, hreplay, hoff⟩ := (P.stream name).replayFromOffset_view name n hseen
    refine Or.inr ⟨off, max pos ((P.stream name).complete n), ?_, hoff, le_max_left _ _,
      max_le hle ((P.stream name).complete_mono hn), fun m hm => ?_⟩
    · simp only [readOn, hview, hreplay]
    · rw [hview] at hm
      rw [(P.stream name).complete_congr (Except.ok.inj hm)]
  · obtain ⟨magic, bs, hread, hversion⟩ := hbad
    by_cases hzero : (seen name).getD 0 = 0
    · refine Or.inl ⟨.manifest ("bad segment magic in " ++ String.ofList name), ?_⟩
      simp only [readOn, hfile, replayFromOffset, hread, hzero, if_true, hversion]
    · -- the file passes for a V1 segment, and shows nothing
      have hsome : seen name = some ((seen name).getD 0) := by
        cases h : seen name with
        | none => simp [h] at hzero
        | some off => rfl
      have hnil := hgarbled file hfile ⟨magic, bs, hread, hversion⟩ _ hsome hzero
      have hfollow : follow W 1 (file.drop ((seen name).getD 0)) = (0, []) := by
        rw [follow_eq] at hnil ⊢
        cases hframe : readFrame 1 (file.drop ((seen name).getD 0)) with
        | eof => rfl
        | torn => rfl
        | frame f rest =>
          simp only [hframe] at hnil ⊢
          by_cases hcrc : f.computedCrc W 1 = f.storedCrc
          · cases hop : W.fromSlice f.payload with
            | error e => simp [hcrc]
            | ok op => simp [hcrc, hop] at hnil
          · simp [hcrc]
      refine Or.inr ⟨(seen name).getD 0, pos, ?_, hseen, le_rfl, hle, fun n hn => ?_⟩
      · simp only [readOn, hfile, replayFromOffset, hread, hzero, if_false, hversion,
          Option.getD_none, hfollow, List.map_nil, Stream.recs_self, Nat.add_zero]
      · rw [hfile] at hn
        exact absurd ⟨magic, bs, hread, hversion⟩
          (Except.ok.inj hn ▸ not_badMagic_view (P.stream name) n)

/-! ## The loop of a collect -/

/-- The records that reading some segments yields, as they are handed on. -/
def yielded (segs : List FileName) (pos pos' : FileName → ℕ) : List (InstanceId × Op F) :=
  segs.flatMap fun name =>
    ((P.stream name).recs (pos name) (pos' name)).map fun r => (instOf name, r.2)

variable {segs : List FileName}

lemma yielded_congr {pos pos' pos₁ pos₁' : FileName → ℕ}
    (h : ∀ name ∈ segs, pos name = pos₁ name ∧ pos' name = pos₁' name) :
    P.yielded segs pos pos' = P.yielded segs pos₁ pos₁' := by
  unfold yielded
  refine List.flatMap_congr fun name hname => ?_
  rw [(h name hname).1, (h name hname).2]

/-- What a collect has read when its loop ends: the segments `done`, each up to the position
`pos'`. -/
structure Read (w : World F) (read : FileName → Except FieldError Bytes)
    (done : List FileName) (pos pos' : FileName → ℕ) (c c' : Collecting F) : Prop where
  seen : ∀ name ∈ P.names, P.SeenAt c'.seen name (pos' name)
  other : ∀ name, name ∉ done → pos' name = pos name
  le : ∀ name ∈ done, pos name ≤ pos' name ∧
    pos' name ≤ (P.stream name).complete (w.written name)
  yields : ∀ name ∈ done, ∃ off, readOn W w.sync.seenOffsets read name =
    .ok (off, (P.stream name).recs (pos name) (pos' name))
  shown : ∀ name ∈ done, ∀ n, read name = .ok ((P.stream name).view n) →
    pos' name = max (pos name) ((P.stream name).complete n)
  ops : c'.ops = c.ops ++ P.yielded done pos pos'

lemma collectLoop_read (hnodup : segs.Nodup)
    (hsegs : ∀ name ∈ segs, name ∈ P.names ∧ P.Shows w name (read name))
    (hgarbled : ∀ name ∈ segs, ∀ file, read name = .ok file → BadMagic file →
      ∀ off, w.sync.seenOffsets name = some off → off ≠ 0 → (follow W 1 (file.drop off)).2 = [])
    {pos : FileName → ℕ}
    (hle : ∀ name ∈ P.names, pos name ≤ (P.stream name).complete (w.written name))
    {c : Collecting F} (hseen : ∀ name ∈ P.names, P.SeenAt c.seen name (pos name))
    (hsame : ∀ name ∈ segs, c.seen name = w.sync.seenOffsets name) :
    ∃ done pos' c', P.Read w read done pos pos' c c' ∧
      (done = segs ∧ collectLoop W read segs c = (c', none) ∨
        ∃ e name after, segs = done ++ name :: after ∧
          readOn W w.sync.seenOffsets read name = .error e ∧
          collectLoop W read segs c = (c', some e)) := by
  induction segs generalizing pos c with
  | nil =>
    refine ⟨[], pos, c, ⟨hseen, fun _ _ => rfl, by simp, by simp, by simp, by simp [yielded]⟩, ?_⟩
    exact Or.inl ⟨rfl, rfl⟩
  | cons name segs ih =>
    obtain ⟨hnotin, hnodup⟩ := List.nodup_cons.mp hnodup
    obtain ⟨hname, hshows⟩ := hsegs name List.mem_cons_self
    have hread : readOn W c.seen read name = readOn W w.sync.seenOffsets read name := by
      simp only [readOn, hsame name List.mem_cons_self]
    have hsees : P.SeenAt w.sync.seenOffsets name (pos name) := by
      have := hseen name hname
      rwa [SeenAt, hsame name List.mem_cons_self] at this
    rcases P.readOn_shown hsees (hle name hname) hshows (hgarbled name List.mem_cons_self) with
      ⟨e, he⟩ | ⟨off, p, hok, hoff, hp, hp', hview⟩
    · refine ⟨[], pos, c, ⟨hseen, fun _ _ => rfl, by simp, by simp, by simp, by simp [yielded]⟩,
        Or.inr ⟨e, name, segs, rfl, he, ?_⟩⟩
      simp only [collectLoop, hread, he]
    · have hne : ∀ n ∈ segs, n ≠ name := fun n hn heq => hnotin (heq ▸ hn)
      obtain ⟨done, pos', c', hr, hend⟩ := ih hnodup
        (List.forall_mem_cons.mp hsegs).2
        (List.forall_mem_cons.mp hgarbled).2
        (c := { seen := Function.update c.seen name (some off)
                ops := c.ops ++ ((P.stream name).recs (pos name) p).map fun r => (instOf name, r.2)
                freshCoverage := ((P.stream name).recs (pos name) p).foldl
                  (fun c r => raiseCoverage c (instOf name) r.1) c.freshCoverage })
        (show ∀ n ∈ P.names, Function.update pos name p n ≤ _ from fun n hn => by
          by_cases heq : n = name
          · subst heq
            simpa using hp'
          · simpa [heq] using hle n hn)
        (fun n hn => by
          by_cases heq : n = name
          · subst heq
            simpa [SeenAt] using hoff
          · simpa [SeenAt, heq] using hseen n hn)
        (fun n hn => by
          simpa [hne n hn] using hsame n (List.mem_cons_of_mem _ hn))
      have hsub : ∀ n ∈ done, n ∈ segs := by
        rcases hend with ⟨rfl, -⟩ | ⟨e, name', after, rfl, -⟩
        · exact fun n hn => hn
        · exact fun n hn => List.mem_append_left _ hn
      have hp₀ : pos' name = p := by
        simpa using hr.other name fun hmem => hnotin (hsub name hmem)
      have hother : ∀ n ∈ done, Function.update pos name p n = pos n := fun n hn =>
        Function.update_of_ne (hne n (hsub n hn)) _ _
      refine ⟨name :: done, pos', c', ⟨hr.seen, ?_, ?_, ?_, ?_, ?_⟩, ?_⟩
      · intro n hn
        rw [List.mem_cons, not_or] at hn
        rw [hr.other n hn.2, Function.update_of_ne hn.1]
      · intro n hn
        rcases List.mem_cons.mp hn with rfl | hn
        · exact hp₀ ▸ ⟨hp, hp'⟩
        · simpa [hother n hn] using hr.le n hn
      · intro n hn
        rcases List.mem_cons.mp hn with rfl | hn
        · exact ⟨off, hp₀ ▸ hok⟩
        · simpa [hother n hn] using hr.yields n hn
      · intro n hn
        rcases List.mem_cons.mp hn with rfl | hn
        · exact fun m hm => hp₀ ▸ hview m hm
        · simpa [hother n hn] using hr.shown n hn
      · rw [hr.ops, P.yielded_congr fun n hn => ⟨hother n hn, rfl⟩, List.append_assoc]
        simp [yielded, hp₀]
      · simp only [collectLoop, hread, hok]
        rcases hend with ⟨rfl, h⟩ | ⟨e, name', after, rfl, he, h⟩
        · exact Or.inl ⟨rfl, h⟩
        · exact Or.inr ⟨e, name', after, rfl, he, h⟩

/-! ## The invariant -/

lemma handed_trans {start pos pos' : FileName → ℕ}
    (hstart : ∀ name ∈ P.names, start name ≤ pos name)
    (hle : ∀ name ∈ P.names, pos name ≤ pos' name)
    (hlen : ∀ name ∈ P.names, pos name ≤ (P.stream name).entries.length) :
    (P.handed start pos ++ P.handed pos pos').Perm (P.handed start pos') := by
  have hsplit : P.handed start pos' = P.names.flatMap fun name =>
      (((P.stream name).recs (start name) (pos name)).map fun r => (instOf name, r.2)) ++
        ((P.stream name).recs (pos name) (pos' name)).map fun r => (instOf name, r.2) := by
    refine List.flatMap_congr fun name hname => ?_
    rw [← List.map_append, Stream.recs_append _ (hstart name hname) (hle name hname)
      (hlen name hname)]
  rw [hsplit]
  exact List.flatMap_append_perm _ _ _

/-- Reading some segments on adds what they yield. -/
lemma handed_perm (hnodup : segs.Nodup) (hsub : ∀ name ∈ segs, name ∈ P.names)
    {start pos pos' : FileName → ℕ} (hstart : ∀ name ∈ P.names, start name ≤ pos name)
    (hle : ∀ name ∈ P.names, pos name ≤ pos' name)
    (hlen : ∀ name ∈ P.names, pos name ≤ (P.stream name).entries.length)
    (hother : ∀ name, name ∉ segs → pos' name = pos name) :
    (P.handed start pos').Perm (P.handed start pos ++ P.yielded segs pos pos') := by
  have hyielded : (P.yielded P.names pos pos').Perm (P.yielded segs pos pos') := by
    refine Lists.flatMap_perm P.nodup hnodup fun name hne => ⟨fun _ => ?_, hsub name⟩
    by_contra hmem
    rw [hother name hmem, Stream.recs_self] at hne
    exact hne rfl
  exact (P.handed_trans hstart hle hlen).symm.trans (hyielded.append_left _)

lemma Opened.synced {start : FileName → ℕ} (h : P.Opened start w) : P.Synced start start w where
  seen name hname := by
    rw [SeenAt, h.seen name hname]
    exact h.written name hname
  start_le _ _ := le_rfl
  le_complete name hname := by
    rcases h.written name hname with hw | ⟨-, hw⟩
    · rw [hw, Stream.complete_offset _ (h.start_le name hname)]
    · rw [hw]
      exact Nat.zero_le _
  ops := by
    rw [h.applied, h.pending]
    simp [handed]

/-- Reading what a peer wrote does not fail. -/
lemma readOn_view {name : FileName} {seen : FileName → Option ℕ} {pos n : ℕ}
    (hseen : P.SeenAt seen name pos) (hview : read name = .ok ((P.stream name).view n)) :
    ∃ r, readOn W seen read name = .ok r := by
  obtain ⟨off, hreplay, -⟩ := (P.stream name).replayFromOffset_view name n hseen
  have hok : ∃ r, replayFromOffset W name ((P.stream name).view n) ((seen name).getD 0) = .ok r :=
    ⟨_, hreplay⟩
  simpa only [readOn, hview] using hok

variable {start pos : FileName → ℕ}

/-- A collect whose failing read comes first keeps every record it marks as seen. -/
lemma Synced.collect (h : P.Synced start pos w) (hposs : P.Possible w (.collect (.ok segs) read))
    (hundropped : Undropped W w (.collect (.ok segs) read)) :
    ∃ pos', P.Synced start pos' (w.step W (.collect (.ok segs) read)) ∧
      ((∀ name ∈ segs, read name = .ok ((P.stream name).view (w.written name))) →
        ∀ name ∈ segs, pos' name = (P.stream name).complete (w.written name)) := by
  obtain ⟨hnodup, hsegs⟩ := hposs
  obtain ⟨hfails, hgarbled⟩ := hundropped
  have hlen : ∀ name ∈ P.names, pos name ≤ (P.stream name).entries.length := fun name hname =>
    (h.le_complete name hname).trans ((P.stream name).complete_le _)
  obtain ⟨done, pos', c', hr, hend⟩ := P.collectLoop_read hnodup hsegs hgarbled h.le_complete
    (c := ⟨w.sync.seenOffsets, [], fun _ => none⟩) h.seen (fun _ _ => rfl)
  have hle : ∀ name ∈ P.names, pos name ≤ pos' name ∧
      pos' name ≤ (P.stream name).complete (w.written name) := by
    intro name hname
    by_cases hdone : name ∈ done
    · exact hr.le name hdone
    · rw [hr.other name hdone]
      exact ⟨le_rfl, h.le_complete name hname⟩
  rcases hend with ⟨rfl, hloop⟩ | ⟨e, name, after, rfl, herror, hloop⟩
  · refine ⟨pos', ⟨?_, fun name hname => (h.start_le name hname).trans (hle name hname).1,
      fun name hname => (hle name hname).2, ?_⟩, fun hall name hname => ?_⟩
    · simpa [World.step, syncForeignCollect, hloop] using hr.seen
    · have hperm := P.handed_perm hnodup (fun name hname => (hsegs name hname).1) h.start_le
        (fun name hname => (hle name hname).1) hlen hr.other
      have hops : c'.ops = P.yielded done pos pos' := by simpa using hr.ops
      simp only [World.step, syncForeignCollect, hloop, hops]
      rw [← List.append_assoc]
      exact (h.ops.append_right _).trans hperm.symm
    · rw [hr.shown name hname _ (hall name hname),
        max_eq_right (h.le_complete name (hsegs name hname).1)]
  · -- nothing was read before the failing read
    have hpos : ∀ b ∈ done, pos' b = pos b := by
      intro b hb
      obtain ⟨off, hok⟩ := hr.yields b hb
      have hnil := hfails done name after e rfl herror b hb _ hok
      have hlen' := congrArg List.length hnil
      have := hle b (hsegs b (List.mem_append_left _ hb)).1
      have := (P.stream b).complete_le (w.written b)
      simp only [Stream.recs, List.length_map, List.length_drop, List.length_take,
        List.length_nil] at hlen'
      omega
    have hpos' : ∀ name, pos' name = pos name := fun b => by
      by_cases hb : b ∈ done
      · exact hpos b hb
      · exact hr.other b hb
    refine ⟨pos, ⟨fun b hb => ?_, h.start_le, h.le_complete, ?_⟩, fun hall => ?_⟩
    · have := hr.seen b hb
      rw [hpos' b] at this
      simpa [World.step, syncForeignCollect, hloop] using this
    · simpa [World.step, syncForeignCollect, hloop] using h.ops
    · have hmem : name ∈ done ++ name :: after := by simp
      obtain ⟨off, hok⟩ := P.readOn_view (h.seen name (hsegs name hmem).1) (hall name hmem)
      rw [herror] at hok
      cases hok

lemma Synced.step (h : P.Synced start pos w) {s : SyncStep} (hposs : P.Possible w s)
    (hundropped : Undropped W w s) : ∃ pos', P.Synced start pos' (w.step W s) := by
  cases s with
  | write name n =>
    refine ⟨pos, h.seen, h.start_le, fun name' hname' => ?_, h.ops⟩
    refine (h.le_complete name' hname').trans ((P.stream name').complete_mono ?_)
    by_cases heq : name' = name
    · subst heq
      simp [World.step]
    · simp [World.step, heq]
  | apply =>
    refine ⟨pos, ?_, h.start_le, h.le_complete, ?_⟩
    · unfold World.step syncForeignApply
      dsimp only
      split <;> exact h.seen
    · unfold World.step syncForeignApply
      dsimp only
      split
      · simpa using h.ops
      · simpa using h.ops
  | collect foreignSegs read =>
    cases foreignSegs with
    | error e => exact ⟨pos, h⟩
    | ok segs =>
      obtain ⟨pos', hsynced, -⟩ := h.collect P hposs hundropped
      exact ⟨pos', hsynced⟩

/-- Every step of a run can happen and drops nothing. -/
def Follows (w : World F) : List SyncStep → Prop
  | [] => True
  | s :: steps => P.Possible w s ∧ Undropped W w s ∧ Follows (w.step W s) steps

lemma Synced.run (h : P.Synced start pos w) {steps : List SyncStep} (hsteps : P.Follows w steps) :
    ∃ pos', P.Synced start pos' (w.run W steps) := by
  induction steps generalizing w pos with
  | nil => exact ⟨pos, h⟩
  | cons s steps ih =>
    obtain ⟨hposs, hundropped, hrest⟩ := hsteps
    obtain ⟨pos', hstep⟩ := h.step P hposs hundropped
    exact ih hstep hrest

/-- A collect in which every read shows all that was written, and an apply, leave nothing behind. -/
lemma Synced.complete (h : P.Synced start pos w) (hnodup : segs.Nodup)
    (hread : ∀ name ∈ segs, name ∈ P.names ∧
      read name = .ok ((P.stream name).view (w.written name)))
    (hempty : ∀ name ∈ P.names, name ∉ segs → w.written name = 0) :
    ((w.step W (.collect (.ok segs) read)).step W .apply).applied.Perm
      (P.handed start fun name => (P.stream name).complete (w.written name)) := by
  have hposs : P.Possible w (.collect (.ok segs) read) :=
    ⟨hnodup, fun name hname => ⟨(hread name hname).1,
      Or.inr (Or.inl ⟨_, le_rfl, (hread name hname).2⟩)⟩⟩
  have hundropped : Undropped W w (.collect (.ok segs) read) := by
    refine ⟨fun before name after e heq herror => ?_, fun name hname file hfile hbad => ?_⟩
    · have hmem : name ∈ segs := by simp [heq]
      obtain ⟨r, hok⟩ := P.readOn_view (h.seen name (hread name hmem).1) (hread name hmem).2
      rw [herror] at hok
      cases hok
    · rw [(hread name hname).2] at hfile
      exact absurd hbad (Except.ok.inj hfile ▸ not_badMagic_view _ _)
  obtain ⟨pos', hsynced, hall⟩ := h.collect P hposs hundropped
  have hpos : ∀ name ∈ P.names, pos' name = (P.stream name).complete (w.written name) := by
    intro name hname
    by_cases hmem : name ∈ segs
    · exact hall (fun name hname => (hread name hname).2) name hmem
    · have hle : pos' name ≤ (P.stream name).complete (w.written name) :=
        hsynced.le_complete name hname
      have hzero : (P.stream name).complete (w.written name) = 0 := by
        rw [hempty name hname hmem, Stream.complete_eq_zero _ (Nat.zero_le _)]
      omega
  have hhanded : P.handed start pos' =
      P.handed start fun name => (P.stream name).complete (w.written name) :=
    P.yielded_congr fun name hname => ⟨rfl, hpos name hname⟩
  rw [← hhanded]
  refine List.Perm.trans (List.Perm.of_eq ?_) hsynced.ops
  generalize w.step W (.collect (.ok segs) read) = w'
  unfold World.step syncForeignApply
  dsimp only
  split
  · rename_i hnil
    rw [List.isEmpty_iff.mp hnil]
  · rfl

end Peers

/-- Sync hands every record on exactly once, whatever the peers write meanwhile, if in each collect
no read fails behind one that yields records: the records marked as seen are those applied or
pending, and once all reads succeed, every record that became complete since the opening has been
applied. -/
theorem sync_exactly_once {W : Wire F} (P : Peers W) {start : FileName → ℕ} {w : World F}
    (hopen : P.Opened start w) {steps : List SyncStep} (hsteps : P.Follows w steps) :
    (∃ pos, P.Synced start pos (w.run W steps)) ∧
      ∀ segs read, segs.Nodup →
        (∀ name ∈ segs, name ∈ P.names ∧
          read name = .ok ((P.stream name).view ((w.run W steps).written name))) →
        (∀ name ∈ P.names, name ∉ segs → (w.run W steps).written name = 0) →
        ((w.run W (steps ++ [.collect (.ok segs) read, .apply])).applied).Perm
          (P.handed start fun name => (P.stream name).complete ((w.run W steps).written name)) := by
  obtain ⟨pos, hsynced⟩ := (hopen.synced P).run P hsteps
  refine ⟨⟨pos, hsynced⟩, fun segs read hnodup hread hempty => ?_⟩
  have hrun : w.run W (steps ++ [.collect (.ok segs) read, .apply]) =
      ((w.run W steps).step W (.collect (.ok segs) read)).step W .apply := by
    simp [World.run]
  rw [hrun]
  exact hsynced.complete P hnodup hread hempty

/-! ## Two peers -/

/-- What instance `inst` writes: one deletion. -/
def deletionStream (inst : ℕ) (h : inst < 128) : Stream (Reference.wire ℚ) where
  version := 3
  firstSeqno := 1
  header := headerV3 1 zeroHash 0
  chained := .v3 (by decide) _ _
  entries := [Reference.deletion ℚ 1 inst 3 zeroHash]
  valid := by
    intro e he
    rw [List.mem_singleton.mp he]
    exact Reference.deletion_valid ℚ (by decide) h (by decide) _

/-- Two peers, each about to append a deletion. -/
def twoPeers : Peers (Reference.wire ℚ) where
  names := [segmentPath 1 1, segmentPath 2 1]
  nodup := by decide +kernel
  stream name :=
    if name = segmentPath 1 1 then deletionStream 1 (by decide) else deletionStream 2 (by decide)

/-- A field that was opened when both segments held their headers. -/
def openedWorld : World ℚ :=
  ⟨fun _ => 56, ⟨fun _ => some 56, ⟨[], fun _ => none⟩, fun _ => none⟩, []⟩

lemma openedWorld_opened : twoPeers.Opened (fun _ => 0) openedWorld where
  applied := rfl
  pending := rfl
  start_le _ _ := Nat.zero_le _
  written name hname := by
    rcases List.mem_pair.mp hname with rfl | rfl <;> exact Or.inl (by decide +kernel)
  seen _ _ := rfl

/-- Reading a segment after both peers have appended. -/
def readAll (name : FileName) : Except FieldError Bytes :=
  .ok ((twoPeers.stream name).view 122)

/-- Reading when the second segment cannot be read. -/
def readFirst (name : FileName) : Except FieldError Bytes :=
  if name = segmentPath 1 1 then readAll name else .error (.io "stale file handle")

/-- Both peers append, a collect fails at the second segment, and another one succeeds. -/
def failingSteps : List SyncStep :=
  [.write (segmentPath 1 1) 66, .write (segmentPath 2 1) 66, .collect (.ok twoPeers.names) readFirst,
    .collect (.ok twoPeers.names) readAll, .apply]

/-- The deletion that was read in front of the failing read is never applied. -/
theorem failed_collect_drops_records :
    twoPeers.Opened (fun _ => 0) openedWorld ∧
      (openedWorld.run (Reference.wire ℚ) failingSteps).applied.map Prod.fst = [2] ∧
      (twoPeers.handed (fun _ => 0) fun name => (twoPeers.stream name).complete
        ((openedWorld.run (Reference.wire ℚ) failingSteps).written name)).map Prod.fst = [1, 2] :=
  ⟨openedWorld_opened, by decide +kernel, by decide +kernel⟩

/-- When both reads succeed, both deletions are applied. -/
theorem sync_exactly_once_both :
    ((openedWorld.run (Reference.wire ℚ) ([.write (segmentPath 1 1) 66, .write (segmentPath 2 1) 66] ++
        [.collect (.ok twoPeers.names) readAll, .apply])).applied).Perm
      (twoPeers.handed (fun _ => 0) fun name => (twoPeers.stream name).complete
        ((openedWorld.run (Reference.wire ℚ)
          [.write (segmentPath 1 1) 66, .write (segmentPath 2 1) 66]).written name)) := by
  have hsteps : twoPeers.Follows openedWorld
      [.write (segmentPath 1 1) 66, .write (segmentPath 2 1) 66] :=
    ⟨trivial, trivial, trivial, trivial, trivial⟩
  refine (sync_exactly_once twoPeers openedWorld_opened hsteps).2 twoPeers.names readAll
    twoPeers.nodup (fun name hname => ⟨hname, ?_⟩) (fun name hname hmem => absurd hname hmem)
  rcases List.mem_pair.mp hname with rfl | rfl <;> rfl

end ChittaField
