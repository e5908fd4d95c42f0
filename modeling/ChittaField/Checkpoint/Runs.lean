import ChittaField.Checkpoint.Save

/-!
# A field between its saves

A field that was opened in a directory without snapshots appends records, applies those of its peers,
and saves.  `Consistent` is what holds all the time: what the snapshot on disk holds and what its
coverage vector does not cover is the whole history.
-/

namespace ChittaField

variable {F : Type}

/-! ## Coverage vectors -/

/-- One vector covers what the other one does. -/
def VectorLe (m m' : OrderedMap InstanceId ℕ) : Prop :=
  ∀ k n, m.get? k = some n → ∃ n', m'.get? k = some n' ∧ n ≤ n'

lemma VectorLe.trans {m m' m'' : OrderedMap InstanceId ℕ} (h : VectorLe m m')
    (h' : VectorLe m' m'') : VectorLe m m'' := by
  intro k n hk
  obtain ⟨n', hk', hle⟩ := h k n hk
  obtain ⟨n'', hk'', hle'⟩ := h' k n' hk'
  exact ⟨n'', hk'', hle.trans hle'⟩

variable {r : LogRecord F}

lemma VectorLe.uncovered {m m' : OrderedMap InstanceId ℕ} (h : VectorLe m m')
    (hr : coveredBy m' r = false) : coveredBy m r = false := by
  refine Bool.eq_false_iff.mpr fun hcov => Bool.eq_false_iff.mp hr ?_
  obtain ⟨n, hn, hle⟩ := coveredBy_iff.mp hcov
  obtain ⟨n', hn', hle'⟩ := h _ n hn
  exact coveredBy_iff.mpr ⟨n', hn', hle.trans hle'⟩

namespace Checkpointed

/-! ## What holds between the saves -/

/-- What the field knows of the writers: it has applied the records that its vector covers, and no
others. -/
structure Knows (s : Checkpointed F) : Prop where
  inst_lt : s.inst < 2 ^ 32
  next_pos : 0 < s.nextSeqno
  pos : ∀ r ∈ s.log, 0 < r.2.1
  own_lt : ∀ r ∈ s.log, r.1 = s.inst → r.2.1 < s.nextSeqno
  own_coverage : ∀ n, s.walCoverage.get? s.inst = some n → n < s.nextSeqno
  keys : ∀ k n, s.walCoverage.get? k = some n → k < 2 ^ 32
  covered : ∀ r ∈ s.log, r.1 ≠ s.inst → coveredBy s.walCoverage r = true
  pending : ∀ r ∈ s.pending,
    r.1 ≠ s.inst ∧ r.1 < 2 ^ 32 ∧ (s.walCoverage.get? r.1).getD 0 < r.2.1
  increasing : s.pending.Pairwise fun r q => r.1 = q.1 → r.2.1 < q.2.1

/-- The snapshot on disk holds the first part of the log, its vector covers this part and no more than
the field knows, and the records that it does not cover are all there. -/
structure Keeps (s : Checkpointed F) (held fresh : List (LogRecord F)) (m : OrderedMap InstanceId ℕ)
    (seqno : ℕ) : Prop where
  saved : s.disk.Saved s.stem held m seqno
  seqno_le : seqno ≤ s.lastSeqno
  log : s.log = held ++ fresh
  own : ∃ n, m.get? s.inst = some n
  covered : ∀ r ∈ held, coveredBy m r = true
  le : VectorLe m s.coverage
  wal : (s.disk.wal.filter fun r => !coveredBy m r).Perm (fresh ++ s.pending)

/-- What holds of a field that was opened without a snapshot: nothing was saved and all records are
there, or the last save keeps the log. -/
structure Consistent (s : Checkpointed F) : Prop where
  knows : s.Knows
  named : s.disk.Named
  kept : s.disk.Unsaved ∧ s.disk.wal.Perm s.history ∨
    ∃ held fresh m seqno, s.Keeps held fresh m seqno

variable {s : Checkpointed F}

/-! ### The coverage vector of a save -/

lemma get?_coverage_own (s : Checkpointed F) : s.coverage.get? s.inst =
    some (max ((s.walCoverage.get? s.inst).getD 0) s.lastSeqno) :=
  OrderedMap.get?_insert_self

lemma get?_coverage_of_ne (s : Checkpointed F) {k : InstanceId} (h : k ≠ s.inst) :
    s.coverage.get? k = s.walCoverage.get? k :=
  OrderedMap.get?_insert_of_ne h.symm

lemma Knows.coverage_lt (h : s.Knows) {n : ℕ} (hn : s.coverage.get? s.inst = some n) :
    n < s.nextSeqno := by
  rw [get?_coverage_own, Option.some.injEq] at hn
  have hpos := h.next_pos
  have hlast : s.lastSeqno < s.nextSeqno := Nat.sub_lt hpos one_pos
  have hown : (s.walCoverage.get? s.inst).getD 0 < s.nextSeqno := by
    cases hget : s.walCoverage.get? s.inst with
    | none => exact hpos
    | some k => exact h.own_coverage k hget
  exact hn ▸ max_lt hown hlast

lemma Knows.coverage_keys (h : s.Knows) (k n : ℕ) (hk : s.coverage.get? k = some n) :
    k < 2 ^ 32 := by
  by_cases heq : k = s.inst
  · exact heq ▸ h.inst_lt
  · exact h.keys k n (s.get?_coverage_of_ne heq ▸ hk)

/-- The field has applied what its vector covers. -/
lemma Knows.covered_log (h : s.Knows) (hr : r ∈ s.log) : coveredBy s.coverage r = true := by
  by_cases heq : r.1 = s.inst
  · have hlt := h.own_lt r hr heq
    refine coveredBy_iff.mpr ⟨_, heq ▸ s.get?_coverage_own, le_max_of_le_right ?_⟩
    exact Nat.le_sub_one_of_lt hlt
  · rw [coveredBy, s.get?_coverage_of_ne heq]
    exact h.covered r hr heq

/-- Nothing that is still to be applied is covered. -/
lemma Knows.uncovered_pending (h : s.Knows) (hr : r ∈ s.pending) :
    coveredBy s.coverage r = false := by
  obtain ⟨hne, -, hlt⟩ := h.pending r hr
  rw [coveredBy, s.get?_coverage_of_ne hne]
  cases hget : s.walCoverage.get? r.1 with
  | none => rfl
  | some n =>
    rw [hget] at hlt
    simpa using hlt

/-- What the field appends next is not covered. -/
lemma Knows.uncovered_next (h : s.Knows) (op : Op F) :
    coveredBy s.coverage (s.inst, s.nextSeqno, op) = false := by
  refine Bool.eq_false_iff.mpr fun hcov => ?_
  obtain ⟨n, hn, hle⟩ := coveredBy_iff.mp hcov
  exact absurd (h.coverage_lt hn) (Nat.not_lt.mpr hle)

lemma Knows.pos_history (h : s.Knows) (hr : r ∈ s.history) : 0 < r.2.1 := by
  rcases List.mem_append.mp hr with hr | hr
  · exact h.pos r hr
  · exact Nat.zero_lt_of_lt (h.pending r hr).2.2

variable {d : Disk F}

/-- Without a snapshot all records are replayed. -/
lemma Knows.replayed_none (h : s.Knows) (hwal : ∀ r ∈ d.wal, r ∈ s.history) :
    d.replayed none = d.wal := by
  refine List.filter_eq_self.mpr fun r hr => ?_
  rw [Disk.covers, LoadedSnapshots.coveredByFull_of_none rfl, Bool.not_eq_eq_eq_not, Bool.not_true]
  exact decide_eq_false (Nat.not_le.mpr (h.pos_history (hwal r hr)))

variable {held fresh : List (LogRecord F)} {m : OrderedMap InstanceId ℕ} {seqno : ℕ}

lemma Keeps.keys (hk : s.Keeps held fresh m seqno) (h : s.Knows) (k n : ℕ) (hkn : m.get? k = some n) :
    k < 2 ^ 32 := by
  obtain ⟨n', hn', -⟩ := hk.le k n hkn
  exact h.coverage_keys k n' hn'

lemma Keeps.covers_eq (hk : s.Keeps held fresh m seqno) (h : s.Knows) {held' : List (LogRecord F)}
    {seqno' : ℕ} (hd : d.Saved s.stem held' m seqno') : d.covers (some s.stem) = coveredBy m := by
  obtain ⟨n, hn⟩ := hk.own
  exact hd.covers_eq (hk.keys h) hn

/-! ### Records -/

lemma coverage_le_append (s : Checkpointed F) (op : Op F) :
    VectorLe s.coverage (s.append op).coverage := by
  intro k n hk
  by_cases heq : k = s.inst
  · subst heq
    rw [get?_coverage_own, Option.some.injEq] at hk
    refine ⟨_, (s.append op).get?_coverage_own, hk ▸ max_le_max_left _ ?_⟩
    exact Nat.sub_le_sub_right (Nat.le_succ _) 1
  · refine ⟨n, ?_, le_rfl⟩
    rw [get?_coverage_of_ne (s.append op) heq]
    exact s.get?_coverage_of_ne heq ▸ hk

lemma Knows.append (h : s.Knows) (op : Op F) : (s.append op).Knows where
  inst_lt := h.inst_lt
  next_pos := Nat.succ_pos _
  pos := List.forall_mem_append.mpr ⟨h.pos, List.forall_mem_singleton.mpr h.next_pos⟩
  own_lt := List.forall_mem_append.mpr ⟨fun r hr heq => Nat.lt_succ_of_lt (h.own_lt r hr heq),
    List.forall_mem_singleton.mpr fun _ => Nat.lt_succ_self _⟩
  own_coverage n hn := Nat.lt_succ_of_lt (h.own_coverage n hn)
  keys := h.keys
  covered := List.forall_mem_append.mpr ⟨h.covered, List.forall_mem_singleton.mpr fun hne => absurd rfl hne⟩
  pending := h.pending
  increasing := h.increasing

lemma Keeps.append (hk : s.Keeps held fresh m seqno) (h : s.Knows) (op : Op F) :
    (s.append op).Keeps held (fresh ++ [(s.inst, s.nextSeqno, op)]) m seqno where
  saved := ⟨hk.saved.snapshots, hk.saved.peek, hk.saved.held, hk.saved.manifest⟩
  seqno_le := hk.seqno_le.trans (Nat.sub_le_sub_right (Nat.le_succ _) 1)
  log := by
    rw [← List.append_assoc, ← hk.log]
    rfl
  own := hk.own
  covered := hk.covered
  le := hk.le.trans (s.coverage_le_append op)
  wal := by
    have hnew : coveredBy m (s.inst, s.nextSeqno, op) = false :=
      hk.le.uncovered (h.uncovered_next op)
    have hfilter : ((s.append op).disk.wal.filter fun r => !coveredBy m r) =
        (s.disk.wal.filter fun r => !coveredBy m r) ++ [(s.inst, s.nextSeqno, op)] := by
      simp [Checkpointed.append, List.filter_append, hnew]
    rw [hfilter, List.append_assoc]
    refine (hk.wal.append_right _).trans ?_
    rw [List.append_assoc]
    exact List.perm_append_comm.append_left _

/-- The field appends a record of its own. -/
lemma Consistent.append (h : s.Consistent) (op : Op F) : (s.append op).Consistent := by
  refine ⟨h.knows.append op, h.named, ?_⟩
  rcases h.kept with ⟨hun, hwal⟩ | ⟨held, fresh, m, seqno, hk⟩
  · refine Or.inl ⟨⟨hun.snapshots, hun.manifest⟩, ?_⟩
    refine (hwal.append_right _).trans ?_
    simp only [history, Checkpointed.append, List.append_assoc]
    exact List.perm_append_comm.append_left _
  · exact Or.inr ⟨held, _, m, seqno, hk.append h.knows op⟩

/-- A new record of a peer waits to be read. -/
lemma Knows.written (h : s.Knows) (hr : s.IsNew r) : (s.written r).Knows where
  inst_lt := h.inst_lt
  next_pos := h.next_pos
  pos := h.pos
  own_lt := h.own_lt
  own_coverage := h.own_coverage
  keys := h.keys
  covered := h.covered
  pending := List.forall_mem_append.mpr ⟨h.pending, List.forall_mem_singleton.mpr ⟨hr.1, hr.2.1, hr.2.2.1⟩⟩
  increasing := by
    refine List.pairwise_append.mpr ⟨h.increasing, List.pairwise_singleton _ _, ?_⟩
    intro q hq q' hq' heq
    rw [List.mem_singleton.mp hq'] at heq ⊢
    exact hr.2.2.2 q hq heq

lemma Consistent.peer (h : s.Consistent) (r : LogRecord F) : (s.peer r).Consistent := by
  unfold Checkpointed.peer
  split
  case isFalse => exact h
  case isTrue hnew =>
    have hknows := h.knows.written hnew
    refine ⟨hknows, h.named, ?_⟩
    rcases h.kept with ⟨hun, hwal⟩ | ⟨held, fresh, m, seqno, hk⟩
    · refine Or.inl ⟨⟨hun.snapshots, hun.manifest⟩, ?_⟩
      have := hwal.append_right [r]
      rwa [history, List.append_assoc] at this
    · refine Or.inr ⟨held, fresh, m, seqno, ⟨hk.saved.snapshots, hk.saved.peek, hk.saved.held,
        hk.saved.manifest⟩, hk.seqno_le, hk.log, hk.own, hk.covered, hk.le, ?_⟩
      have hr : coveredBy m r = false :=
        hk.le.uncovered (hknows.uncovered_pending List.mem_concat_self)
      have hfilter : ((s.written r).disk.wal.filter fun r => !coveredBy m r) =
          (s.disk.wal.filter fun r => !coveredBy m r) ++ [r] := by
        simp [Checkpointed.written, List.filter_append, hr]
      rw [hfilter]
      have := hk.wal.append_right [r]
      rwa [List.append_assoc] at this

/-- A record of a peer is a new one, so the vector grows. -/
lemma walCoverage_le_taken (hr : (s.walCoverage.get? r.1).getD 0 < r.2.1) (rest : List (LogRecord F)) :
    VectorLe s.walCoverage (s.taken r rest).walCoverage := by
  intro k n hk
  by_cases heq : r.1 = k
  · subst heq
    rw [hk] at hr
    exact ⟨_, OrderedMap.get?_insert_self, le_of_lt hr⟩
  · exact ⟨n, (OrderedMap.get?_insert_of_ne heq).trans hk, le_rfl⟩

lemma coverage_le_taken (hne : r.1 ≠ s.inst) (hr : (s.walCoverage.get? r.1).getD 0 < r.2.1)
    (rest : List (LogRecord F)) : VectorLe s.coverage (s.taken r rest).coverage := by
  intro k n hk
  by_cases heq : k = s.inst
  · subst heq
    refine ⟨n, ?_, le_rfl⟩
    have hget : (s.taken r rest).walCoverage.get? s.inst = s.walCoverage.get? s.inst :=
      OrderedMap.get?_insert_of_ne hne
    refine ((s.taken r rest).get?_coverage_own.trans ?_).trans (s.get?_coverage_own.symm.trans hk)
    rw [← hget]
    rfl
  · obtain ⟨n', hn', hle⟩ := walCoverage_le_taken hr rest k n (s.get?_coverage_of_ne heq ▸ hk)
    exact ⟨n', (get?_coverage_of_ne (s.taken r rest) heq).trans hn', hle⟩

lemma Knows.taken (h : s.Knows) {rest : List (LogRecord F)} (hpending : s.pending = r :: rest) :
    (s.taken r rest).Knows := by
  have hinc := h.increasing
  rw [hpending, List.pairwise_cons] at hinc
  obtain ⟨hne, hlt, hcov⟩ := h.pending r (by rw [hpending]; exact List.mem_cons_self)
  have hself : (s.taken r rest).walCoverage.get? r.1 = some r.2.1 := OrderedMap.get?_insert_self
  have hget : ∀ {k}, k ≠ r.1 → (s.taken r rest).walCoverage.get? k = s.walCoverage.get? k :=
    fun hk => OrderedMap.get?_insert_of_ne (Ne.symm hk)
  refine ⟨h.inst_lt, h.next_pos,
    List.forall_mem_append.mpr ⟨h.pos, List.forall_mem_singleton.mpr (Nat.zero_lt_of_lt hcov)⟩,
    List.forall_mem_append.mpr ⟨h.own_lt, List.forall_mem_singleton.mpr fun heq => absurd heq hne⟩, fun n hn => ?_,
    fun k n hk => ?_, fun q hq hq' => ?_, fun q hq => ?_, hinc.2⟩
  · exact h.own_coverage n ((hget (Ne.symm hne)).symm.trans hn)
  · by_cases heq : k = r.1
    · exact heq ▸ hlt
    · exact h.keys k n ((hget heq).symm.trans hk)
  · rcases List.mem_append.mp hq with hq | hq
    · obtain ⟨n, hn, hle⟩ := coveredBy_iff.mp (h.covered q hq hq')
      obtain ⟨n', hn', hle'⟩ := walCoverage_le_taken hcov rest _ n hn
      exact coveredBy_iff.mpr ⟨n', hn', hle.trans hle'⟩
    · rw [List.mem_singleton.mp hq]
      exact coveredBy_iff.mpr ⟨_, hself, le_rfl⟩
  · obtain ⟨hqne, hqlt, hqcov⟩ := h.pending q (by
      rw [hpending]
      exact List.mem_cons_of_mem _ hq)
    refine ⟨hqne, hqlt, ?_⟩
    by_cases heq : q.1 = r.1
    · rw [heq, hself]
      exact hinc.1 q hq heq.symm
    · rw [hget heq]
      exact hqcov

/-- The field reads the next one. -/
lemma Consistent.ingest (h : s.Consistent) : s.ingest.Consistent := by
  unfold Checkpointed.ingest
  cases hpending : s.pending with
  | nil => exact h
  | cons r rest =>
    obtain ⟨hne, -, hcov⟩ := h.knows.pending r (by rw [hpending]; exact List.mem_cons_self)
    refine ⟨h.knows.taken hpending, h.named, ?_⟩
    rcases h.kept with ⟨hun, hwal⟩ | ⟨held, fresh, m, seqno, hk⟩
    · refine Or.inl ⟨hun, ?_⟩
      rw [history, hpending, List.append_cons] at hwal
      exact hwal
    · refine Or.inr ⟨held, fresh ++ [r], m, seqno, hk.saved, hk.seqno_le, ?_, hk.own,
        hk.covered, hk.le.trans (coverage_le_taken hne hcov rest), ?_⟩
      · rw [← List.append_assoc, ← hk.log]
        rfl
      · have hwal := hk.wal
        rw [hpending, List.append_cons] at hwal
        exact hwal

/-! ### Saves -/

/-- After the commit the snapshot holds the log, and what it does not cover is still to be applied. -/
structure Committed (s : Checkpointed F) (d : Disk F) : Prop where
  named : d.Named
  saved : d.Saved s.stem s.log s.coverage s.lastSeqno
  wal : (d.wal.filter fun r => !coveredBy s.coverage r).Perm s.pending

lemma Knows.covers_eq (h : s.Knows) {held : List (LogRecord F)}
    (hd : d.Saved s.stem held s.coverage seqno) : d.covers (some s.stem) = coveredBy s.coverage :=
  hd.covers_eq h.coverage_keys s.get?_coverage_own

lemma Knows.removeSegment (h : s.Knows) (hd : s.Committed d) (segment : LogRecord F → Bool) :
    s.Committed (d.removeSegment s.stem segment) := by
  refine ⟨hd.named.removeSegment segment, hd.saved.removeSegment segment, ?_⟩
  rw [← h.covers_eq hd.saved, Disk.filter_removeSegment, h.covers_eq hd.saved]
  exact hd.wal

lemma Committed.removeOld (hd : s.Committed d) (f : FamilyFile) :
    s.Committed (d.removeOld s.stem f) := by
  refine ⟨hd.named.removeOld f, hd.saved.removeOld f, ?_⟩
  have hwal : (d.removeOld s.stem f).wal = d.wal := by
    unfold Disk.removeOld
    split <;> rfl
  rw [hwal]
  exact hd.wal

variable {steps : List (Disk F → Disk F)}

/-- A property that every step keeps holds after all of them. -/
lemma takeSteps_induction {P : Disk F → Prop} (hsteps : ∀ step ∈ steps, ∀ d, P d → P (step d))
    (hd : P d) : P (takeSteps steps d) :=
  List.foldlRecOn steps _ hd fun d h step hstep => hsteps step hstep d h

lemma takeSteps_append (steps steps' : List (Disk F → Disk F)) (d : Disk F) :
    takeSteps (steps ++ steps') d = takeSteps steps' (takeSteps steps d) :=
  List.foldl_append

/-- What is removed after the commit is not missed. -/
lemma Knows.takeSteps_removals (h : s.Knows) (env : SaveEnv F)
    (hsteps : steps ⊆ env.sealed.map (Disk.removeSegment s.stem) ++ env.old.map (Disk.removeOld s.stem))
    (hd : s.Committed d) : s.Committed (takeSteps steps d) := by
  refine takeSteps_induction (fun step hstep d hd => ?_) hd
  rcases List.mem_append.mp (hsteps hstep) with hmem | hmem
  · obtain ⟨segment, -, rfl⟩ := List.mem_map.mp hmem
    exact h.removeSegment hd segment
  · obtain ⟨f, -, rfl⟩ := List.mem_map.mp hmem
    exact hd.removeOld f

/-- The sidecars change nothing that matters. -/
lemma takeSteps_sidecars (s : Checkpointed F) (env : SaveEnv F) (hsteps : steps ⊆ s.sidecarSteps env)
    (hnamed : d.Named) : Disk.Alike d (takeSteps steps d) ∧ (takeSteps steps d).Named := by
  refine takeSteps_induction (P := fun d' => Disk.Alike d d' ∧ d'.Named)
    (fun step hstep d' hd' => ?_) ⟨.refl d, hnamed⟩
  obtain ⟨e, he, rfl⟩ := List.mem_map.mp (hsteps hstep)
  have hext : e.1 ≠ .snapshot := by simpa using (List.mem_filter.mp he).2
  exact ⟨hd'.1.trans (Disk.alike_writeSidecar d' e.2 hext),
    hd'.2.writeSidecar e.2 (dot_notMem_instHex s.inst)⟩

lemma Consistent.own (h : s.Consistent) : s.disk.Own s.stem s.lastSeqno := by
  rcases h.kept with ⟨hun, -⟩ | ⟨held, fresh, m, seqno, hk⟩
  · exact hun.own s.stem s.lastSeqno
  · exact hk.saved.own hk.seqno_le

/-- Of what is on disk just the pending records are not covered by the vector of a save. -/
lemma Consistent.wal_uncovered (h : s.Consistent) :
    (s.disk.wal.filter fun r => !coveredBy s.coverage r).Perm s.pending := by
  have hlog : ∀ l ⊆ s.log, (l.filter fun r => !coveredBy s.coverage r) = [] := fun l hl =>
    List.filter_eq_nil_iff.mpr fun r hr => by simp [h.knows.covered_log (hl hr)]
  have hpending : (s.pending.filter fun r => !coveredBy s.coverage r) = s.pending :=
    List.filter_eq_self.mpr fun r hr => by simp [h.knows.uncovered_pending hr]
  rcases h.kept with ⟨-, hwal⟩ | ⟨held, fresh, m, seqno, hk⟩
  · refine (hwal.filter _).trans ?_
    rw [history, List.filter_append, hlog _ (List.Subset.refl _), hpending, List.nil_append]
  · have hnarrow : (s.disk.wal.filter fun r => !coveredBy s.coverage r) =
        (s.disk.wal.filter fun r => !coveredBy m r).filter fun r => !coveredBy s.coverage r := by
      rw [List.filter_filter]
      refine List.filter_congr fun r _ => ?_
      cases hr : coveredBy s.coverage r with
      | true => rfl
      | false => rw [hk.le.uncovered hr]; rfl
    have hfresh : fresh ⊆ s.log := fun r hr => by
      rw [hk.log]
      exact List.mem_append_right _ hr
    rw [hnarrow]
    refine (hk.wal.filter _).trans ?_
    rw [List.filter_append, hlog _ hfresh, hpending, List.nil_append]

/-- The three steps that replace the family. -/
def commitSteps (s : Checkpointed F) (env : SaveEnv F) : List (Disk F → Disk F) :=
  [Disk.writeSnapshot s.stem s.lastSeqno env.snapshotSize s.log,
    Disk.writeSidecar ⟨s.stem, .cortex⟩ env.cortexSize,
    Disk.commit s.stem s.lastSeqno s.covered env.inventory env.vectorSpaceId]

/-- Between the snapshot and the manifest. -/
lemma written_commitSteps (s : Checkpointed F) (env : SaveEnv F) (hd : Disk.Alike s.disk d)
    (hnamed : d.Named) {n : ℕ} (hpos : 0 < n) (hlt : n < 3) :
    s.disk.Written s.stem s.lastSeqno s.log (takeSteps ((s.commitSteps env).take n) d) ∧
      (takeSteps ((s.commitSteps env).take n) d).Named := by
  have hstem := dot_notMem_instHex s.inst
  have hw := (Disk.written_writeSnapshot d s.stem s.lastSeqno env.snapshotSize s.log).of_alike hd
  have hn : (d.writeSnapshot s.stem s.lastSeqno env.snapshotSize s.log).Named :=
    hnamed.writeSnapshot hstem _
  obtain rfl | rfl : n = 1 ∨ n = 2 := by omega
  · exact ⟨hw, hn⟩
  · exact ⟨hw.alike (Disk.alike_writeSidecar _ _ FileExt.noConfusion), hn.writeSidecar _ hstem⟩

/-- What a save has committed is the whole log up to its sequence number. -/
lemma Consistent.committed (h : s.Consistent) (env : SaveEnv F) (hd : Disk.Alike s.disk d)
    (hnamed : d.Named) : s.Committed (takeSteps (s.commitSteps env) d) := by
  obtain ⟨hw, hn⟩ := s.written_commitSteps env hd hnamed two_pos (Nat.lt_succ_self 2)
  refine ⟨hn, hw.commit h.own s.coverage env.inventory env.vectorSpaceId, ?_⟩
  have hwal : (takeSteps (s.commitSteps env) d).wal = s.disk.wal := hw.wal
  rw [hwal]
  exact h.wal_uncovered

lemma saveSteps_eq (s : Checkpointed F) (env : SaveEnv F) : s.saveSteps env = s.sidecarSteps env ++
    (s.commitSteps env ++
      (env.sealed.map (Disk.removeSegment s.stem) ++ env.old.map (Disk.removeOld s.stem))) := by
  simp [saveSteps, commitSteps]

lemma Consistent.save_knows (h : s.Consistent) (env : SaveEnv F) : (s.save env).Knows :=
  ⟨h.knows.inst_lt, h.knows.next_pos, h.knows.pos, h.knows.own_lt, h.knows.own_coverage, h.knows.keys,
    h.knows.covered, h.knows.pending, h.knows.increasing⟩

/-- A save keeps the whole log. -/
lemma Consistent.save_keeps (h : s.Consistent) (env : SaveEnv F) : (s.save env).disk.Named ∧
    (s.save env).Keeps s.log [] s.coverage s.lastSeqno := by
  obtain ⟨halike, hnamed⟩ := s.takeSteps_sidecars env (List.Subset.refl _) h.named
  have hdone : s.Committed (s.save env).disk := by
    rw [Checkpointed.save, saveSteps_eq, takeSteps_append, takeSteps_append]
    exact h.knows.takeSteps_removals env (List.Subset.refl _) (h.committed env halike hnamed)
  exact ⟨hdone.named, hdone.saved, le_rfl, (List.append_nil _).symm, ⟨_, s.get?_coverage_own⟩,
    fun _ => h.knows.covered_log, fun k n hk => ⟨n, hk, le_rfl⟩, hdone.wal⟩

lemma Consistent.save (h : s.Consistent) (env : SaveEnv F) : (s.save env).Consistent :=
  ⟨h.save_knows env, (h.save_keeps env).1, Or.inr ⟨s.log, [], s.coverage, s.lastSeqno,
    (h.save_keeps env).2⟩⟩

/-! ### Runs -/

/-- Every event keeps the field consistent. -/
lemma Consistent.step (h : s.Consistent) (event : Event F) : (s.step event).Consistent := by
  cases event with
  | append op => exact h.append op
  | peer r => exact h.peer r
  | ingest => exact h.ingest
  | save env => exact h.save env

/-- And so does every run. -/
lemma Consistent.run (h : s.Consistent) (events : List (Event F)) : (s.run events).Consistent :=
  List.foldlRecOn events _ h fun _ h event _ => h.step event

/-- A field that was just opened in a directory without snapshots: it has replayed the records of
other writers that it found there. -/
structure Opened (s : Checkpointed F) : Prop where
  knows : s.Knows
  named : s.disk.Named
  unsaved : s.disk.Unsaved
  replayed : s.disk.wal.Perm s.log
  pending : s.pending = []

lemma Opened.consistent (h : s.Opened) : s.Consistent :=
  ⟨h.knows, h.named, Or.inl ⟨h.unsaved, by rw [history, h.pending, List.append_nil]; exact h.replayed⟩⟩

/-! ### An empty directory -/

/-- A field that was opened in an empty directory. -/
def newField : Checkpointed ℚ where
  inst := 1
  walCoverage := .empty
  log := []
  pending := []
  nextSeqno := 1
  disk := ⟨[], ⟨[], List.nodup_nil, fun _ => 0, fun _ => none⟩, fun _ => [],
    ⟨fun _ => none, fun _ => none⟩⟩

lemma newField_opened : newField.Opened where
  knows := ⟨by decide, one_pos, by simp [newField], by simp [newField],
    by simp [newField, OrderedMap.get?_empty], by simp [newField, OrderedMap.get?_empty],
    by simp [newField], by simp [newField], List.Pairwise.nil⟩
  named := by simp [Disk.Named, newField]
  unsaved := ⟨by simp [newField], rfl⟩
  replayed := .refl _
  pending := rfl

/-- A save that rewrites the payload sidecar. -/
def plainSave : SaveEnv ℚ := ⟨[(.pld, 40)], 100, 50, 0, [], [], []⟩

end Checkpointed

end ChittaField
